import FlowTypes.Proofs.Assembly.Modules
import Mathlib.Data.List.Perm.Basic

/-! The order in which nodes get their identities. A node gets the first identity that is free when all
of its parts have been read, so that identities increase as one goes through a tree in postorder. -/
namespace FlowTypes

namespace TreeNode

variable {t u v : TreeNode}

/-- Everything inside of a node, with the parts in the order of the source, and then the node. -/
def postorder (t : TreeNode) : List TreeNode :=
  (t.parts.attach.flatMap fun u => u.1.postorder) ++ [t]
termination_by sizeOf t
decreasing_by exact sizeOf_lt_of_mem_parts u.2

theorem postorder_eq (t : TreeNode) : t.postorder = t.parts.flatMap postorder ++ [t] := by
  rw [postorder, List.flatMap_subtype]
  · rw [List.unattach_attach]
  · exact fun _ _ => rfl

theorem postorder_perm_all (t : TreeNode) : t.postorder.Perm t.all := by
  rw [postorder_eq, all_eq]
  apply (List.perm_append_singleton t _).trans
  apply List.Perm.cons
  apply List.Perm.flatMap_left
  intro u part
  exact postorder_perm_all u
termination_by sizeOf t
decreasing_by exact sizeOf_lt_of_mem_parts part

/-- What is inside of a node comes in the same order from the inside. -/
theorem postorder_sublist (inside : u ∈ t.all) : u.postorder.Sublist t.postorder := by
  apply all_induction (P := fun u => u.postorder.Sublist t.postorder) t
  · exact .refl _
  · intro u _ known v part
    apply List.Sublist.trans _ known
    rw [postorder_eq u]
    have among := (List.singleton_sublist.mpr part).flatMap postorder
    rw [List.flatMap_singleton] at among
    exact among.trans (List.sublist_append_left _ _)
  · exact inside

end TreeNode

/-- Nodes whose identities increase in postorder, since the first of them was free. -/
structure Numbering (first : NodeId) (stack : List TreeNode) (c : Cursor) : Prop where
  free : first ≤ c.nextId
  increasing : (stack.flatMap TreeNode.postorder).Pairwise fun t u => t.node.id < u.node.id
  given : ∀ t ∈ stack.flatMap TreeNode.postorder, first ≤ t.node.id ∧ t.node.id < c.nextId

namespace Numbering

variable {first : NodeId} {stack stack' : List TreeNode} {c c' : Cursor}

theorem nil : Numbering c.nextId [] c := by
  constructor
  · exact Nat.le_refl _
  · exact List.Pairwise.nil
  · exact fun _ found => nomatch found

theorem of_sublist (numbering : Numbering first stack c)
    (fewer : (stack'.flatMap TreeNode.postorder).Sublist (stack.flatMap TreeNode.postorder)) :
    Numbering first stack' c := by
  constructor
  · exact numbering.free
  · exact numbering.increasing.sublist fewer
  · exact fun t found => numbering.given t (fewer.subset found)

theorem step (step : AssemblyStep (stack, c) (stack', c')) (numbering : Numbering first stack c) :
    Numbering first stack' c' := by
  cases step with
  | shift => exact ⟨numbering.free, numbering.increasing, numbering.given⟩
  | @reduce below t c own regular =>
    obtain ⟨free, increasing, given⟩ := numbering
    -- The new node comes behind all nodes that there are, in postorder and by its identity.
    have last : (below ++ [t]).flatMap TreeNode.postorder =
        (below ++ t.parts).flatMap TreeNode.postorder ++ [t] := by
      simp [t.postorder_eq]
    constructor
    · exact Nat.le_succ_of_le free
    · rw [last, List.pairwise_append]
      refine ⟨increasing, List.pairwise_singleton _ _, fun u old v new => ?_⟩
      rw [List.mem_singleton.mp new, own]
      exact (given u old).2
    · intro u found
      rw [last, List.mem_append, List.mem_singleton] at found
      rcases found with old | rfl
      · exact ⟨(given u old).1, Nat.lt_succ_of_lt (given u old).2⟩
      · rw [own]
        exact ⟨free, Nat.lt_succ_self _⟩
  | dissolve below t =>
    apply numbering.of_sublist
    simp [t.postorder_eq]
  | drop _ fewer => exact numbering.of_sublist (fewer.flatMap _)

end Numbering

namespace Module

/-- All nodes of a module but the module itself. -/
def postorder (m : Module) : List TreeNode := m.body.flatMap fun s => (TreeNode.stmt s).postorder

theorem postorder_perm_nodes (m : Module) : m.postorder.Perm m.nodes :=
  List.Perm.flatMap_left _ fun s _ => (TreeNode.stmt s).postorder_perm_all

theorem postorder_sublist {m : Module} (inside : t ∈ m.nodes) :
    t.postorder.Sublist m.postorder := by
  obtain ⟨s, member, inside⟩ := List.mem_flatMap.mp inside
  have among := (List.singleton_sublist.mpr member).flatMap fun s => (TreeNode.stmt s).postorder
  rw [List.flatMap_singleton] at among
  exact (TreeNode.postorder_sublist inside).trans among

variable {source file : String} {firstId next : NodeId} {m : Module}

theorem numbering_parse (read : parse source file firstId = .ok (m, next)) :
    m.node.id = firstId ∧ firstId < next ∧
    (m.postorder.Pairwise fun t u => t.node.id < u.node.id) ∧
    ∀ t ∈ m.nodes, firstId < t.node.id ∧ t.node.id < next := by
  obtain ⟨c, c', rfl, rfl, own, path⟩ := parse_assembles read
  obtain ⟨free, increasing, given⟩ := path.keeps (fun step => Numbering.step step) .nil
  rw [List.flatMap_map] at increasing given
  refine ⟨own, free, increasing, fun t found => ?_⟩
  exact given t (m.postorder_perm_nodes.mem_iff.mpr found)

/-- The identities of a file are distinct, and among those that were given away for it. -/
theorem ids_parse (read : parse source file firstId = .ok (m, next)) :
    m.ids.Nodup ∧ firstId ≤ next ∧ ∀ i ∈ m.ids, firstId ≤ i ∧ i < next := by
  obtain ⟨own, free, increasing, given⟩ := numbering_parse read
  have distinct : (m.nodes.map (·.node.id)).Nodup := by
    rw [← (m.postorder_perm_nodes.map _).nodup_iff, List.Nodup, List.pairwise_map]
    exact increasing.imp Nat.ne_of_lt
  -- The module itself has the identity before the first that its nodes can get.
  rw [ids, own]
  refine ⟨List.nodup_cons.mpr ⟨fun found => ?_, distinct⟩, Nat.le_of_lt free, fun i found => ?_⟩
  · obtain ⟨t, inside, same⟩ := List.mem_map.mp found
    exact absurd same (Nat.ne_of_gt (given t inside).1)
  · rcases List.mem_cons.mp found with rfl | found
    · exact ⟨Nat.le_refl _, free⟩
    · obtain ⟨t, inside, rfl⟩ := List.mem_map.mp found
      exact ⟨Nat.le_of_lt (given t inside).1, (given t inside).2⟩

/-- A module has the first identity, all identities are distinct and given away for it, and every node
has a greater one than all nodes inside of it: in postorder, identities increase. -/
theorem identities_in_postorder (read : parse source file firstId = .ok (m, next)) :
    m.node.id = firstId ∧ m.ids.Nodup ∧ (∀ i ∈ m.ids, firstId ≤ i ∧ i < next) ∧
    (∀ t ∈ m.nodes, ∀ part ∈ t.parts, ∀ u ∈ part.all, u.node.id < t.node.id) ∧
    m.postorder.Pairwise fun t u => t.node.id < u.node.id := by
  obtain ⟨own, -, increasing, -⟩ := numbering_parse read
  obtain ⟨distinct, -, given⟩ := ids_parse read
  refine ⟨own, distinct, given, fun t inside part member u within => ?_, increasing⟩
  have ordered := increasing.sublist (postorder_sublist inside)
  rw [t.postorder_eq, List.pairwise_append] at ordered
  apply ordered.2.2 u _ t (List.mem_singleton_self t)
  exact List.mem_flatMap.mpr ⟨part, member, part.postorder_perm_all.mem_iff.mpr within⟩

end Module

/-- A keyword of a class, which is read and dropped, and a tuple that gives way to its elements. -/
def Text.dropped : String := "class a(b, m=c):\n  del x, y\nz = 1 if u else v\n"

theorem dropped_in_postorder : ∃ m next, Module.parse Text.dropped "m" 3 = .ok (m, next) ∧
    next = 17 ∧ m.postorder.map (·.node.id) = [4, 6, 7, 9, 10, 11, 12, 13, 14, 15, 16] ∧
    m.node.id = 3 ∧ m.ids.Nodup ∧ (∀ i ∈ m.ids, 3 ≤ i ∧ i < next) ∧
    ∀ t ∈ m.nodes, ∀ part ∈ t.parts, ∀ u ∈ part.all, u.node.id < t.node.id := by
  have counted : (Module.parse Text.dropped "m" 3).toOption.map
      (fun r => (r.2, r.1.postorder.map (·.node.id))) =
        some (17, [4, 6, 7, 9, 10, 11, 12, 13, 14, 15, 16]) := by
    decide +kernel
  obtain ⟨m, next, read, counted⟩ := Module.exists_of_parse counted
  obtain ⟨own, distinct, given, greater, -⟩ := Module.identities_in_postorder read
  have same := Prod.mk.inj counted
  exact ⟨m, next, read, same.1, same.2, own, distinct, given, greater⟩

end FlowTypes
