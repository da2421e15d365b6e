import FlowTypes.Proofs.NodeIdentities

/-! Where the statements of a file stand. A statement stands in the body of a class if no function is in
between; the blocks of other statements make no difference. Identities of nodes being distinct, a
statement stands in one place only. -/
namespace FlowTypes

namespace TreeNode

/-- The class in whose body the nodes inside of a node stand, from that of the node itself. -/
def around (owner : Option NodeId) : TreeNode → Option NodeId
  | stmt (.function _) => none
  | stmt (.classDef d) => some d.node.id
  | _ => owner

/-- A node and everything inside of it, each with the class in whose body it stands. -/
def placed (owner : Option NodeId) (t : TreeNode) : List (Option NodeId × TreeNode) :=
  (owner, t) :: t.parts.attach.flatMap fun ⟨u, _⟩ => u.placed (t.around owner)
termination_by sizeOf t
decreasing_by exact sizeOf_lt_of_mem_parts ‹_›

theorem placed_eq {owner : Option NodeId} {t : TreeNode} :
    t.placed owner = (owner, t) :: t.parts.flatMap (·.placed (t.around owner)) := by
  rw [placed]
  simp [List.flatMap_subtype]

theorem map_placed (owner : Option NodeId) (t : TreeNode) :
    (t.placed owner).map Prod.snd = t.all := by
  rw [placed_eq, all_eq, List.map_cons, List.map_flatMap]
  congr 1
  refine List.flatMap_congr fun u part => ?_
  exact map_placed (t.around owner) u
termination_by sizeOf t
decreasing_by exact sizeOf_lt_of_mem_parts part

theorem mem_placed_of_mem_parts {t : TreeNode} (inside : (o, u) ∈ t.placed owner)
    (part : v ∈ u.parts) : (u.around o, v) ∈ t.placed owner := by
  rw [placed_eq] at inside ⊢
  refine List.mem_cons_of_mem _ (List.mem_flatMap.mpr ?_)
  rcases List.mem_cons.mp inside with own | inside
  · cases own
    refine ⟨v, part, ?_⟩
    rw [placed_eq]
    exact List.mem_cons_self
  · obtain ⟨w, first, inside⟩ := List.mem_flatMap.mp inside
    exact ⟨w, first, mem_placed_of_mem_parts inside part⟩
termination_by sizeOf t
decreasing_by exact sizeOf_lt_of_mem_parts first

end TreeNode

namespace Module

variable {m : Module} {o o' : Option NodeId}

/-- All nodes of a module, each with the class in whose body it stands. -/
def placed (m : Module) : List (Option NodeId × TreeNode) :=
  m.body.flatMap fun t => (TreeNode.stmt t).placed none

theorem map_placed (m : Module) : m.placed.map Prod.snd = m.nodes := by
  unfold placed nodes
  rw [List.map_flatMap]
  exact List.flatMap_congr fun t _ => TreeNode.map_placed none _

theorem mem_nodes_of_mem_placed (inside : (o, u) ∈ m.placed) : u ∈ m.nodes :=
  m.map_placed ▸ List.mem_map_of_mem (f := Prod.snd) inside

theorem mem_placed_of_mem_parts (inside : (o, u) ∈ m.placed) (part : v ∈ u.parts) :
    (u.around o, v) ∈ m.placed := by
  obtain ⟨t, member, inside⟩ := List.mem_flatMap.mp inside
  exact List.mem_flatMap.mpr ⟨t, member, TreeNode.mem_placed_of_mem_parts inside part⟩

theorem mem_placed_of_mem_body (member : t ∈ m.body) : (none, .stmt t) ∈ m.placed := by
  refine List.mem_flatMap.mpr ⟨t, member, ?_⟩
  rw [TreeNode.placed_eq]
  exact List.mem_cons_self

theorem mem_placed_of_mem_function (inside : (o, .stmt (.function d)) ∈ m.placed)
    (member : t ∈ d.body) : (none, .stmt t) ∈ m.placed :=
  mem_placed_of_mem_parts inside (by simp [TreeNode.parts, Stmt.inside, member])

theorem mem_placed_of_mem_class (inside : (o, .stmt (.classDef d)) ∈ m.placed) (member : t ∈ d.body) :
    (some d.node.id, .stmt t) ∈ m.placed :=
  mem_placed_of_mem_parts inside (by simp [TreeNode.parts, Stmt.inside, member])

theorem mem_placed_of_mem_blocks (inside : (o, .stmt t) ∈ m.placed) (member : u ∈ t.blocks) :
    (o, .stmt u) ∈ m.placed := by
  cases t with
  | tryBlock n body handlers otherwise final =>
    simp only [Stmt.blocks, List.mem_append] at member
    rcases member with member | member | member | member
    · exact mem_placed_of_mem_parts inside (by simp [TreeNode.parts, Stmt.inside, member])
    · obtain ⟨h, there, member⟩ := List.mem_flatMap.mp member
      have handler : (o, .handler h) ∈ m.placed :=
        mem_placed_of_mem_parts inside (by simp [TreeNode.parts, Stmt.inside, there])
      exact mem_placed_of_mem_parts handler (by simp [TreeNode.parts, member])
    · exact mem_placed_of_mem_parts inside (by simp [TreeNode.parts, Stmt.inside, member])
    · exact mem_placed_of_mem_parts inside (by simp [TreeNode.parts, Stmt.inside, member])
  | branch | whileLoop | forLoop | withBlock =>
    exact mem_placed_of_mem_parts inside (List.mem_append_right _ (List.mem_map_of_mem member))
  | _ => cases member

theorem placed_unique (distinct : m.ids.Nodup) (inside : (o, u) ∈ m.placed)
    (inside' : (o', v) ∈ m.placed) (same : u.node.id = v.node.id) : o = o' ∧ u = v := by
  have ids : (m.placed.map fun site => site.2.node.id).Nodup := by
    have nodes := (List.nodup_cons.mp distinct).2
    rw [← m.map_placed, List.map_map] at nodes
    exact nodes
  exact Prod.mk.inj (List.inj_on_of_nodup_map ids inside inside' same)

end Module

/-! ### Files that are held -/

namespace State

variable {s : State} {o o' : Option NodeId}

/-- A node of a file that was read, and the class in whose body it stands. -/
def Locates (s : State) (owner : Option NodeId) (u : TreeNode) : Prop :=
  ∃ p m, s.tree? p = some m ∧ (owner, u) ∈ m.placed

/-- An expression of a file that was read. -/
def Mentions (s : State) (e : Expr) : Prop := ∃ p m, s.tree? p = some m ∧ .expr e ∈ m.nodes

theorem Locates.blocks (locates : s.Locates o (.stmt t)) (member : u ∈ t.blocks) :
    s.Locates o (.stmt u) := by
  obtain ⟨p, m, held, inside⟩ := locates
  exact ⟨p, m, held, m.mem_placed_of_mem_blocks inside member⟩

theorem Locates.exprs (locates : s.Locates o (.stmt t)) (member : e ∈ t.exprs) : s.Mentions e := by
  obtain ⟨p, m, held, inside⟩ := locates
  exact ⟨p, m, held, m.mem_nodes_of_mem_exprs (m.mem_nodes_of_mem_placed inside) member⟩

theorem Locates.function (locates : s.Locates o (.stmt (.function d))) (member : t ∈ d.body) :
    s.Locates none (.stmt t) := by
  obtain ⟨p, m, held, inside⟩ := locates
  exact ⟨p, m, held, m.mem_placed_of_mem_function inside member⟩

theorem Locates.classDef (locates : s.Locates o (.stmt (.classDef d))) (member : t ∈ d.body) :
    s.Locates (some d.node.id) (.stmt t) := by
  obtain ⟨p, m, held, inside⟩ := locates
  exact ⟨p, m, held, m.mem_placed_of_mem_class inside member⟩

theorem Locates.mentions (locates : s.Locates o (.expr e)) : s.Mentions e := by
  obtain ⟨p, m, held, inside⟩ := locates
  exact ⟨p, m, held, m.mem_nodes_of_mem_placed inside⟩

theorem Mentions.locates (mentions : s.Mentions e) : ∃ o, s.Locates o (.expr e) := by
  obtain ⟨p, m, held, inside⟩ := mentions
  rw [← m.map_placed] at inside
  obtain ⟨⟨o, u⟩, inside, rfl⟩ := List.mem_map.mp inside
  exact ⟨o, p, m, held, inside⟩

theorem Mentions.parts (mentions : s.Mentions e) (member : q ∈ e.parts) : s.Mentions q := by
  obtain ⟨p, m, held, inside⟩ := mentions
  exact ⟨p, m, held, m.mem_nodes_of_mem_parts inside member⟩

theorem Numbered.locates_unique (numbered : s.Numbered) (locates : s.Locates o u)
    (locates' : s.Locates o' v) (same : u.node.id = v.node.id) : o = o' ∧ u = v := by
  obtain ⟨p, m, held, inside⟩ := locates
  obtain ⟨q, m', held', inside'⟩ := locates'
  by_cases file : p.components = q.components
  · rw [tree?, status?_congr file, ← tree?, held'] at held
    cases held
    exact m.placed_unique (numbered.distinct held') inside inside' same
  · -- Different files have no identities in common.
    have own : ∀ {m : Module} {o : Option NodeId} {u : TreeNode}, (o, u) ∈ m.placed →
        u.node.id ∈ m.ids := fun inside =>
      List.mem_cons_of_mem _ (List.mem_map_of_mem (Module.mem_nodes_of_mem_placed inside))
    exact absurd (same ▸ own inside') (numbered.apart held held' file (own inside))

end State
end FlowTypes
