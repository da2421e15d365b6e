import FlowTypes.Proofs.Extent.Statements
import Mathlib.Data.List.Flatten

/-! Modules are put together from nothing. What every step of reading keeps holds of the statements of
a module that was read; so are all of its nodes as a reader makes them. -/
namespace FlowTypes

variable {stack stack' : List TreeNode} {c c' : Cursor}

theorem Assembles.keeps {I : List TreeNode → Cursor → Prop}
    (step : ∀ {stack c stack' c'}, AssemblyStep (stack, c) (stack', c') → I stack c → I stack' c')
    (path : Assembles (stack, c) (stack', c')) (holds : I stack c) : I stack' c' := by
  generalize start : (stack, c) = x at path
  generalize stop : (stack', c') = y at path
  induction path generalizing stack' c' with
  | refl =>
    cases start
    cases stop
    exact holds
  | tail _ last ih =>
    cases stop
    exact step last (ih rfl)

namespace Module

theorem nextId_ofTokens (tokens : List Token) (file : String) (firstId : NodeId) :
    (Cursor.ofTokens tokens file firstId).nextId = firstId := by
  unfold Cursor.ofTokens
  split <;> rfl

theorem parse_assembles {file : String} (read : parse source file firstId = .ok (m, next)) :
    ∃ c c' : Cursor, c.nextId = firstId ∧ c'.nextId = next ∧ m.node.id = firstId ∧
      Assembles ([], c.number) (m.body.map .stmt, c') := by
  obtain ⟨tokens, c', -, rfl, ended⟩ := parse_eq_ok read
  have start := nextId_ofTokens tokens.toList file firstId
  have here := Cursor.at_ofTokens tokens.toList file firstId
  obtain ⟨own, path⟩ := (Grammar.module_reads here file).2 m c' ended
  exact ⟨_, c', start, rfl, own.trans start, path⟩

end Module

/-! ### Nodes as a reader makes them -/

def AllRegular (stack : List TreeNode) : Prop := ∀ t ∈ stack.flatMap TreeNode.all, t.Regular

theorem AllRegular.step (step : AssemblyStep (stack, c) (stack', c')) (regular : AllRegular stack) :
    AllRegular stack' := by
  cases step with
  | shift => exact regular
  | @reduce below t _ _ own =>
    intro u member
    rw [List.flatMap_append, List.mem_append] at member
    rcases member with old | new
    · apply regular
      rw [List.flatMap_append]
      exact List.mem_append_left _ old
    · rw [List.flatMap_singleton, t.all_eq] at new
      rcases List.mem_cons.mp new with rfl | old
      · exact own
      · apply regular
        rw [List.flatMap_append]
        exact List.mem_append_right _ old
  | dissolve below t =>
    intro u member
    apply regular
    rw [List.flatMap_append, List.mem_append] at member
    rw [List.flatMap_append, List.mem_append, List.flatMap_singleton, t.all_eq]
    exact member.imp_right (List.mem_cons_of_mem t)
  | drop _ fewer =>
    intro u member
    exact regular u ((fewer.flatMap _).subset member)

/-- The nodes of a file are as the reader makes them. -/
def Module.IsRegular (m : Module) : Prop := ∀ t ∈ m.nodes, t.Regular

theorem Module.isRegular_parse {file : String} (read : parse source file firstId = .ok (m, next)) :
    m.IsRegular := by
  obtain ⟨c, c', _, _, _, path⟩ := parse_assembles read
  have none : AllRegular [] := List.forall_mem_nil _
  have all := path.keeps (fun step => AllRegular.step step) none
  intro t member
  apply all
  rw [List.flatMap_map]
  exact member

end FlowTypes
