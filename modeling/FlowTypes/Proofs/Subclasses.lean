import FlowTypes.Analysis.Attribute
import Mathlib.Logic.Relation

/-! The search for a class above another one. It takes the pending classes one by one and goes on from
those that it has not seen; a class may be pending many times, and classes may inherit in a circle. -/
namespace FlowTypes

open Analysis
open Relation (ReflTransGen)

namespace State

variable {s : State} {id base classId ancestor current : TypeId} {seen pending : List TypeId}

/-- The table of one type has a super link to a table that the other one owns. -/
def Extends (s : State) (id base : TypeId) : Prop :=
  ∃ table, s.types.tableOf id = some table ∧
    ∃ sup ∈ (s.scopes.get table).supers, (s.scopes.get sup).owner = some base

theorem mem_superclasses : base ∈ superclasses s id ↔ s.Extends id base := by
  unfold superclasses Extends
  cases s.types.tableOf id with
  | none => simp
  | some table =>
    simp only [Option.some.injEq, exists_eq_left']
    exact List.mem_filterMap

/-- What a search that has not met the class it looks for knows: from the types it has seen it goes on
to types that it has seen or that are pending. -/
structure Searching (s : State) (ancestor : TypeId) (seen pending : List TypeId) : Prop where
  unmet : ancestor ∉ seen
  closed : ∀ id ∈ seen, ∀ base, s.Extends id base → base ∈ seen ∨ base ∈ pending

namespace Searching

/-- A way to the class from a type that was seen comes by a pending one that was not. -/
theorem exit (searching : s.Searching ancestor seen pending) (known : id ∈ seen)
    (way : ReflTransGen s.Extends id ancestor) :
    ∃ next ∈ pending, next ∉ seen ∧ ReflTransGen s.Extends next ancestor := by
  induction way using ReflTransGen.head_induction_on with
  | refl => exact absurd known searching.unmet
  | @head id next step rest ih =>
    by_cases seenNext : next ∈ seen
    · exact ih seenNext
    · exact ⟨next, (searching.closed id known next step).resolve_left seenNext, seenNext, rest⟩

theorem skip (searching : s.Searching ancestor seen (current :: pending)) (known : current ∈ seen) :
    s.Searching ancestor seen pending := by
  refine ⟨searching.unmet, fun id member base step => ?_⟩
  rcases searching.closed id member base step with old | ahead
  · exact .inl old
  · rcases List.mem_cons.mp ahead with rfl | ahead
    · exact .inl known
    · exact .inr ahead

theorem expand (searching : s.Searching ancestor seen (current :: pending))
    (other : current ≠ ancestor) : s.Searching ancestor (current :: seen)
      ((superclasses s current).reverse ++ pending) := by
  refine ⟨by simp [other.symm, searching.unmet], fun id member base step => ?_⟩
  rcases List.mem_cons.mp member with rfl | old
  · exact .inr (List.mem_append_left _ (List.mem_reverse.mpr (mem_superclasses.mpr step)))
  · rcases searching.closed id old base step with known | ahead
    · exact .inl (List.mem_cons_of_mem _ known)
    · rcases List.mem_cons.mp ahead with rfl | ahead
      · exact .inl List.mem_cons_self
      · exact .inr (List.mem_append_right _ ahead)

/-- The search finds the class exactly if there is a way to it from a pending one. -/
theorem reaches_iff (searching : s.Searching ancestor seen pending) :
    reaches s ancestor seen pending = true ↔
      ∃ id ∈ pending, ReflTransGen s.Extends id ancestor := by
  fun_induction reaches s ancestor seen pending with
  | case1 => simp
  | case2 seen pending => simpa using .inl .refl
  | case3 seen current pending other known ih =>
    rw [ih (searching.skip known)]
    refine ⟨fun ⟨id, member, way⟩ => ⟨id, List.mem_cons_of_mem _ member, way⟩, ?_⟩
    rintro ⟨id, member, way⟩
    rcases List.mem_cons.mp member with rfl | member
    · obtain ⟨next, ahead, new, rest⟩ := searching.exit known way
      exact ⟨next, List.mem_of_ne_of_mem (fun same => new (same ▸ known)) ahead, rest⟩
    · exact ⟨id, member, way⟩
  | case4 seen current pending other new ih =>
    rw [ih (searching.expand other)]
    simp only [List.mem_append, List.mem_reverse, mem_superclasses]
    constructor
    · rintro ⟨base, step | member, way⟩
      · exact ⟨current, List.mem_cons_self, .head step way⟩
      · exact ⟨base, List.mem_cons_of_mem _ member, way⟩
    · rintro ⟨id, member, way⟩
      rcases List.mem_cons.mp member with rfl | member
      · rcases way.cases_head with same | ⟨base, step, rest⟩
        · exact absurd same other
        · exact ⟨base, .inl step, rest⟩
      · exact ⟨id, .inr member, way⟩

end Searching

/-- In every state, whatever inherits from what, the search ends and finds exactly the class itself and
the classes that the super links lead to. -/
theorem isSubclass_iff_extends (s : State) (classId ancestor : TypeId) :
    isSubclass s classId ancestor = true ↔ ReflTransGen s.Extends classId ancestor := by
  have start : s.Searching ancestor [] [classId] := ⟨List.not_mem_nil, by simp⟩
  rw [isSubclass, start.reaches_iff]
  simp

end State
end FlowTypes
