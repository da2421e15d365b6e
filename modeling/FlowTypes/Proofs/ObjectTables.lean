import FlowTypes.Proofs.InstanceMirror
import FlowTypes.Proofs.Walk.Steps

/-! The values for instances in a walk. They mirror the classes, and their tables are in no other
scope. -/
namespace FlowTypes

/-- The value for the instances of a class. -/
def Ty.object? : Ty → Option InstanceType
  | instanceOf d => some d
  | _ => Option.none

theorem Ty.object?_eq_some {t : Ty} : t.object? = some d ↔ t = .instanceOf d := by
  cases t <;> simp [object?]

namespace Heap

open TypeStore

variable {h h' : Heap} {id : TypeId}

/-- The tables of the values for instances are in no other scope. -/
def Objects (h : Heap) : Prop := ∀ i d, h.types.get i = .instanceOf d →
  (h.scopes.get d.table).kind = .object ∧ (h.scopes.get d.table).parent = none

theorem Objects.keep (objects : h.Objects) (roles : h.scopes.SameRoles h'.scopes)
    (agrees : Agrees Ty.object? h.types h'.types) : h'.Objects := by
  intro i d value
  rw [← Ty.object?_eq_some, agrees i, Ty.object?_eq_some] at value
  obtain ⟨kind, parent⟩ := objects i d value
  have has := ScopeStore.has_of_kind (by rw [kind]; simp)
  exact ⟨(roles.kind _ has).trans kind, (roles.parent has).trans parent⟩

theorem Edit.objects (edit : h.Edit h') (objects : h.Objects) : h'.Objects := by
  have roles := edit.grows.toSameRoles
  cases edit with
  | add make plain =>
    refine objects.keep roles (agrees_alloc rfl ?_)
    have plain := plain ⟨h.scopes.size⟩
    generalize make ⟨h.scopes.size⟩ = t at plain
    cases t <;> first | rfl | cases plain
  | addInstance classId =>
    intro i d value
    rcases h.types.get_alloc_cases (.instanceOf { classId, table := ⟨h.scopes.size⟩ }) i with
      same | ⟨rfl, new⟩
    · obtain ⟨kind, parent⟩ := objects i d (same.symm.trans value)
      have has := ScopeStore.has_of_kind (by rw [kind]; simp)
      exact ⟨(roles.kind _ has).trans kind, (roles.parent has).trans parent⟩
    · cases new.symm.trans value
      rw [scopes_allocWithTable_new]
      exact ⟨rfl, rfl⟩
  | inherit => exact objects.keep roles (by rw [types_inheritTable]; exact .refl _)
  | note => exact objects.keep roles (agrees_modifyClass fun _ _ => rfl)
  | addSuper => exact objects.keep roles (.refl _)

theorem Edits.objects (edits : h.Edits h') (objects : h.Objects) : h'.Objects := by
  induction edits with
  | refl => exact objects
  | tail _ edit ih => exact edit.objects ih

/-- The values for instances mirror the classes, with tables of their own. -/
structure Ordered (h : Heap) : Prop extends h.Mirrors where
  objects : h.Objects

namespace Ordered

variable (ordered : h.Ordered)

include ordered

theorem of_apart (apart : h.Apart Ty.role h') (roles : h.scopes.SameRoles h'.scopes) :
    h'.Ordered := by
  refine ⟨apart.mirrors ordered.toMirrors, ordered.objects.keep roles fun id => ?_⟩
  have same := apart.types id
  generalize h.types.get id = t at same
  generalize h'.types.get id = t' at same
  cases t <;> cases t' <;> cases same <;> rfl

theorem of_types {types : TypeStore} (agrees : Agrees Ty.role h.types types) :
    { h with types }.Ordered :=
  ordered.of_apart (apart_types agrees) .refl

theorem of_scopes {scopes : ScopeStore} (roles : h.scopes.SameRoles scopes)
    (supers : ∀ id, h.scopes.Has id → (scopes.get id).supers = (h.scopes.get id).supers) :
    { h with scopes }.Ordered := by
  refine ordered.of_apart ⟨.refl _, fun table o owned => ?_⟩ roles
  have has := ScopeStore.inside_of_owner owned
  exact ⟨(roles.owner _ has).trans owned, supers _ has⟩

theorem alloc : { h with scopes := (h.scopes.alloc kind parent path).2 }.Ordered := by
  refine ordered.of_scopes ScopeStore.Grows.alloc.toSameRoles fun id has => ?_
  rw [ScopeStore.get_alloc_of_ne]
  rintro rfl
  exact Nat.lt_irrefl _ has

theorem modify (kept : ∀ scope, (f scope).role = scope.role ∧ (f scope).supers = scope.supers) :
    { h with scopes := h.scopes.modify table f }.Ordered := by
  refine ordered.of_scopes (.modify fun scope => (kept scope).1) fun id _ => ?_
  rcases h.scopes.get_modify table id with same | ⟨_, changed⟩
  · rw [same]
  · rw [changed, (kept _).2]

theorem define : { h with scopes := h.scopes.define table name ids }.Ordered :=
  ordered.modify fun _ => ⟨rfl, rfl⟩

end Ordered

theorem ordered_initial {scopes : ScopeStore} : Ordered ⟨.initial, scopes⟩ := by
  refine ⟨mirrors_initial, fun i d value => ?_⟩
  -- A value would have a table, whatever scopes there are.
  cases (mirrors_initial : Mirrors ⟨.initial, {}⟩).instanceOwner value

theorem Move.ordered (move : h.Move h') (ordered : h.Ordered) : h'.Ordered := by
  have mirrors := ordered.toMirrors
  have roles := move.noNewNames.toSameRoles
  cases move with
  | newList => exact ordered.of_apart (apart_newList overlooks_role h) roles
  | newDict => exact ordered.of_apart (apart_newDict overlooks_role h) roles
  | newTuple => exact ordered.of_apart (apart_newTuple overlooks_role h) roles
  | newModule => exact ordered.of_apart (apart_newModule rfl fun _ => rfl) roles
  | newClass => exact ⟨mirrors.newClass .., (edits_newClass h).objects ordered.objects⟩
  | @newFunction bases name path env complete own =>
    have apart : h.Apart Ty.role (h.newFunctionWith bases name path env complete).2 :=
      apart_new rfl (fun table => .function (complete { name, table, env }))
        (fun table => congrArg some (own table)) fun _ => rfl
    exact ordered.of_apart apart roles
  | instanceOf => exact ⟨mirrors.instanceOf _, (edits_instanceOf h).objects ordered.objects⟩
  | addBase => exact ⟨mirrors.addBase, (edits_addBase h).objects ordered.objects⟩
  | canonicalArguments =>
    exact ⟨mirrors.canonicalArguments, (edits_canonicalArguments h).objects ordered.objects⟩
  | insertArrow => exact ordered.of_types (agrees_insertArrow fun _ _ => rfl)
  | reopen | setDefaults => exact ordered.of_types (agrees_modifyFunction fun _ _ => rfl)
  | @union a b => exact ordered.of_types (agrees_union overlooks_role h.types a b)
  | remove => exact ordered.of_types (agrees_remove overlooks_role)
  | widenList => exact ordered.of_types (agrees_widenList overlooks_role)
  | widenEntry => exact ordered.of_types (agrees_widenEntry overlooks_role)
  | newScope => exact ordered.alloc
  | rename id keeps => exact ordered.modify keeps

end Heap

namespace State

variable {s s' : State}

theorem Step.ordered (step : Step s s') (ordered : s.heap.Ordered) : s'.heap.Ordered := by
  cases step with
  | heap move => exact move.ordered ordered
  | recordType | yieldValue =>
    exact ordered.of_types (TypeStore.agrees_unionOpt overlooks_role)
  | bind => exact ordered.define
  | extendBinding => exact ordered.of_types (TypeStore.agrees_union overlooks_role _ _ _)
  | @bindMethod fn receiver =>
    refine ordered.of_apart (Heap.apart_bindMethod _) ?_
    rw [Heap.scopes_bindMethod]
    exact .refl
  | comprehension => exact ordered.alloc
  | log | report | bindModule | refer | takeForward | forward | called | define | defineClass
  | package => exact ordered

end State
end FlowTypes
