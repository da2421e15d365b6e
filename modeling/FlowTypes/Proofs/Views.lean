import FlowTypes.Proofs.HeapInvariant

/-! What an operation does not touch. A view picks out one sort of types, say the classes; two stores
agree in a view that shows the same of each of their types. -/
namespace FlowTypes

/-! ### Types -/

namespace TypeStore

/-- A view that shows nothing of unions and containers. -/
structure Overlooks {α : Type} (view : Ty → Option α) : Prop where
  unknown : view .unknown = none
  union : ∀ types, view (.union types) = none
  list : ∀ d, view (.list d) = none
  dict : ∀ d, view (.dict d) = none
  tuple : ∀ d, view (.tuple d) = none

variable {α : Type} {view : Ty → Option α} {s s' s'' : TypeStore} {a b id : TypeId} {t : Ty}

def Agrees (view : Ty → Option α) (s s' : TypeStore) : Prop :=
  ∀ id, view (s'.get id) = view (s.get id)

theorem Agrees.refl (s : TypeStore) : Agrees view s s := fun _ => rfl

theorem Agrees.trans (first : Agrees view s s') (second : Agrees view s' s'') : Agrees view s s'' :=
  fun id => (second id).trans (first id)

theorem get_alloc_cases (s : TypeStore) (t : Ty) (id : TypeId) :
    (s.alloc t).2.get id = s.get id ∨ id = ⟨s.size⟩ ∧ (s.alloc t).2.get id = t := by
  by_cases new : id = ⟨s.size⟩
  · subst new
    exact .inr ⟨rfl, get_alloc_new s t⟩
  · left
    have different : id.index ≠ s.types.size := fun same => new (by cases id; simp_all [size])
    simp only [alloc, get, Array.getElem?_push, if_neg different]

theorem ne_fresh (known : s.get id ≠ .unknown) : id ≠ ⟨s.size⟩ := by
  rintro rfl
  exact Nat.lt_irrefl _ (has_of_get known)

theorem agrees_alloc (unknown : view .unknown = none) (hidden : view t = none) :
    Agrees view s (s.alloc t).2 := by
  intro id
  rcases s.get_alloc_cases t id with same | ⟨rfl, new⟩
  · rw [same]
  · have outside : s.get ⟨s.size⟩ = .unknown := get_of_le (Nat.le_refl _)
    rw [new, hidden, outside, unknown]

theorem agrees_set (same : view t = view (s.get id)) : Agrees view s (s.set id t) := by
  intro a
  by_cases own : a = id
  · subst own
    by_cases has : s.Has a
    · rw [get_set_self has, same]
    · have outside : ¬a.index < s.types.size := has
      simp [set, get, outside]
  · rw [get_set_of_ne own]

theorem agrees_modifyFunction
    (same : ∀ f, s.get id = .function f → view (.function (change f)) = view (.function f)) :
    Agrees view s (s.modifyFunction id change) := by
  unfold modifyFunction
  split
  · next f found => exact agrees_set (by rw [found, same f found])
  · exact .refl s

theorem agrees_modifyClass
    (same : ∀ c, s.get id = .classType c → view (.classType (change c)) = view (.classType c)) :
    Agrees view s (s.modifyClass id change) := by
  unfold modifyClass
  split
  · next c found => exact agrees_set (by rw [found, same c found])
  · exact .refl s

theorem agrees_insertArrow
    (same : ∀ f arrows, view (.function { f with arrows }) = view (.function f)) :
    Agrees view s (s.insertArrow fn arrow limits).2 := by
  have noted : ∀ arrows, Agrees view s (s.setArrows (s.originOf fn) arrows) :=
    fun arrows => agrees_modifyFunction fun f _ => same f arrows
  unfold insertArrow
  dsimp only
  split
  · exact .refl s
  · split
    · exact .refl s
    · split
      · exact noted _
      · split
        · exact .refl s
        · exact noted _

section Overlooks

variable (blind : Overlooks view)

include blind

theorem agrees_union (s : TypeStore) (a b : TypeId) : Agrees view s (s.union a b).2 := by
  have joins := s.union_joins a b
  generalize s.union a b = result at joins ⊢
  cases joins with
  | same | single | first | second => exact .refl s
  | fresh => exact agrees_alloc blind.unknown (blind.union _)

theorem agrees_unionFrom (s : TypeStore) (a : TypeId) (bs : List TypeId) :
    Agrees view s (s.unionFrom a bs).2 := by
  induction bs generalizing s a with
  | nil => exact .refl s
  | cons b bs ih => exact (agrees_union blind s a b).trans (ih _ _)

theorem agrees_unionAll {s : TypeStore} {types : List TypeId} :
    Agrees view s (s.unionAll types).2 := by
  cases types with
  | nil => exact .refl s
  | cons a bs => exact agrees_unionFrom blind s a bs

theorem agrees_unionOpt {s : TypeStore} {a : Option TypeId} {b : TypeId} :
    Agrees view s (s.unionOpt a b).2 := by
  cases a with
  | none => exact .refl s
  | some a => exact agrees_union blind s a b

theorem agrees_remove : Agrees view s (s.remove a b).2 := by
  have removes := s.remove_removes a b
  generalize s.remove a b = result at removes ⊢
  cases removes with
  | nothing | single | whole => exact .refl s
  | fresh => exact agrees_alloc blind.unknown (blind.union _)

theorem agrees_widen : Agrees view s (s.widen a b).2 := by
  unfold widen
  split
  · exact .refl s
  · exact agrees_union blind s a b

theorem agrees_setElement : Agrees view s (s.setElement a b) := by
  unfold setElement
  split
  · next found => exact agrees_set (by rw [found, blind.list, blind.list])
  · exact .refl s

theorem agrees_setEntry : Agrees view s (s.setEntry a key value) := by
  unfold setEntry
  split
  · next found => exact agrees_set (by rw [found, blind.dict, blind.dict])
  · exact .refl s

theorem agrees_setItem : Agrees view s (s.setItem a i b) := by
  unfold setItem
  split
  · next found => exact agrees_set (by rw [found, blind.tuple, blind.tuple])
  · exact .refl s

theorem agrees_widenList : Agrees view s (s.widenList a b) := by
  unfold widenList
  split
  · exact (agrees_widen blind).trans (agrees_setElement blind)
  · exact .refl s

theorem agrees_widenEntry : Agrees view s (s.widenEntry a index value) := by
  unfold widenEntry
  split
  · next d _ =>
    exact (agrees_widen blind).trans
      ((agrees_widen blind).trans (agrees_setEntry blind))
  · exact .refl s

end Overlooks
end TypeStore

/-! ### Tables -/

namespace ScopeStore

variable {s : ScopeStore} {id i : ScopeId}

def Has (s : ScopeStore) (id : ScopeId) : Prop := id.index < s.size

instance (s : ScopeStore) (id : ScopeId) : Decidable (s.Has id) := inferInstanceAs (Decidable (_ < _))

theorem get_alloc_of_ne (other : id ≠ ⟨s.size⟩) :
    (s.alloc kind parent path).2.get id = s.get id := by
  have different : id.index ≠ s.scopes.size := fun same => other (by cases id; simp_all [size])
  simp only [alloc, get, Array.getElem?_push, if_neg different]

theorem get_alloc_new : (s.alloc kind parent path).2.get ⟨s.size⟩ = { kind, path, parent } := by
  simp [alloc, get, size]

theorem get_modify_of_ne (other : id ≠ i) : (s.modify i f).get id = s.get id := by
  rcases s.get_modify i id with same | ⟨own, _⟩
  · exact same
  · exact absurd own.symm other

theorem get_modify_self (inside : i.index < s.size) (f : Scope → Scope) :
    (s.modify i f).get i = f (s.get i) := by
  obtain ⟨scope, found⟩ : ∃ scope, s.scopes[i.index]? = some scope :=
    ⟨_, Array.getElem?_eq_getElem inside⟩
  simp [modify, get, Array.getElem?_modify, found]

@[simp] theorem size_modify (s : ScopeStore) : (s.modify i f).size = s.size := by
  simp [modify, size]

@[simp] theorem size_alloc : (s.alloc kind parent path).2.size = s.size + 1 := by
  simp [alloc, size]

theorem get_of_le (outside : s.size ≤ id.index) : s.get id = default := by
  simp only [get, Array.getElem?_eq_none (show s.scopes.size ≤ id.index from outside)]
  rfl

theorem get_size : s.get ⟨s.size⟩ = default := get_of_le (Nat.le_refl _)

theorem inside_of_owner (owned : (s.get id).owner = some o) : id.index < s.size := by
  by_contra outside
  rw [get_of_le (Nat.le_of_not_lt outside)] at owned
  cases owned

theorem ne_fresh (owned : (s.get id).owner = some o) : id ≠ ⟨s.size⟩ := by
  rintro rfl
  exact Nat.lt_irrefl _ (inside_of_owner owned)

end ScopeStore

namespace Heap

variable {h h' : Heap} {α : Type} {view : Ty → Option α}

theorem scopes_allocWithTable_new (h : Heap) (kind : ScopeKind) (parent : Option ScopeId)
    (path : String) (make : ScopeId → Ty) :
    (h.allocWithTable kind parent path make).2.scopes.get ⟨h.scopes.size⟩ =
      { kind, path, parent, owner := some ⟨h.types.size⟩ } := by
  have inside : h.scopes.size < (h.scopes.alloc kind parent path).2.size := by simp
  have written := ScopeStore.get_modify_self (i := ⟨h.scopes.size⟩) inside fun scope =>
    { scope with owner := some (⟨h.types.size⟩ : TypeId) }
  rw [ScopeStore.get_alloc_new] at written
  exact written

theorem scopes_allocWithTable_of_ne (other : table ≠ ⟨h.scopes.size⟩) (kind : ScopeKind)
    (parent : Option ScopeId) (path : String) (make : ScopeId → Ty) :
    (h.allocWithTable kind parent path make).2.scopes.get table = h.scopes.get table :=
  (ScopeStore.get_modify_of_ne other).trans (ScopeStore.get_alloc_of_ne other)

theorem size_scopes_allocWithTable :
    (h.allocWithTable kind parent path make).2.scopes.size = h.scopes.size + 1 :=
  (ScopeStore.size_modify _).trans ScopeStore.size_alloc

/-- A step that leaves what `view` shows, and the tables that have owners, as they are. -/
structure Apart (view : Ty → Option α) (h h' : Heap) : Prop where
  types : TypeStore.Agrees view h.types h'.types
  tables : ∀ table o, (h.scopes.get table).owner = some o →
    (h'.scopes.get table).owner = some o ∧
      (h'.scopes.get table).supers = (h.scopes.get table).supers

theorem Apart.refl (h : Heap) : h.Apart view h := ⟨.refl _, fun _ _ owned => ⟨owned, rfl⟩⟩

theorem apart_types {types : TypeStore} (agrees : TypeStore.Agrees view h.types types) :
    h.Apart view { h with types } :=
  ⟨agrees, fun _ _ owned => ⟨owned, rfl⟩⟩

theorem apart_new (unknown : view .unknown = none)
    (make : ScopeId → Ty) (own : ∀ table, (make table).table? = some table)
    (hidden : ∀ table, view (make table) = none) :
    h.Apart view ((h.allocWithTable kind parent path make).2.inheritTable
      (h.allocWithTable kind parent path make).1 base) where
  types := by
    rw [types_inheritTable]
    exact TypeStore.agrees_alloc unknown (hidden _)
  tables := by
    intro table o owned
    have other := ScopeStore.ne_fresh owned
    have first := scopes_allocWithTable_of_ne other kind parent path make
    have found : (h.allocWithTable kind parent path make).2.types.tableOf
        (h.allocWithTable kind parent path make).1 = some ⟨h.scopes.size⟩ :=
      (congrArg Ty.table? (TypeStore.get_alloc_new _ _)).trans (own _)
    unfold inheritTable
    rw [found]
    split
    · next table' super same _ =>
      obtain rfl := Option.some.inj same
      dsimp only
      rw [ScopeStore.addSuper, ScopeStore.get_modify_of_ne other, first]
      exact ⟨owned, rfl⟩
    · rw [first]
      exact ⟨owned, rfl⟩

theorem apart_newModule (unknown : view .unknown = none) (hidden : ∀ d, view (.module d) = none) :
    h.Apart view (h.newModule bases name file parent).2 :=
  apart_new unknown
    (fun table => .module { name := name.name, file, qualified := name.qualified, table })
    (fun _ => rfl) (fun _ => hidden _)

section Overlooks

variable (blind : TypeStore.Overlooks view) (h : Heap)

include blind

theorem apart_newList : h.Apart view (h.newList bases element positional strings).2 :=
  apart_new blind.unknown
    (fun table => .list { element, positional, strings, table }) (fun _ => rfl)
    (fun _ => blind.list _)

theorem apart_newDict : h.Apart view (h.newDict bases key value).2 :=
  apart_new blind.unknown (fun table => .dict { key, value, table }) (fun _ => rfl)
    (fun _ => blind.dict _)

theorem apart_newTuple : h.Apart view (h.newTuple bases elements).2 :=
  apart_new blind.unknown (fun table => .tuple { elements, table }) (fun _ => rfl)
    (fun _ => blind.tuple _)

end Overlooks
end Heap
end FlowTypes
