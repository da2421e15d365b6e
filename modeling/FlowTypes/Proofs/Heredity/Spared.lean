import FlowTypes.Analysis.State
import FlowTypes.Proofs.NameTables

/-! What most activities of a walk spare: the functions, the tables of classes, the roles of scopes, the
names that modules have, and the records about files. -/
namespace FlowTypes

/-! ### The heap -/

/-- A function as a whole, and the table of a class. -/
def Ty.settled? : Ty → Option (FunctionType ⊕ ScopeId)
  | function f => some (.inl f)
  | classType c => some (.inr c.table)
  | _ => Option.none

theorem TypeStore.overlooks_settled : TypeStore.Overlooks Ty.settled? :=
  ⟨rfl, fun _ => rfl, fun _ => rfl, fun _ => rfl, fun _ => rfl⟩

theorem Ty.settled?_eq_inl {t : Ty} : t.settled? = some (.inl f) ↔ t = .function f := by
  cases t <;> simp [settled?]

theorem Ty.settled?_eq_inr {t : Ty} :
    t.settled? = some (.inr table) ↔ ∃ c, t = .classType c ∧ c.table = table := by
  cases t <;> simp [settled?]

namespace ScopeStore

variable {s s' s'' : ScopeStore} {own : ScopeId}

/-- Modules other than the own one keep their names. -/
def KeepsNames (s : ScopeStore) (own : ScopeId) (s' : ScopeStore) : Prop :=
  ∀ id name, (s.get id).kind = .module → id ≠ own → (s.lookupLocal id name).isSome = true →
    (s'.lookupLocal id name).isSome = true

theorem KeepsNames.refl : s.KeepsNames own s := fun _ _ _ _ known => known

theorem KeepsNames.trans (first : s.KeepsNames own s') (second : s'.KeepsNames own s'')
    (roles : s.SameRoles s') : s.KeepsNames own s'' := by
  intro id name kind other known
  have has : s.Has id := has_of_kind (by simp [kind])
  exact second id name ((roles.kind id has).trans kind) other (first id name kind other known)

theorem Grows.keepsNames (grows : s.Grows s') : s.KeepsNames own s' := by
  intro id name _ _ known
  rwa [lookupLocal, grows.table]

theorem KeepsNames.define : s.KeepsNames own (s.define i name ids) := by
  intro id other _ _ known
  rw [lookupLocal, ScopeStore.define]
  rcases s.get_modify i id with same | ⟨_, changed⟩
  · rwa [same]
  · rw [changed, InsertionMap.get?_insert]
    split
    · rfl
    · exact known

theorem KeepsNames.undefine : s.KeepsNames own (s.undefine own name) := by
  intro id other _ apart known
  rwa [lookupLocal, ScopeStore.undefine, get_modify_of_ne apart]

end ScopeStore

namespace Heap

open TypeStore (Agrees overlooks_settled)
open ScopeStore (SameRoles Grows)

variable {h h' h'' : Heap} {own : ScopeId}

/-- No function comes, goes or changes, classes keep their tables, scopes their roles, and modules other
than the own one their names. -/
structure Spares (h : Heap) (own : ScopeId) (h' : Heap) : Prop where
  function : ∀ {id f}, h'.types.get id = .function f ↔ h.types.get id = .function f
  table : ∀ {id c}, h.types.get id = .classType c →
    ∃ c', h'.types.get id = .classType c' ∧ c'.table = c.table
  scopes : h.scopes.SameRoles h'.scopes
  names : h.scopes.KeepsNames own h'.scopes

namespace Spares

theorem refl : h.Spares own h := ⟨Iff.rfl, fun found => ⟨_, found, rfl⟩, .refl, .refl⟩

theorem trans (first : h.Spares own h') (second : h'.Spares own h'') : h.Spares own h'' where
  function := second.function.trans first.function
  table := fun found => by
    obtain ⟨c', found', same⟩ := first.table found
    obtain ⟨c'', found'', same'⟩ := second.table found'
    exact ⟨c'', found'', same'.trans same⟩
  scopes := first.scopes.trans second.scopes
  names := first.names.trans second.names first.scopes

theorem of_agrees (types : Agrees Ty.settled? h.types h'.types)
    (scopes : h.scopes.SameRoles h'.scopes) (names : h.scopes.KeepsNames own h'.scopes) :
    h.Spares own h' where
  function := by
    intro id f
    rw [← Ty.settled?_eq_inl, ← Ty.settled?_eq_inl, types id]
  table := by
    intro id c found
    apply Ty.settled?_eq_inr.mp
    rw [types id, found]
    rfl
  scopes := scopes
  names := names

theorem of_types {types : TypeStore} (agrees : Agrees Ty.settled? h.types types) :
    h.Spares own { h with types } :=
  of_agrees agrees .refl .refl

theorem of_scopes {scopes : ScopeStore} (grows : h.scopes.Grows scopes) :
    h.Spares own { h with scopes } :=
  of_agrees (.refl _) grows.toSameRoles grows.keepsNames

theorem undefine : h.Spares own { h with scopes := h.scopes.undefine own name } :=
  of_agrees (.refl _) (.modify fun _ => rfl) .undefine

end Spares

theorem spares_allocWithTable (make : ScopeId → Ty) (plain : ∀ table f, make table ≠ .function f) :
    h.Spares own (h.allocWithTable kind parent path make).2 where
  function := by
    intro id f
    rcases h.types.get_alloc_cases (make ⟨h.scopes.size⟩) id with same | ⟨rfl, new⟩
    · exact iff_of_eq (congrArg (· = _) same)
    · have outside : h.types.get ⟨h.types.size⟩ = .unknown := TypeStore.get_of_le (Nat.le_refl _)
      constructor
      · exact fun found => absurd (new.symm.trans found) (plain _ f)
      · exact fun found => absurd (outside.symm.trans found) (by simp)
  table := by
    intro id c found
    have other : id ≠ ⟨h.types.size⟩ := TypeStore.ne_fresh (by simp [found])
    rcases h.types.get_alloc_cases (make ⟨h.scopes.size⟩) id with same | ⟨new, _⟩
    · exact ⟨c, same.trans found, rfl⟩
    · exact absurd new other
  scopes := (h.grows_allocWithTable make).toSameRoles
  names := (h.grows_allocWithTable make).keepsNames

theorem Edit.spares (edit : h.Edit h') : h.Spares own h' := by
  have grows := edit.grows
  cases edit with
  | add make plain =>
    refine spares_allocWithTable make fun table f same => ?_
    have plain := plain table
    rw [same] at plain
    cases plain
  | addInstance classId =>
    exact spares_allocWithTable (fun table => .instanceOf { classId, table }) (by simp)
  | inherit =>
    refine .of_agrees ?_ grows.toSameRoles grows.keepsNames
    rw [types_inheritTable]
    exact .refl _
  | note kept =>
    refine .of_types (TypeStore.agrees_modifyClass fun c _ => ?_)
    rw [Ty.settled?, kept]
    rfl
  | addSuper => exact .of_scopes grows

theorem Edits.spares (edits : h.Edits h') : h.Spares own h' := by
  induction edits with
  | refl => exact .refl
  | tail _ edit ih => exact ih.trans edit.spares

end Heap

/-! ### The state -/

/-- What is kept about files, and the log. -/
structure Records where
  modules : PathMap FileStatus
  failed : List Path
  journal : List LogRecord

/-- What there is of functions and classes besides the values themselves. -/
structure Register where
  frames : List Frame
  uncalled : List TypeId
  functions : InsertionMap NodeId TypeId
  classes : InsertionMap NodeId TypeId
  boundMethods : InsertionMap (TypeId × TypeId) TypeId
  nextNode : NodeId

namespace State

def records (s : State) : Records := ⟨s.modules, s.failed, s.journal⟩

/-- The state with other records. -/
def refile (s : State) (r : Records) : State :=
  { s with modules := r.modules, failed := r.failed, journal := r.journal }

def register (s : State) : Register :=
  ⟨s.frames, s.uncalled, s.functions, s.classes, s.boundMethods, s.nextNode⟩

/-- Nothing happens but that something is noted about names, nodes or values other than functions. -/
structure Spares (s s' : State) : Prop where
  heap : ∀ own, s.heap.Spares own s'.heap
  register : s'.register = s.register
  nodeTypes : ∀ node, (s.nodeTypes.get? node).isSome = true → (s'.nodeTypes.get? node).isSome = true

theorem Spares.refl {s : State} : s.Spares s := ⟨fun _ => .refl, rfl, fun _ known => known⟩

theorem Spares.of_heap {s : State} (heap : ∀ own, s.heap.Spares own s'.heap)
    (register : s'.register = s.register) (nodeTypes : s'.nodeTypes = s.nodeTypes) : s.Spares s' :=
  ⟨heap, register, fun _ known => nodeTypes ▸ known⟩

end State

/-- A change of the state that spares all this and does not depend on the records. -/
structure Note {α : Type} (f : State → α × State) : Prop where
  refile : ∀ s r, f (s.refile r) = ((f s).1, (f s).2.refile r)
  spares : ∀ s : State, s.Spares (f s).2

namespace Note

variable {α : Type} {f : State → α × State}

theorem records (note : Note f) : (f s).2.records = s.records := by
  have same : (f s).2 = (f s).2.refile s.records := congrArg Prod.snd (note.refile s s.records)
  rw [same]
  rfl

theorem aside (refile : ∀ s r, f (s.refile r) = ((f s).1, (f s).2.refile r))
    (heap : ∀ s, (f s).2.heap = s.heap) (register : ∀ s, (f s).2.register = s.register)
    (nodeTypes : ∀ s, (f s).2.nodeTypes = s.nodeTypes) : Note f where
  refile := refile
  spares := fun s => .of_heap (fun _ => by rw [heap s]; exact .refl) (register s) (nodeTypes s)

theorem defines {g : State → α × State} {table : State → ScopeId} {name : State → String}
    {ids : State → List BindingId} (refile : ∀ s r, g (s.refile r) = ((g s).1, (g s).2.refile r))
    (heap : ∀ s, (g s).2.heap =
      { s.heap with scopes := s.heap.scopes.define (table s) (name s) (ids s) })
    (register : ∀ s, (g s).2.register = s.register)
    (nodeTypes : ∀ s, (g s).2.nodeTypes = s.nodeTypes) : Note g where
  refile := refile
  spares := fun s =>
    .of_heap (fun _ => by rw [heap s]; exact .of_agrees (.refl _) .define .define) (register s)
      (nodeTypes s)

end Note
end FlowTypes
