import FlowTypes.Proofs.StoreInvariant
import FlowTypes.Types.Heap

/-! What can happen to a heap. A step adds types or changes them in place, and gives tables their
owners. -/
namespace FlowTypes

/-! ### Owners of tables -/

namespace ScopeStore

variable {s : ScopeStore} {id i : ScopeId} {o : TypeId}

theorem get_modify (s : ScopeStore) (i id : ScopeId) :
    (s.modify i f).get id = s.get id ∨ i = id ∧ (s.modify i f).get id = f (s.get id) := by
  unfold modify get
  rw [Array.getElem?_modify]
  split
  · next same =>
    cases found : s.scopes[id.index]? with
    | none => exact .inl rfl
    | some scope => exact .inr ⟨by cases i; cases id; simp_all, rfl⟩
  · exact .inl rfl

theorem owner_modify (keeps : ∀ scope, (f scope).owner = scope.owner) :
    ((s.modify i f).get id).owner = (s.get id).owner := by
  rcases s.get_modify i id with same | ⟨_, changed⟩
  · rw [same]
  · rw [changed, keeps]

@[simp] theorem owner_addSuper : ((s.addSuper i sup).get id).owner = (s.get id).owner :=
  owner_modify fun scope => by split <;> rfl

@[simp] theorem owner_alloc : ((s.alloc kind parent path).2.get id).owner = (s.get id).owner := by
  unfold alloc get
  rw [Array.getElem?_push]
  split
  · next new =>
    rw [new, Array.getElem?_eq_none (Nat.le_refl _)]
    rfl
  · rfl

theorem owner_setOwner (owned : ((s.setOwner i type).get id).owner = some o) :
    (s.get id).owner = some o ∨ o = type := by
  unfold setOwner at owned
  rcases s.get_modify i id with same | ⟨_, changed⟩
  · rw [same] at owned
    exact .inl owned
  · rw [changed] at owned
    exact .inr (Option.some.inj owned).symm

end ScopeStore

namespace Heap

open TypeStore

variable {P : TypeStore → TypeId → Prop} {h h' h'' : Heap} {a b : TypeId}

/-- The tables of a heap are owned by what may be referred to, as far as they were not owned
before. -/
def Owned (P : TypeStore → TypeId → Prop) (h h' : Heap) : Prop :=
  ∀ id o, (h'.scopes.get id).owner = some o → (h.scopes.get id).owner = some o ∨ P h'.types o

theorem Owned.trans [Reference P] (first : h.Owned P h') (second : h'.Owned P h'')
    (kept : Kept h'.types h''.types) : h.Owned P h'' := by
  intro id o owned
  rcases second id o owned with owned | new
  · exact (first id o owned).imp_right (Reference.kept kept)
  · exact .inr new

/-- A step that leaves the containers as they are. -/
structure Extends (P : TypeStore → TypeId → Prop) (h h' : Heap) : Prop where
  additions : Additions P h.types h'.types
  owned : h.Owned P h'

theorem Extends.refl : h.Extends P h := ⟨.refl, fun _ _ owned => .inl owned⟩

theorem Extends.trans [Reference P] (first : h.Extends P h') (second : h'.Extends P h'') :
    h.Extends P h'' :=
  ⟨first.additions.trans second.additions,
    first.owned.trans second.owned second.additions.changes.kept⟩

theorem Extends.changes (step : h.Extends P h') : Changes P h.types h'.types :=
  step.additions.changes

theorem extends_types {types : TypeStore} (additions : Additions P h.types types) :
    h.Extends P { h with types } :=
  ⟨additions, fun _ _ owned => .inl owned⟩

theorem extends_scopes {scopes : ScopeStore}
    (owners : ∀ id, (scopes.get id).owner = (h.scopes.get id).owner) :
    h.Extends P { h with scopes } :=
  ⟨.refl, fun id _ owned => .inl (owners id ▸ owned)⟩

/-- The result of such a step may be referred to. -/
structure Gives (P : TypeStore → TypeId → Prop) (h : Heap) (result : TypeId × Heap) : Prop where
  extension : h.Extends P result.2
  refers : P result.2.types result.1

theorem Gives.additions (gives : h.Gives P result) : Additions P h.types result.2.types :=
  gives.extension.additions

theorem Gives.changes (gives : h.Gives P result) : Changes P h.types result.2.types :=
  gives.additions.changes

theorem Gives.has [Reference P] (gives : h.Gives P result) : result.2.types.Has result.1 :=
  Reference.has gives.refers

/-! ### Values with a table -/

theorem gives_allocWithTable [Reference P] (kind : ScopeKind) (parent : Option ScopeId)
    (path : String) (plain : ∀ table types, make table ≠ .union types)
    (other : ∀ table, make table ≠ .cont) (fits : ∀ table, Fits P h.types (make table)) :
    h.Gives P (h.allocWithTable kind parent path make) := by
  have yields := yields_alloc (plain _) (other _) (fits (h.scopes.alloc kind parent path).1)
  refine ⟨⟨yields.additions, fun id o owned => ?_⟩, yields.refers⟩
  rcases ScopeStore.owner_setOwner owned with owned | rfl
  · exact .inl (ScopeStore.owner_alloc.symm.trans owned)
  · exact .inr yields.refers

@[simp] theorem types_inheritTable (h : Heap) (id base : TypeId) :
    (h.inheritTable id base).types = h.types := by
  unfold inheritTable
  split <;> rfl

theorem extends_inheritTable {h : Heap} {id base : TypeId} :
    h.Extends P (h.inheritTable id base) := by
  unfold inheritTable
  split
  · exact extends_scopes (by simp)
  · exact .refl

theorem Gives.inheritTable [Reference P] (gives : h.Gives P result) {base : TypeId} :
    h.Gives P (result.1, result.2.inheritTable result.1 base) :=
  ⟨gives.extension.trans extends_inheritTable, by simpa using gives.refers⟩

theorem gives_newList [Reference P] (bases : Bases) (strings : List String) (he : P h.types element)
    (hp : ∀ p ∈ positional, P h.types p) :
    h.Gives P (h.newList bases element positional strings) := by
  have fits : ∀ table, Fits P h.types (.list { element, positional, strings, table }) := fun _ =>
    .of_refers (by simp) (by simp) (by simpa [Ty.mentions] using ⟨he, hp⟩)
  exact (gives_allocWithTable .plain none "" (by simp) (by simp) fits).inheritTable

theorem gives_newDict [Reference P] (bases : Bases) (hk : P h.types key) (hv : P h.types value) :
    h.Gives P (h.newDict bases key value) := by
  have fits : ∀ table, Fits P h.types (.dict { key, value, table }) := fun _ =>
    .of_refers (by simp) (by simp) (by simp [Ty.mentions, hk, hv])
  exact (gives_allocWithTable .plain none "" (by simp) (by simp) fits).inheritTable

theorem gives_newTuple [Reference P] (bases : Bases) (refers : ∀ e ∈ elements, P h.types e) :
    h.Gives P (h.newTuple bases elements) := by
  have fits : ∀ table, Fits P h.types (.tuple { elements, table }) := fun _ =>
    .of_refers (by simp) (by simp) refers
  exact (gives_allocWithTable .plain none "" (by simp) (by simp) fits).inheritTable

theorem gives_newModule [Reference P] (h : Heap) (bases : Bases) (name : ModuleName)
    (file : String) (parent : ScopeId) : h.Gives P (h.newModule bases name file parent) := by
  have fits : ∀ table, Fits P h.types
      (.module { name := name.name, file, qualified := name.qualified, table }) := fun _ =>
    .of_refers (by simp) (by simp) (by simp [Ty.mentions])
  exact (gives_allocWithTable .module (some parent) name.qualified (by simp) (by simp)
    fits).inheritTable

theorem gives_newClass [Reference P] (h : Heap) (name path : String) (parent : ScopeId) :
    h.Gives P (h.newClass name path parent) := by
  have fits : ∀ table, Fits P h.types (.classType { name, table }) := fun _ =>
    .of_refers (by simp) (by simp) (by simp [Ty.mentions])
  exact gives_allocWithTable .classBody (some parent) path (by simp) (by simp) fits

theorem gives_newFunctionWith [Reference P] (bases : Bases) (name path : String) (env : ScopeId)
    (unbound : ∀ table, (complete { name, table, env }).origin = none)
    (refers : ∀ table, ∀ m ∈ (complete { name, table, env }).mentions, P h.types m) :
    h.Gives P (h.newFunctionWith bases name path env complete) := by
  have fits : ∀ table, Fits P h.types (.function (complete { name, table, env })) := fun table =>
    .of_refers (by simp) (by rintro _ ⟨⟩; exact unbound table) (refers table)
  exact (gives_allocWithTable .plain none path (by simp) (by simp) fits).inheritTable

theorem gives_newFunction [Reference P] : h.Gives P (h.newFunction bases name path env) :=
  gives_newFunctionWith bases name path env (fun _ => rfl) (by simp [FunctionType.mentions])

/-! ### Values for instances -/

theorem foldl_instances {I : Heap → Prop} (one : ∀ h base, I h → I (instanceWithin n h base).2)
    (linked : ∀ h id base, I h → I (h.inheritTable id base)) (id : TypeId) (bases : List TypeId)
    (start : I h) :
    I (bases.foldl (fun h base =>
      (instanceWithin n h base).2.inheritTable id (instanceWithin n h base).1) h) := by
  induction bases generalizing h with
  | nil => exact start
  | cons base bases ih => exact ih (linked _ _ _ (one h base start))

/-- What making one value and linking tables keep is kept by making all values that are needed. -/
theorem instanceWithin_keeps {I : Heap → Prop}
    (made : ∀ h classId c, I h → h.types.get classId = .classType c → c.instance? = none →
      I (h.makeInstance classId c).2)
    (linked : ∀ h id base, I h → I (h.inheritTable id base)) (n : Nat) (classId : TypeId)
    (start : I h) : I (instanceWithin n h classId).2 := by
  induction n generalizing h classId with
  | zero => exact start
  | succ n ih =>
    unfold instanceWithin
    split
    · exact start
    · next c found =>
      split
      · exact start
      · next none =>
        exact foldl_instances (fun h base => ih base) linked _ _
          (made h classId c start (class?_eq_some.mp found) none)

theorem gives_makeInstance [Reference P] (sound : Sound P h.types)
    (found : h.types.get classId = .classType c) : h.Gives P (h.makeInstance classId c) := by
  have has : h.types.Has classId := has_of_get (by simp [found])
  have own : P h.types classId := Reference.plain has (by simp [isUnion, found]) (by simp [found])
  have fits : ∀ table, Fits P h.types (.instanceOf { classId, table }) := fun _ =>
    .of_refers (by simp) (by simp) (by simpa [Ty.mentions] using own)
  have first := gives_allocWithTable .object none (h.scopes.get c.table).path (by simp) (by simp)
    fits
  unfold makeInstance
  dsimp only
  generalize h.allocWithTable .object none (h.scopes.get c.table).path
    (fun table => .instanceOf { classId, table }) = new at first ⊢
  have second := (first.changes.sound sound).noteInstance (a := classId) first.refers
  have noted : h.Gives P (new.1, { new.2 with types := new.2.types.modifyClass classId fun c =>
      { c with instance? := some new.1 } }) :=
    ⟨first.extension.trans (extends_types second), Reference.kept second.changes.kept first.refers⟩
  exact noted.inheritTable

theorem extends_instanceWithin [Reference P]
    (sound : Sound P h.types) : h.Extends P (instanceWithin n h classId).2 := by
  refine instanceWithin_keeps (I := fun h' => h.Extends P h')
    (fun h' classId c old found _ => ?_) (fun h' id base old => ?_) n classId .refl
  · exact old.trans (gives_makeInstance (old.changes.sound sound) found).extension
  · exact old.trans extends_inheritTable

theorem gives_instanceWithin [Reference P]
    (sound : Sound P h.types) : h.Gives P (instanceWithin n h classId) := by
  refine ⟨extends_instanceWithin sound, ?_⟩
  cases n with
  | zero => exact sound.unknown
  | succ n =>
    unfold instanceWithin
    split
    · exact sound.unknown
    · next c found =>
      split
      · next id cached =>
        exact sound.mention (class?_eq_some.mp found) (by simp [Ty.mentions, cached])
      · dsimp only
        have first := gives_makeInstance sound (class?_eq_some.mp found)
        generalize h.makeInstance classId c = new at first ⊢
        have later := foldl_instances (n := n) (I := fun h' => new.2.Extends P h')
          (fun h' base old => old.trans (extends_instanceWithin
            (old.changes.sound (first.changes.sound sound))))
          (fun h' id base old => old.trans extends_inheritTable) new.1
          (new.2.basesOf c.table) .refl
        exact Reference.kept later.changes.kept first.refers

theorem gives_instanceOf [Reference P] (classId : TypeId) (sound : Sound P h.types) :
    h.Gives P (h.instanceOf classId) :=
  gives_instanceWithin sound

theorem extends_addBase [Reference P] (classId base : TypeId)
    (sound : Sound P h.types) : h.Extends P (h.addBase classId base) := by
  unfold addBase
  split
  · next c b foundClass foundBase =>
    split
    · exact .refl
    · dsimp only
      have found := class?_eq_some.mp foundBase
      have own : P h.types base := Reference.plain (has_of_get (by simp [found]))
        (by simp [isUnion, found]) (by simp [found])
      have noted := sound.noteSuperclass (a := classId) own
      have first : h.Extends P ⟨h.types.modifyClass classId fun c =>
          { c with superclass := c.superclass.or (some base) },
          h.scopes.addSuper c.table b.table⟩ :=
        (extends_types noted).trans (extends_scopes (by simp))
      split
      · exact first
      · have second := gives_instanceOf base (first.changes.sound sound)
        exact first.trans (second.extension.trans extends_inheritTable)
  · exact .refl

/-! ### Functions -/

theorem fits_bound [Reference P] (sound : Sound P h.types) (hr : P h.types receiver)
    (found : h.types.function? (h.types.originOf origin) = some f) :
    Fits P h.types (.function { f with
      arrows := [], origin := some (h.types.originOf origin), receiver := some receiver }) := by
  have found := function?_eq_some.mp found
  refine ⟨?_, by simp, ?_⟩
  · obtain ⟨_, classId, _, others⟩ := sound.function found
    refine FunctionType.forall_mentions.mpr ⟨by simp, classId, ?_, others⟩
    rintro _ ⟨⟩
    exact hr
  · rintro _ o ⟨⟩ origin
    obtain rfl := Option.some.inj origin
    exact ⟨f, found, sound.originOf_unbound found, rfl⟩

theorem extends_bindMethod [Reference P] (sound : Sound P h.types)
    (hr : P h.types receiver) : h.Extends P (h.bindMethod fn receiver).2 := by
  unfold bindMethod
  dsimp only
  split
  · exact .refl
  · next f found => exact extends_types (.single (.alloc (fits_bound sound hr found)))

theorem gives_bindMethod [Reference P] (sound : Sound P h.types) (hf : P h.types fn)
    (hr : P h.types receiver) : h.Gives P (h.bindMethod fn receiver) := by
  refine ⟨extends_bindMethod sound hr, ?_⟩
  unfold bindMethod
  dsimp only
  split
  · exact hf
  · next f found => exact (yields_alloc (by simp) (by simp) (fits_bound sound hr found)).refers

theorem gives_canonicalArguments [Reference P] (bases : Bases) (fn : TypeId)
    (sound : Sound P h.types) (ha : P h.types arguments) :
    h.Gives P (h.canonicalArguments bases fn arguments) := by
  unfold canonicalArguments
  dsimp only
  split
  · next classId d owner found =>
    split
    · next first others elements =>
      have made := gives_instanceOf classId sound
      have kept := made.changes.kept
      split
      · exact ⟨made.extension, Reference.kept kept ha⟩
      · have refers : ∀ e ∈ (h.instanceOf classId).1 :: others,
            P (h.instanceOf classId).2.types e := by
          intro e member
          rcases List.mem_cons.mp member with rfl | member
          · exact made.refers
          · exact Reference.kept kept
              (sound.mention found (by simp [Ty.mentions, elements, member]))
        have new := gives_newTuple bases refers
        exact ⟨made.extension.trans new.extension, new.refers⟩
    · exact ⟨.refl, ha⟩
  · exact ⟨.refl, ha⟩

theorem extends_recordArrow [Reference P]
    (sound : Sound P h.types) (ha : P h.types arguments) (hr : P h.types result) :
    h.Extends P (h.recordArrow bases fn arguments result limits).2 := by
  have made := gives_canonicalArguments bases fn sound ha
  exact made.extension.trans (extends_types ((made.changes.sound sound).insertArrow fn made.refers
    (Reference.kept made.changes.kept hr) limits))

/-! ### Runs -/

/-- One step of a run: a new value, a union or a type without an alternative, a note about a class
or a function, or a container that gets to hold more. -/
inductive Step : Heap → Heap → Prop
  | newList {h : Heap} (bases : Bases) {element : TypeId} {positional : List TypeId}
      (strings : List String) (he : h.types.Has element) (hp : ∀ p ∈ positional, h.types.Has p) :
      Step h (h.newList bases element positional strings).2
  | newDict {h : Heap} (bases : Bases) {key value : TypeId} (hk : h.types.Has key)
      (hv : h.types.Has value) : Step h (h.newDict bases key value).2
  | newTuple {h : Heap} (bases : Bases) {elements : List TypeId}
      (he : ∀ e ∈ elements, h.types.Has e) : Step h (h.newTuple bases elements).2
  | newModule {h : Heap} (bases : Bases) (name : ModuleName) (file : String) (parent : ScopeId) :
      Step h (h.newModule bases name file parent).2
  | newClass {h : Heap} (name path : String) (parent : ScopeId) :
      Step h (h.newClass name path parent).2
  | newFunction {h : Heap} (bases : Bases) (name path : String) (env : ScopeId) :
      Step h (h.newFunction bases name path env).2
  | instanceOf {h : Heap} (classId : TypeId) : Step h (h.instanceOf classId).2
  | addBase {h : Heap} (classId base : TypeId) : Step h (h.addBase classId base)
  | bindMethod {h : Heap} (fn : TypeId) {receiver : TypeId} (hr : h.types.Has receiver) :
      Step h (h.bindMethod fn receiver).2
  | recordArrow {h : Heap} (bases : Bases) (fn : TypeId) {arguments result : TypeId}
      (limits : Limits) (ha : h.types.Has arguments) (hr : h.types.Has result) :
      Step h (h.recordArrow bases fn arguments result limits).2
  | union {h : Heap} {a b : TypeId} (ha : h.types.Has a) (hb : h.types.Has b) :
      Step h { h with types := (h.types.union a b).2 }
  | remove {h : Heap} {a b : TypeId} (ha : h.types.Has a) (hb : h.types.Has b) :
      Step h { h with types := (h.types.remove a b).2 }
  | widenList {h : Heap} (list : TypeId) {value : TypeId} (hv : h.types.Has value) :
      Step h { h with types := h.types.widenList list value }
  | widenEntry {h : Heap} (dict : TypeId) {index value : TypeId} (hi : h.types.Has index)
      (hv : h.types.Has value) : Step h { h with types := h.types.widenEntry dict index value }
  | setItem {h : Heap} (tuple : TypeId) (i : Nat) {value : TypeId} (hv : h.types.Has value) :
      Step h { h with types := h.types.setItem tuple i value }

theorem Step.changes (step : Step h h') (wf : h.types.WellFormed) :
    Changes Has h.types h'.types := by
  cases step with
  | @newList bases element positional strings he hp =>
    exact (gives_newList bases strings he hp).changes
  | newDict bases hk hv => exact (gives_newDict bases hk hv).changes
  | newTuple bases he => exact (gives_newTuple bases he).changes
  | newModule bases name file parent => exact (gives_newModule h bases name file parent).changes
  | newClass name path parent => exact (gives_newClass h name path parent).changes
  | newFunction bases name path env => exact gives_newFunction.changes
  | instanceOf classId => exact (gives_instanceOf classId wf).changes
  | addBase classId base => exact (extends_addBase classId base wf).changes
  | bindMethod fn hr => exact (extends_bindMethod wf hr).changes
  | recordArrow bases fn limits ha hr =>
    exact (extends_recordArrow wf ha hr).changes
  | union ha hb => exact (wf.union ha hb).changes
  | remove ha hb => exact (wf.remove ha).changes
  | widenList list hv => exact wf.widenList hv
  | widenEntry dict hi hv => exact wf.widenEntry hi hv
  | setItem tuple i hv => exact setItem_changes hv

/-- The heaps of all runs, which start with the simple types. -/
def Reachable (h : Heap) : Prop :=
  ∃ scopes, Relation.ReflTransGen Step ⟨.initial, scopes⟩ h

theorem Reachable.step (reachable : h.Reachable) (step : Step h h') : h'.Reachable := by
  obtain ⟨scopes, run⟩ := reachable
  exact ⟨scopes, run.tail step⟩

theorem Reachable.wellFormed (reachable : h.Reachable) : h.types.WellFormed := by
  obtain ⟨scopes, run⟩ := reachable
  induction run with
  | refl => exact initial_sound
  | tail _ step ih => exact (step.changes ih).sound ih

end Heap
end FlowTypes
