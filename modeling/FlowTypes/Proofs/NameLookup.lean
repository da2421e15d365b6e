import FlowTypes.Proofs.NameBinding

/-! Names that are read. A scope that is no class and no object finds the same names whatever the
tables of classes hold, and a name that was just introduced is found with the bindings it got. -/
namespace FlowTypes

namespace ScopeStore

variable {s s' : ScopeStore} {id table target : ScopeId} {name : String} {ids : List BindingId}

/-! ### Scopes around scopes -/

/-- A scope is made after the scope around it. -/
def ParentsFirst (s : ScopeStore) : Prop :=
  ∀ i < s.size, ∀ parent ∈ (s.get ⟨i⟩).parent, parent.index < i

instance (s : ScopeStore) : Decidable s.ParentsFirst :=
  inferInstanceAs (Decidable (∀ i < s.size, ∀ parent ∈ (s.get ⟨i⟩).parent, parent.index < i))

/-- The way outward is not longer than the number of scopes that were made before. -/
theorem ParentsFirst.chain_eq (first : s.ParentsFirst) (inside : s.Has id) (enough : id.index < n)
    (enough' : id.index < m) : s.chain n (some id) = s.chain m (some id) := by
  induction n generalizing m id with
  | zero => exact absurd enough (Nat.not_lt_zero _)
  | succ n ih =>
    obtain ⟨m, rfl⟩ : ∃ k, m = k + 1 := ⟨m - 1, by omega⟩
    simp only [chain]
    cases parent : (s.get id).parent with
    | none => cases n <;> cases m <;> rfl
    | some around =>
      have before := first id.index inside around parent
      rw [ih (m := m) (Nat.lt_trans before inside) (by omega) (by omega)]

theorem ParentsFirst.enclosing_some (first : s.ParentsFirst) (inside : s.Has id) :
    s.enclosing (some id) = id :: s.enclosing (s.get id).parent := by
  obtain ⟨n, count⟩ : ∃ n, s.size = n + 1 :=
    ⟨s.size - 1, (Nat.sub_add_cancel (Nat.lt_of_le_of_lt (Nat.zero_le _) inside)).symm⟩
  have below : id.index < n + 1 := count ▸ inside
  simp only [enclosing, count, chain]
  cases parent : (s.get id).parent with
  | none => cases n <;> rfl
  | some around =>
    have before := first id.index inside around parent
    rw [first.chain_eq (m := n + 1) (Nat.lt_trans before inside) (by omega) (by omega)]

theorem get_define (s : ScopeStore) :
    ∃ entries, (s.define table name ids).get id = { s.get id with table := entries } ∧
      (id ≠ table → entries = (s.get id).table) := by
  by_cases own : id = table
  · rcases s.get_modify table id with same | ⟨_, changed⟩
    · exact ⟨_, same, fun _ => rfl⟩
    · exact ⟨_, changed, fun other => absurd own other⟩
  · exact ⟨_, get_modify_of_ne own, fun _ => rfl⟩

/-- Scopes that stand in each other in the same way and declare the same names. -/
structure SameLayout (s s' : ScopeStore) : Prop where
  size : s'.size = s.size
  kinds : ∀ id, (s'.get id).kind = (s.get id).kind
  parents : ∀ id, (s'.get id).parent = (s.get id).parent
  globals : ∀ id, (s'.get id).globals = (s.get id).globals
  nonlocals : ∀ id, (s'.get id).nonlocals = (s.get id).nonlocals

namespace SameLayout

theorem of_tables (size : s'.size = s.size)
    (scopes : ∀ id, ∃ table, s'.get id = { s.get id with table }) : s.SameLayout s' := by
  choose table same using scopes
  constructor <;> simp [size, same]

theorem chain (same : s.SameLayout s') : s'.chain n start = s.chain n start := by
  induction n generalizing start with
  | zero => cases start <;> rfl
  | succ n ih =>
    cases start with
    | none => rfl
    | some id => simp only [ScopeStore.chain, same.parents, ih]

theorem enclosing (same : s.SameLayout s') : s'.enclosing start = s.enclosing start := by
  rw [ScopeStore.enclosing, ScopeStore.enclosing, same.size, same.chain]

theorem moduleOf (same : s.SameLayout s') : s'.moduleOf id = s.moduleOf id := by
  simp only [ScopeStore.moduleOf, closest, same.enclosing, same.kinds]

theorem isGlobal (same : s.SameLayout s') :
    (s'.get id).isGlobal name = (s.get id).isGlobal name := by
  rw [Scope.isGlobal, Scope.isGlobal, same.globals]

theorem isNonlocal (same : s.SameLayout s') :
    (s'.get id).isNonlocal name = (s.get id).isNonlocal name := by
  rw [Scope.isNonlocal, Scope.isNonlocal, same.nonlocals]

theorem define (s : ScopeStore) (table : ScopeId) (name : String) (ids : List BindingId) :
    s.SameLayout (s.define table name ids) :=
  .of_tables s.size_modify fun _ =>
    s.get_define.imp fun _ kept => kept.1

end SameLayout

/-! ### Classes are not seen from inside -/

/-- Scopes that differ in the tables of classes at most. -/
structure SameButClasses (s s' : ScopeStore) : Prop where
  size : s'.size = s.size
  scopes : ∀ id, ∃ table, s'.get id = { s.get id with table } ∧
    ((s.get id).kind ≠ .classBody → table = (s.get id).table)

namespace SameButClasses

theorem define (body : (s.get table).kind = .classBody) (name : String) (ids : List BindingId) :
    s.SameButClasses (s.define table name ids) where
  size := s.size_modify
  scopes := fun id => by
    obtain ⟨entries, eq, kept⟩ := s.get_define
    refine ⟨entries, eq, fun other => kept ?_⟩
    rintro rfl
    exact other body

theorem layout (same : s.SameButClasses s') : s.SameLayout s' :=
  .of_tables same.size fun id => (same.scopes id).imp fun _ kept => kept.1

theorem table_eq (same : s.SameButClasses s') (other : (s.get id).kind ≠ .classBody) :
    (s'.get id).table = (s.get id).table := by
  obtain ⟨table, eq, kept⟩ := same.scopes id
  rw [eq, kept other]

theorem lookupLocal (same : s.SameButClasses s') (other : (s.get id).kind ≠ .classBody) :
    s'.lookupLocal id name = s.lookupLocal id name := by
  rw [ScopeStore.lookupLocal, ScopeStore.lookupLocal, same.table_eq other]

theorem functionDefining (same : s.SameButClasses s') {name : String} {ids : List ScopeId} :
    s'.functionDefining name ids = s.functionDefining name ids := by
  induction ids with
  | nil => rfl
  | cons id ids ih =>
    simp only [ScopeStore.functionDefining, same.layout.kinds, ih]
    by_cases function : (s.get id).kind = .function
    · rw [same.table_eq (by simp [function])]
    · simp [function]

theorem declaredTarget (same : s.SameButClasses s') {id : ScopeId} {name : String} :
    s'.declaredTarget id name = s.declaredTarget id name := by
  simp only [ScopeStore.declaredTarget, same.layout.isGlobal, same.layout.isNonlocal,
    same.layout.moduleOf, same.layout.parents, same.layout.enclosing, same.functionDefining]

end SameButClasses

theorem kind_of_functionDefining {scopes : List ScopeId}
    (found : s.functionDefining name scopes = some target) :
    (s.get target).kind = .function ∧ ∃ ids, s.lookupLocal target name = some ids := by
  induction scopes with
  | nil => cases found
  | cons id scopes ih =>
    simp only [functionDefining] at found
    split at found
    · next defines =>
      obtain rfl : id = target := Option.some.inj found
      simp only [Bool.and_eq_true, decide_eq_true_eq] at defines
      exact ⟨defines.1, Option.isSome_iff_exists.mp defines.2⟩
    · split at found
      · cases found
      · exact ih found

theorem kind_of_moduleOf (found : s.moduleOf id = some target) : (s.get target).kind = .module := by
  simpa using List.find?_some found

theorem kind_of_declaredTarget (sent : s.declaredTarget id name = some target) :
    (s.get target).kind = .module ∨ (s.get target).kind = .function := by
  simp only [declaredTarget] at sent
  split at sent
  · obtain ⟨found, _⟩ := Option.filter_eq_some_iff.mp sent
    exact .inl (kind_of_moduleOf found)
  · split at sent
    · exact .inr (kind_of_functionDefining sent).1
    · cases sent

/-- What a scope that is no class and no object finds under a name does not depend on the tables of
classes, whatever is declared and however scopes stand in each other. The search for it goes outward
to the end. -/
theorem lookup_eq_of_sameButClasses (first : s.ParentsFirst) (same : s.SameButClasses s')
    (noClass : (s.get id).kind ≠ .classBody) (noObject : (s.get id).kind ≠ .object) (name : String) :
    s'.lookup id name = s.lookup id name ∧
      ∀ scope, s.Has scope →
        s.enclosing (some scope) = scope :: s.enclosing (s.get scope).parent ∧
          s'.enclosing (some scope) = scope :: s'.enclosing (s'.get scope).parent := by
  constructor
  · have declared : (s'.declaredTarget id name).bind (s'.lookupLocal · name) =
        (s.declaredTarget id name).bind (s.lookupLocal · name) := by
      rw [same.declaredTarget]
      cases sent : s.declaredTarget id name with
      | none => rfl
      | some target =>
        have other : (s.get target).kind ≠ .classBody := by
          rcases kind_of_declaredTarget sent with kind | kind <;> simp [kind]
        exact same.lookupLocal other
    have outer : (fun i => if (s.get i).kind = .classBody then none else s'.lookupLocal i name) =
        fun i => if (s.get i).kind = .classBody then none else s.lookupLocal i name := by
      funext i
      split
      · rfl
      · next other => exact same.lookupLocal other
    simp only [lookup, declared, same.lookupLocal noClass, same.layout.kinds, same.layout.parents,
      same.layout.enclosing, outer, noClass, noObject, decide_false, Bool.or_self,
      Bool.false_eq_true, if_false]
  · intro scope inside
    rw [same.layout.enclosing, same.layout.enclosing, same.layout.parents]
    exact ⟨first.enclosing_some inside, first.enclosing_some inside⟩

/-- A function in a class in a module that has a name of the same form. -/
def methodInClass : ScopeStore := ⟨#[
  { kind := .module, path := ".m", parent := none, table := ⟨[("x", [⟨0⟩])]⟩ },
  { kind := .classBody, path := ".m.C", parent := some ⟨0⟩ },
  { kind := .function, path := ".m.C.f", parent := some ⟨1⟩ }]⟩

theorem methodInClass_overlooks_class :
    (methodInClass.define ⟨1⟩ "x" [⟨1⟩]).lookup ⟨2⟩ "x" = some [⟨0⟩] := by
  have body : (methodInClass.get ⟨1⟩).kind = .classBody := by decide
  have noClass : (methodInClass.get ⟨2⟩).kind ≠ .classBody := by decide
  have same := (lookup_eq_of_sameButClasses (by decide) (.define body "x" [⟨1⟩]) noClass (by decide)
    "x").1
  rw [same]
  decide

/-! ### What was just introduced -/

theorem lookupLocal_outside (outside : ¬ s.Has table) : s.lookupLocal table name = none := by
  rw [lookupLocal, get_of_le (Nat.le_of_not_lt outside)]
  rfl

theorem lookupLocal_define :
    (s.define table name ids).lookupLocal table' name' =
      if s.Has table ∧ table' = table ∧ name' = name then some ids
      else s.lookupLocal table' name' := by
  rw [define]
  by_cases own : table' = table
  · subst own
    by_cases inside : s.Has table'
    · rw [lookupLocal, get_modify_self inside, InsertionMap.get?_insert]
      simp [inside, lookupLocal]
    · have outside : ¬ (s.modify table' fun scope =>
          { scope with table := scope.table.insert name ids }).Has table' := by
        simpa [Has] using inside
      rw [lookupLocal_outside outside, lookupLocal_outside inside]
      simp [inside]
  · rw [lookupLocal, get_modify_of_ne own]
    simp [own, lookupLocal]

theorem lookupLocal_define_self (inside : s.Has table) (name : String) (ids : List BindingId) :
    (s.define table name ids).lookupLocal table name = some ids := by
  simp [lookupLocal_define, inside]

/-- A function that did not define the name before can only be the one that does so now. -/
theorem functionDefining_define {scopes : List ScopeId}
    (none_before : s.functionDefining name scopes = none) :
    (s.define table name ids).functionDefining name scopes = none ∨
      (s.define table name ids).functionDefining name scopes = some table := by
  induction scopes with
  | nil => exact .inl rfl
  | cons id scopes ih =>
    simp only [functionDefining, (SameLayout.define s table name ids).kinds] at none_before ⊢
    by_cases own : id = table
    · subst own
      split
      · exact .inr rfl
      · split at none_before
        · cases none_before
        · split
          · exact .inl rfl
          · next other =>
            rw [if_neg other] at none_before
            exact ih none_before
    · obtain ⟨_, eq, kept⟩ := s.get_define
      rw [eq, kept own]
      split at none_before
      · cases none_before
      · next undefined =>
        rw [if_neg undefined]
        split
        · exact .inl rfl
        · next other =>
          rw [if_neg other] at none_before
          exact ih none_before

theorem has_of_declaredTarget (sent : s.declaredTarget id name = some target) : s.Has target := by
  apply has_of_kind
  rcases kind_of_declaredTarget sent with kind | kind <;> simp [kind]

/-- A name that the target of a declaration does not know goes to a module. The declaration sends it
there as well once it is known. -/
theorem declaredTarget_define_of_sent (sent : s.declaredTarget id name = some target)
    (new : s.lookupLocal target name = none) :
    (s.define target name ids).declaredTarget id name = some target := by
  have same := SameLayout.define s target name ids
  simp only [declaredTarget, same.isGlobal, same.moduleOf] at sent ⊢
  split at sent
  · next declared => rw [if_pos declared, sent]
  · split at sent
    · obtain ⟨_, _, known⟩ := kind_of_functionDefining sent
      rw [new] at known
      cases known
    · cases sent

/-- A scope that keeps a name to itself does so when the name has become known there. -/
theorem declaredTarget_define_of_unsent (unsent : s.declaredTarget id name = none) :
    (s.define id name ids).declaredTarget id name = none ∨
      (s.define id name ids).declaredTarget id name = some id := by
  have same := SameLayout.define s id name ids
  simp only [declaredTarget, same.isGlobal, same.isNonlocal, same.moduleOf, same.parents,
    same.enclosing] at unsent ⊢
  split at unsent
  · next declared => exact .inl (by rw [if_pos declared, unsent])
  · next free =>
    rw [if_neg free]
    split at unsent
    · next declared =>
      rw [if_pos declared]
      exact functionDefining_define unsent
    · next free =>
      rw [if_neg free]
      exact .inl rfl

theorem lookup_of_declared (sent : s.declaredTarget id name = some target)
    (known : s.lookupLocal target name = some ids) : s.lookup id name = some ids := by
  simp [lookup, sent, known]

theorem lookup_of_own (unsent : s.declaredTarget id name = none)
    (known : s.lookupLocal id name = some ids) : s.lookup id name = some ids := by
  simp [lookup, unsent, known]

end ScopeStore

/-- Reads see the last write: in a scope of any kind and with any declarations, a name can be
introduced, and right after it the scope finds the bindings that it was introduced with. -/
theorem State.lookup_after_bindName (s : State) {scope : ScopeId} (inside : s.scopes.Has scope)
    (name : String) (node : NodeRef) (type : TypeId) (kind : BindingKind) :
    ∃ bindings s', (Analysis.bindName scope name node type kind).run s = .ok (bindings, s') ∧
      s'.scopes.lookup scope name = some bindings := by
  refine ⟨(s.bindName scope name node type kind).1, (s.bindName scope name node type kind).2,
    Analysis.run_bindName, ?_⟩
  cases sent : s.scopes.declaredTarget scope name with
  | some target =>
    have table : s.bindingTable scope name = target := by simp [bindingTable, sent]
    cases known : s.scopes.lookupLocal target name with
    | some ids =>
      obtain ⟨eq, same⟩ := bindName_known (table ▸ known)
      rw [eq, same]
      exact ScopeStore.lookup_of_declared sent known
    | none =>
      obtain ⟨eq, same⟩ := bindName_new (table ▸ known)
      rw [eq, same, table]
      exact ScopeStore.lookup_of_declared (ScopeStore.declaredTarget_define_of_sent sent known)
        (ScopeStore.lookupLocal_define_self (ScopeStore.has_of_declaredTarget sent) name _)
  | none =>
    have table : s.bindingTable scope name = scope := by simp [bindingTable, sent]
    cases known : s.scopes.lookupLocal scope name with
    | some ids =>
      have there : s.scopes.lookupLocal (s.bindingTable scope name) name = some ids := by
        rw [table, known]
      obtain ⟨eq, same⟩ := bindName_known there
      rw [eq, same]
      exact ScopeStore.lookup_of_own sent known
    | none =>
      have missing : s.scopes.lookupLocal (s.bindingTable scope name) name = none := by
        rw [table, known]
      obtain ⟨eq, same⟩ := bindName_new missing
      rw [eq, same, table]
      have own := ScopeStore.lookupLocal_define_self inside name [⟨s.bindings.size⟩]
      rcases ScopeStore.declaredTarget_define_of_unsent sent with unsent | here
      · exact ScopeStore.lookup_of_own unsent own
      · exact ScopeStore.lookup_of_declared here own

namespace State

variable {s : State}

theorem typeOf_refer : (s.refer ids node).bindings.typeOf i = s.bindings.typeOf i := by
  refine foldl_keeps (R := fun b : BindingStore => b.typeOf i = s.bindings.typeOf i) ?_ ids rfl
  intro b j kept
  rw [← kept, BindingStore.typeOf, BindingStore.get?_modify]
  split
  · simp [BindingStore.typeOf, Function.comp_def]
  · rfl

/-- The table knows the name by a binding. It is new and has the type of what is assigned, or it was there
and its type is united with that type. -/
structure Assigned (s s' : State) (table : ScopeId) (name : String) (type : TypeId) (id : BindingId) :
    Prop where
  known : s'.scopes.lookupLocal table name = some [id]
  binding : (s.scopes.lookupLocal table name = none ∧ id = ⟨s.bindings.size⟩ ∧
      s'.bindings.typeOf id = type ∧ s'.types = s.types) ∨
    (s.scopes.lookupLocal table name = some [id] ∧
      s.types.union (s.bindings.typeOf id) type = (s'.bindings.typeOf id, s'.types))
  recorded : s'.nodeTypes = s.nodeTypes
  others : ∀ t, t ≠ table → s'.scopes.get t = s.scopes.get t
  supers : ∀ t, (s'.scopes.get t).supers = (s.scopes.get t).supers

theorem assigned_bindName (node : NodeRef) (type : TypeId) (kind : BindingKind)
    (inStep : InStep s.scopes s.bindings) (own : s.bindingTable scope name = table)
    (has : s.scopes.Has table) :
    ∃ id, s.Assigned (s.bindName scope name node type kind).2 table name type id := by
  subst own
  let table := s.bindingTable scope name
  let defined := ((s.arrive table name).defineIn table name node type kind).2
  let s' := (s.bindName scope name node type kind).2
  have after (i : BindingId) : s'.bindings.typeOf i = defined.bindings.typeOf i ∧
      s'.types = defined.types ∧ s'.nodeTypes = defined.nodeTypes :=
    foldl_keeps (R := fun s' : State => s'.bindings.typeOf i = _ ∧ s'.types = _ ∧ s'.nodeTypes = _)
      (fun _ _ kept => ⟨typeOf_refer.trans kept.1, kept.2⟩) _ ⟨rfl, rfl, rfl⟩
  cases known : s.scopes.lookupLocal table name with
  | none =>
    have scopes : s'.scopes = s.scopes.define table name [⟨s.bindings.size⟩] := (bindName_new known).2
    obtain ⟨typeOf, types, recorded⟩ := after ⟨s.bindings.size⟩
    have new : defined = _ :=
      congrArg Prod.snd (defineIn_new (s := s.arrive table name) known node type kind)
    rw [new] at typeOf types recorded
    refine ⟨⟨s.bindings.size⟩, ?_, .inl ⟨known, rfl, ?_, types⟩, recorded, fun t other => ?_,
      fun t => ?_⟩
    · rw [scopes, ScopeStore.lookupLocal_define_self has]
    · exact typeOf.trans
        (congrArg (fun b => (b.map Binding.type).getD .unknown) s.bindings.get?_create_new)
    · rw [scopes, ScopeStore.define, ScopeStore.get_modify_of_ne other]
    · rw [scopes, ScopeStore.define]
      rcases s.scopes.get_modify table t with same | ⟨_, changed⟩
      · rw [same]
      · rw [changed]
  | some ids =>
    obtain ⟨i, b, rfl, found, _⟩ := inStep.single table name ids (InsertionMap.mem_of_lookup known)
    have scopes : s'.scopes = s.scopes := (bindName_known known).2
    obtain ⟨typeOf, types, recorded⟩ := after i
    have old : defined = _ :=
      congrArg Prod.snd (defineIn_known (s := s.arrive table name) known node type kind)
    rw [old] at typeOf types recorded
    refine ⟨i, ?_, .inr ⟨known, Prod.ext (typeOf.trans ?_).symm types.symm⟩, recorded, fun _ _ => ?_,
      fun _ => ?_⟩
    · rw [scopes, known]
    · have widened : ((s.arrive table name).widen node type i).bindings.get? i =
          some ({ b with type := (s.types.union (s.bindings.typeOf i) type).1 }.refer node) := by
        rw [widen, BindingStore.get?_modify, if_pos rfl, State.arrive, found]
        rfl
      exact (congrArg (fun b => (b.map Binding.type).getD .unknown) widened).trans
        (Binding.type_refer _)
    · rw [scopes]
    · rw [scopes]

end State

/-- A function in a function in a module. The innermost one declares the names of the others. -/
def nestedDeclarations : State := { State.initial with heap.scopes := ⟨#[
  { kind := .module, path := ".m", parent := none },
  { kind := .function, path := ".m.f", parent := some ⟨0⟩, table := ⟨[("y", [⟨0⟩])]⟩ },
  { kind := .function, path := ".m.f.g", parent := some ⟨1⟩, globals := ["x"],
    nonlocals := ["x", "y"] }]⟩ }

theorem nestedDeclarations_read_last_write : nestedDeclarations.scopes.Has ⟨2⟩ ∧
    ∀ name ∈ ["x", "y", "z"], ∃ bindings s',
      (Analysis.bindName ⟨2⟩ name ⟨7, name, .null⟩ .str .localVariable).run nestedDeclarations =
        .ok (bindings, s') ∧ s'.scopes.lookup ⟨2⟩ name = some bindings :=
  ⟨by decide, fun name _ => nestedDeclarations.lookup_after_bindName (by decide) name _ _ _⟩

end FlowTypes
