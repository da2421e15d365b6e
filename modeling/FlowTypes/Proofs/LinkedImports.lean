import FlowTypes.Proofs.Lexical.Sessions
import FlowTypes.Proofs.NameLookup

/-! Imports of dotted names. Each part that is found is linked to the module before it, and the link stays
whatever is loaded after it: no file takes a name away from the module of another one. -/
namespace FlowTypes

open Analysis

variable {s s' : State}

namespace State

/-! ### The values of files -/

theorem Turn.sameRoles (turn : Turn s s') : s.scopes.SameRoles s'.scopes := by
  rcases turn.names with ⟨table, b, _, rfl⟩ | unnamed
  · exact .define
  · exact unnamed.fewer.toSameRoles

theorem Turn.global (turn : Turn s s') : s'.global = s.global := by
  cases turn with
  | step step => cases step <;> rfl
  | enter | leave | failure | parse | hold | advance | root | taken | finished => rfl

theorem Turn.keeps_module (turn : Turn s s') (valid : s.Valid)
    (isModule : s.heap.IsModule s.global v table) : s'.heap.IsModule s'.global v table := by
  have value : s.Value v := IsModule.value ⟨table, isModule⟩
  have stays := (turn.evolves valid).2.changes.kept.stays value.has
  have has : s.scopes.Has table := ScopeStore.has_of_kind (by simp [State.scopes, isModule.kind])
  obtain ⟨d, path, type, own, role⟩ := isModule
  refine ⟨d, path, stays.module_iff.mpr type, own, ?_⟩
  rw [turn.global]
  exact (turn.sameRoles.role table has).trans role

theorem Turns.keeps_module (turns : Turns s s') (valid : s.Valid)
    (isModule : s.heap.IsModule s.global v table) : s'.heap.IsModule s'.global v table := by
  induction turns with
  | refl => exact isModule
  | tail turns turn ih => exact turn.keeps_module (Turns.evolves turns valid).1 ih

/-- The values of files and packages are modules. -/
def Modular (s : State) : Prop := ∀ v, s.HoldsModule v → s.IsModule v

theorem holds_setStatus (holds : (s.setStatus p status).HoldsModule v) :
    status.value? = some v ∨ s.HoldsModule v := by
  rcases holds with ⟨known, member, found⟩ | member
  · rcases InsertionMap.mem_values_insert member with rfl | member
    · exact .inl found
    · exact .inr (.inl ⟨known, member, found⟩)
  · exact .inr (.inr member)

theorem Turn.holds (turn : Turn s s') (holds : s'.HoldsModule v) :
    s.HoldsModule v ∨ s.IsModule v := by
  cases turn with
  | step step =>
    cases step with
    | package new hv =>
      rcases holds with known | member
      · exact .inl (.inl known)
      · rcases InsertionMap.mem_values_insert member with rfl | member
        · exact .inr hv
        · exact .inl (.inr member)
    | _ => exact .inl holds
  | failure =>
    rcases holds_setStatus holds with none | holds
    · cases none
    · rcases holds_setStatus holds with none | holds
      · cases none
      · exact .inl holds
  | parse =>
    rcases holds_setStatus holds with none | holds
    · cases none
    · exact .inl holds
  | hold p tree hv =>
    rcases holds_setStatus holds with own | holds
    · obtain rfl := Option.some.inj own
      exact .inr hv
    · exact .inl holds
  | advance p stage =>
    rcases holds with ⟨status, member, found⟩ | member
    · rcases InsertionMap.mem_values_modify member with same | ⟨old, known, rfl⟩
      · exact .inl (.inl ⟨status, same, found⟩)
      · refine .inl (.inl ⟨old, known, ?_⟩)
        cases old <;> exact found
    · exact .inl (.inr member)
  | finished =>
    rcases holds with ⟨status, member, found⟩ | member
    · obtain ⟨old, known, rfl⟩ := InsertionMap.mem_values_mapValues member
      exact .inl (.inl ⟨old, known, old.value?_finish ▸ found⟩)
    · exact .inl (.inr member)
  | enter | leave | root | taken => exact .inl holds

theorem Turns.modular (turns : Turns s s') (valid : s.Valid) (modular : s.Modular) :
    s'.Modular := by
  induction turns with
  | refl => exact modular
  | tail turns turn ih =>
    intro v holds
    have isModule : IsModule _ v := (turn.holds holds).elim (ih v) fun isModule => isModule
    obtain ⟨table, isModule⟩ := isModule
    exact ⟨table, turn.keeps_module (Turns.evolves turns valid).1 isModule⟩

/-! ### Names that modules keep -/

/-- The module has a table, which knows the name. -/
def Exports (s : State) (module : TypeId) (name : String) : Prop :=
  ∃ table, s.heap.IsModule s.global module table ∧ (s.scopes.lookupLocal table name).isSome = true

/-- A state in which modules can be imported. -/
structure Importable (s : State) : Prop where
  valid : s.Valid
  lexical : s.Lexical
  modular : s.Modular

/-- Modules stay modules and keep their names. -/
structure KeepsModules (s s' : State) : Prop where
  isModule : ∀ v, s.IsModule v → s'.IsModule v
  exports : ∀ v name, s.Exports v name → s'.Exports v name

theorem KeepsModules.refl : s.KeepsModules s := ⟨fun _ isModule => isModule, fun _ _ exports => exports⟩

theorem KeepsModules.trans (first : s.KeepsModules s') (second : s'.KeepsModules s'') :
    s.KeepsModules s'' :=
  ⟨fun v isModule => second.isModule v (first.isModule v isModule),
    fun v name exports => second.exports v name (first.exports v name exports)⟩

/-- What can be done in every scope keeps all names: the table of a module is the own one of at most one
scope. -/
theorem Importable.run {m : Analysis α} (importable : s.Importable) (walks : Walks m s Q)
    (upholds : ∀ own, Upholds own s m Whatever) (ran : m.run s = .ok (a, s')) :
    s'.Importable ∧ s.KeepsModules s' ∧ Q s' a := by
  obtain ⟨valid, lexical, modular⟩ := importable
  obtain ⟨on, known⟩ := walks valid a s' ran
  have turns := on.walked.turns
  refine ⟨⟨on.valid, (upholds ⟨0⟩ lexical a s' ran).1, turns.modular valid modular⟩, ⟨?_, ?_⟩, known⟩
  · rintro v ⟨table, isModule⟩
    exact ⟨table, turns.keeps_module valid isModule⟩
  · rintro v name ⟨table, isModule, defined⟩
    refine ⟨table, turns.keeps_module valid isModule, ?_⟩
    have persists := (upholds ⟨table.index + 1⟩ lexical a s' ran).2.1
    refine persists.names table name isModule.kind (fun own => ?_) defined
    exact Nat.ne_of_lt (Nat.lt_succ_self _) (congrArg ScopeId.index own)

end State

/-! ### Chains of modules -/

/-- The modules for the parts of a name, up to the first that is not there. Each is known under its name in
the one before. -/
inductive State.Linked (s : State) : Option TypeId → List String → List (Option TypeId) → Prop
  | missing {before : Option TypeId} {parts : List String} :
      Linked s before parts (List.replicate parts.length none)
  | found {before : Option TypeId} {part : String} {parts : List String} {module : TypeId}
      {modules : List (Option TypeId)} (known : ∀ p, before = some p → s.Exports p part)
      (rest : Linked s (some module) parts modules) :
      Linked s before (part :: parts) (some module :: modules)

namespace State.Linked

variable {before : Option TypeId} {parts : List String} {modules : List (Option TypeId)}

theorem length (linked : s.Linked before parts modules) : modules.length = parts.length := by
  induction linked with
  | missing => exact List.length_replicate
  | found _ _ ih => simp [ih]

theorem found_first (linked : s.Linked before parts modules) :
    ∃ found : List TypeId, modules =
      found.map some ++ List.replicate (parts.length - found.length) none := by
  induction linked with
  | missing => exact ⟨[], by simp⟩
  | @found _ _ _ module _ _ _ ih =>
    obtain ⟨found, rfl⟩ := ih
    exact ⟨module :: found, by simp⟩

theorem known (linked : s.Linked before parts modules) (i : Nat)
    (earlier : modules[i]? = some (some a)) (later : modules[i + 1]? = some (some b))
    (named : parts[i + 1]? = some part) : s.Exports a part := by
  induction linked generalizing i with
  | missing => simp [List.getElem?_replicate] at earlier
  | @found _ _ parts module modules _ rest ih =>
    cases i with
    | zero =>
      obtain rfl : module = a := by simpa using earlier
      cases rest with
      | missing => simp [List.getElem?_replicate] at later
      | found known =>
        obtain rfl := by simpa using named
        exact known _ rfl
    | succ i => exact ih i earlier later named

end State.Linked

namespace Walker

theorem exports_linkSubmodule (isModule : s.IsModule package)
    (ran : (linkSubmodule package name module).run s = .ok ((), s')) : s'.Exports package name := by
  obtain ⟨table, isModule⟩ := isModule
  have has : s.scopes.Has table := ScopeStore.has_of_kind (by simp [State.scopes, isModule.kind])
  have found : s.types.tableOf package = some table := isModule.tableOf
  obtain ⟨_, _, ⟨⟩, ran⟩ := Walks.run_bind ran
  simp only [found] at ran
  split at ran
  · next known =>
    cases ran
    exact ⟨table, isModule, known⟩
  · cases ran
    obtain ⟨d, path, type, own, role⟩ := isModule
    refine ⟨table, ⟨d, path, type, own, (ScopeStore.SameRoles.define.role table has).trans role⟩, ?_⟩
    exact Option.isSome_of_eq_some (ScopeStore.lookupLocal_define_self has name _)

variable {files : FileSystem} {limits : Limits} {n : Nat}

theorem run_link (w : Walker) (importable : s.Importable) (isModule : s.IsModule module)
    (before : ∀ p, parent = some p → s.IsModule p)
    (ran : (parent.forM fun p => linkSubmodule p name module).run s = .ok ((), s')) :
    s'.Importable ∧ s.KeepsModules s' ∧ ∀ p, parent = some p → s'.Exports p name := by
  cases parent with
  | none =>
    cases ran
    refine ⟨importable, .refl, ?_⟩
    rintro _ ⟨⟩
  | some p =>
    obtain ⟨importable, kept, _⟩ := importable.run (walks_linkSubmodule isModule.value)
      (fun own => .aside (Upholds.composed w own).linkSubmodule) ran
    refine ⟨importable, kept, ?_⟩
    rintro _ ⟨⟩
    exact exports_linkSubmodule (before p rfl) ran

theorem run_loadChain {parts : List String} (importable : s.Importable)
    (before : ∀ p, parent = some p → s.IsModule p)
    (ran : ((walker files limits n).loadChain dir parent parts).run s = .ok (modules, s')) :
    s'.Importable ∧ s.KeepsModules s' ∧ s'.Linked parent parts modules := by
  induction parts generalizing s dir parent modules with
  | nil =>
    cases ran
    exact ⟨importable, .refl, .missing⟩
  | cons part parts ih =>
    have sound : (walker files limits n).Sound := walker_sound n
    have below (own : ScopeId) : (Upholds.trait (walker files limits n) own).Below own :=
      Upholds.below_walker own
    obtain ⟨found, s₁, asked, ran⟩ := Walks.run_bind ran
    obtain ⟨importable, kept₁, _⟩ := importable.run walks_modulePath?
      (fun own => .aside (below own).modulePath?) asked
    split at ran
    · cases ran
      exact ⟨importable, kept₁, .missing⟩
    obtain ⟨module, s₂, loaded, ran⟩ := Walks.run_bind ran
    obtain ⟨importable, kept₂, finds⟩ := importable.run (walks_loadFound sound)
      (fun own => .aside (below own).loadFound) loaded
    have kept₂ := kept₁.trans kept₂
    split at ran
    · cases ran
      exact ⟨importable, kept₂, .missing⟩
    next module =>
    have isModule : s₂.IsModule module := importable.modular module (finds module rfl)
    obtain ⟨_, s₃, linked, ran⟩ := Walks.run_bind ran
    obtain ⟨importable, kept₃, known⟩ := run_link (walker files limits n) importable
      isModule (fun p there => kept₂.isModule p (before p there)) linked
    obtain ⟨rest, s₄, ran, ⟨⟩⟩ := Walks.run_bind ran
    obtain ⟨importable, kept₄, chain⟩ := ih importable (by
      rintro _ ⟨⟩
      exact kept₃.isModule module isModule) ran
    refine ⟨importable, (kept₂.trans kept₃).trans kept₄, .found (fun p there => ?_) chain⟩
    exact kept₄.exports p part (known p there)

theorem run_resolve (importable : s.Importable)
    (ran : ((walker files limits n).resolve importer name).run s = .ok (modules, s')) :
    s'.Importable ∧ s'.Linked none (ModuleName.parts name) modules := by
  have below (own : ScopeId) : (Upholds.trait (walker files limits n) own).Below own :=
    Upholds.below_walker own
  obtain ⟨_, _, ⟨⟩, ran⟩ := Walks.run_bind ran
  obtain ⟨found, s₁, asked, ran⟩ := Walks.run_bind ran
  obtain ⟨importable, _⟩ := importable.run (Q := Anything)
    (.filterM fun dir _ s₁ on₁ => walks_modulePath?.bind fun _ _ _ _ => .pure trivial)
    (fun own => .aside ((below own).filterM fun dir _ =>
      (below own).bind (below own).modulePath? fun _ => (below own).pure)) asked
  split at ran
  · obtain ⟨importable, _, linked⟩ := run_loadChain importable (by rintro _ ⟨⟩) ran
    exact ⟨importable, linked⟩
  · cases ran
    rw [List.map_const']
    exact ⟨importable, .missing⟩

end Walker

theorem Session.importable (session : Session s) : s.Importable where
  valid := session.called.valid State.initial_valid
  lexical := session.lexical
  modular := session.called.turns.modular State.initial_valid (by
    rintro v (⟨_, ⟨⟩, _⟩ | none)
    exact absurd none List.not_mem_nil)

/-- A dotted name gives one entry for each of its parts. Those that are found come first, and each of them
is known under its name in the module before it, whatever files were walked and imported for it. This is
so after any calls, and also between the statements of a file that is being walked. -/
theorem Session.dotted_imports_linked {s₀ : State} (session : Session s₀) :
    s₀.Importable ∧
    ∀ (files : FileSystem) (limits : Limits) (n : Nat) (s s' : State), s.Importable →
      (∀ scope body flow, (∀ t ∈ body, s.Comes scope t) →
        ((walker files limits n).block scope body).run s = .ok (flow, s') → s'.Importable) ∧
      ∀ importer name modules,
        ((walker files limits n).resolve importer name).run s = .ok (modules, s') →
          s'.Importable ∧ modules.length = (ModuleName.parts name).length ∧
          (∃ found : List TypeId, modules = found.map some ++
            List.replicate ((ModuleName.parts name).length - found.length) none) ∧
          ∀ i earlier later part, modules[i]? = some (some earlier) →
            modules[i + 1]? = some (some later) → (ModuleName.parts name)[i + 1]? = some part →
              s'.Exports earlier part := by
  refine ⟨session.importable, fun files limits n s s' importable => ⟨?_, ?_⟩⟩
  · intro scope body flow comes ran
    obtain ⟨on, _⟩ := (walker_sound n).block scope body importable.valid flow s' ran
    refine ⟨on.valid, ?_, on.walked.turns.modular importable.valid importable.modular⟩
    have upholds : Upholds scope s ((walker files limits n).block scope body) Whatever :=
      (Upholds.below_walker scope).block s (List.forall_mem_map.mpr comes)
    exact (upholds importable.lexical flow s' ran).1
  · intro importer name modules ran
    obtain ⟨importable, linked⟩ := Walker.run_resolve importable ran
    exact ⟨importable, linked.length, linked.found_first, fun i _ _ _ => linked.known i⟩

/-- A package imports a module of it, which imports itself in turn. -/
def importedAgain : FileSystem :=
  ((((MemoryTree.file {} "a.py" "").dir "p").file "__init__.py" "import p.q\nx=p").file "q.py"
    "import p.q\nx=p.q").fileSystem

theorem importedAgain_linked : ∃ s₀ s modules package module, Session s₀ ∧
    ((Walker.of importedAgain {}).resolve (.ofString "/a.py") "p.q.r").run s₀ = .ok (modules, s) ∧
    modules = [some package, some module, none] ∧ s.Exports package "q" := by
  obtain ⟨modules, s, ran, shape⟩ : ∃ modules s,
      ((Call.analyze (.ofString "/a.py")).run (Walker.of importedAgain {}) >>= fun _ =>
        (Walker.of importedAgain {}).resolve (.ofString "/a.py") "p.q.r").run State.initial =
          .ok (modules, s) ∧ modules.map Option.isSome = [true, true, false] :=
    Walks.exists_run (by decide +kernel)
  obtain ⟨answer, s₀, called, ran⟩ := Walks.run_bind ran
  have session : Session s₀ := .call .start called
  obtain ⟨importable, linked⟩ := session.dotted_imports_linked
  obtain ⟨_, _, _, known⟩ := (linked importedAgain {} _ s₀ s importable).2 _ "p.q.r" modules ran
  obtain ⟨package, module, rfl⟩ : ∃ package module, modules = [some package, some module, none] := by
    rcases modules with _ | ⟨_ | a, _ | ⟨_ | b, _ | ⟨_ | c, _ | ⟨d, rest⟩⟩⟩⟩ <;> simp at shape
    exact ⟨a, b, rfl⟩
  exact ⟨s₀, s, _, package, module, session, ran, rfl,
    known 0 package module "q" rfl rfl (by decide +kernel)⟩

end FlowTypes
