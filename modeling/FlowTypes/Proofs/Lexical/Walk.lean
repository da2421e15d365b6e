import FlowTypes.Proofs.Lexical.Steps

/-! The walk comes to a statement in the scope that the statement stands in, and so keeps functions where
their definitions stand. -/
namespace FlowTypes

open Analysis

namespace State

/-- The walk may come to the statement in the scope. -/
def Comes (s : State) (scope : ScopeId) (t : Stmt) : Prop :=
  ∃ o, s.Locates o (.stmt t) ∧ s.Fits scope o

/-- All that the walk may come to in a scope. -/
def setting (s : State) (scope : ScopeId) : Setting where
  expr := s.Mentions
  stmt := s.Comes scope
  parts := .parts
  exprs := by
    rintro t e ⟨o, locates, _⟩ member
    exact locates.exprs member
  blocks := by
    rintro t u ⟨o, locates, fits⟩ member
    exact ⟨o, locates.blocks member, fits⟩

/-- The walk may come to the places in the scope. -/
def Admits (s : State) (scope : ScopeId) (places : List Site) : Prop :=
  ∀ q ∈ places, (s.setting scope).Allows q

theorem Persists.comes {s : State} (persists : s.Persists own s') (comes : s.Comes scope t) :
    s'.Comes scope t := by
  obtain ⟨o, locates, fits⟩ := comes
  exact ⟨o, persists.locates locates, persists.fits fits⟩

theorem Persists.admits {s : State} (persists : s.Persists own s') (admits : s.Admits scope places) :
    s'.Admits scope places := by
  intro q member
  have allows := admits q member
  rcases q with _ | (_ | _) | _ | _ | _ | _
  · trivial
  · exact persists.comes allows
  · exact persists.mentions allows
  · exact persists.mentions allows
  · exact persists.mentions allows
  · exact persists.mentions allows
  · exact persists.comes allows

end State

theorem State.Fits.unique {s : State} (fits : s.Fits a (some k)) (fits' : s.Fits b (some k)) :
    a = b := by
  obtain ⟨c, d, known, found, rfl⟩ := fits
  obtain ⟨c', d', known', found', rfl⟩ := fits'
  obtain rfl := Option.some.inj (known.symm.trans known')
  obtain rfl := Ty.classType.inj (found.symm.trans found')
  rfl

/-- From a state in which functions stand where their definitions do, the activity leads to such states
only. -/
def Upholds {α : Type} (own : ScopeId) (s : State) (m : Analysis α) (Q : α → State → Prop) : Prop :=
  s.Lexical → ∀ a s', m.run s = .ok (a, s') → s'.Lexical ∧ s.Persists own s' ∧ Q a s'

/-- Nothing is said about the result. -/
abbrev Whatever {α : Type} (_ : α) (_ : State) : Prop := True

namespace Upholds

variable {s : State} {α β : Type} {m : Analysis α} {f : α → Analysis β} {Q : α → State → Prop}
  {R : β → State → Prop}

theorem assume (given : s.Lexical → Upholds own s m Q) : Upholds own s m Q :=
  fun lexical => given lexical lexical

theorem pure (known : Q a s) : Upholds own s (Pure.pure a) Q := by
  rintro lexical _ _ ⟨⟩
  exact ⟨lexical, .refl, known⟩

theorem throw : Upholds own s (throw stop : Analysis α) Q := fun _ _ _ ran => nomatch ran

theorem bind (first : Upholds own s m Q)
    (next : ∀ a s', s.Persists own s' → Q a s' → Upholds own s' (f a) R) : Upholds own s (m >>= f) R := by
  intro lexical b s'' ran
  obtain ⟨a, s', ran, ran'⟩ := Walks.run_bind ran
  obtain ⟨lexical', persists, known⟩ := first lexical a s' ran
  obtain ⟨lexical'', persists', known'⟩ := next a s' persists known lexical' b s'' ran'
  exact ⟨lexical'', persists.trans persists', known'⟩

/-- What is done in a scope that is no module yet is done in any other one. -/
theorem inside (outside : (s.scopes.get other).kind ≠ .module) (upholds : Upholds other s m Q) :
    Upholds own s m Q := by
  intro lexical a s' ran
  obtain ⟨lexical', persists, known⟩ := upholds lexical a s' ran
  refine ⟨lexical', { persists with names := fun id name kind _ => ?_ }, known⟩
  refine persists.names id name kind ?_
  rintro rfl
  exact outside kind

theorem inside_new (upholds : Upholds ⟨s.scopes.size⟩ s m Q) : Upholds own s m Q := by
  refine upholds.inside ?_
  rw [ScopeStore.get_size]
  simp [default]

theorem look (next : Upholds own s (k s) Q) : Upholds own s (get >>= k) Q := next

theorem modifyGet {g : State → α × State}
    (step : s.Lexical → (g s).2.Lexical ∧ s.Persists own (g s).2) (known : Q (g s).1 (g s).2) :
    Upholds own s (modifyGet g) Q := by
  intro lexical a s' ran
  have result : g s = (a, s') := Except.ok.inj ran
  rw [result] at step known
  exact ⟨(step lexical).1, (step lexical).2, known⟩

theorem leaves (leaves : s.Leaves own (g s).2) (known : Q (g s).1 (g s).2) :
    Upholds own s (MonadState.modifyGet g) Q :=
  modifyGet (fun lexical => ⟨leaves.lexical lexical, leaves.persists⟩) known

theorem ask {w : Walker} (next : ∀ b, Upholds own s (k b) Q) : Upholds own s (w.ask p answer >>= k) Q := by
  intro lexical a s' ran
  obtain ⟨b, s₁, asked, ran⟩ := Walks.run_bind ran
  unfold Walker.ask at asked
  split at asked
  · cases asked
    exact next _ lexical a s' ran
  · cases asked

theorem forM {xs : List β} (each : ∀ x ∈ xs, ∀ s', s.Persists own s' → Upholds own s' (g x) Whatever) :
    Upholds own s (xs.forM g) Whatever := by
  induction xs generalizing s with
  | nil => exact pure trivial
  | cons x xs ih =>
    refine bind (each x List.mem_cons_self s .refl) fun _ s' persists _ => ?_
    exact ih fun y member s'' persists' =>
      each y (List.mem_cons_of_mem x member) s'' (persists.trans persists')

/-! ### As a trait of the walk -/

abbrev trait (w : Walker) (scope : ScopeId) : Trait :=
  .of (fun _ scope A m => ∀ s : State, s.Admits scope A → Upholds scope s m Whatever) w scope

/-- What leads nowhere may be done everywhere. -/
theorem aside {w : Walker} (holds : (trait w own).holds [] F) : Upholds own s (F w) Whatever :=
  holds s (List.forall_mem_nil _)

theorem debug : Upholds own s (Analysis.debug text) Whatever :=
  leaves ⟨.refl, fun _ => rfl, Nat.le_refl _, rfl, rfl⟩ trivial

theorem onHeap (spares : s.heap.Spares own (g s.heap).2)
    (known : Q (g s.heap).1 { s with heap := (g s.heap).2 }) : Upholds own s (Analysis.onHeap g) Q :=
  leaves ⟨spares, fun _ => rfl, Nat.le_refl _, rfl, rfl⟩ known

theorem bindMethod {f : FunctionType} (found : s.types.get fn = .function f)
    (method : f.classId.isSome = true) : Upholds own s (Analysis.bindMethod fn receiver) Whatever := by
  refine look ?_
  dsimp only
  split
  · exact pure trivial
  · refine bind (Q := Whatever) ?_ fun bound s' _ _ => bind (Q := Whatever) ?_ fun _ _ _ _ => pure trivial
    · exact modifyGet (fun lexical => lexical.bindMethod found method) trivial
    · exact leaves ⟨.refl, fun _ => rfl, Nat.le_refl _, rfl, rfl⟩ trivial

theorem bindTo : Upholds own s (Analysis.bindTo object value) Whatever := by
  refine look ?_
  dsimp only
  have method : ∀ kind, ((s.types.function? value).filter fun f =>
      f.classId.isSome && f.receiver.isNone).map (·.method) = some kind →
      ∃ f, s.types.get value = .function f ∧ f.classId.isSome = true := by
    intro kind found
    obtain ⟨f, found, _⟩ := Option.map_eq_some_iff.mp found
    obtain ⟨found, free⟩ := Option.filter_eq_some_iff.mp found
    exact ⟨f, TypeStore.function?_eq_some.mp found, (Bool.and_eq_true_iff.mp free).1⟩
  split
  · exact pure trivial
  · exact pure trivial
  · next found _ _ =>
    obtain ⟨f, found, known⟩ := method _ found
    exact bindMethod found known
  · next found _ =>
    obtain ⟨f, found, known⟩ := method _ found
    exact bindMethod found known
  · next found _ =>
    obtain ⟨f, found, known⟩ := method _ found
    exact bindMethod found known
  · exact pure trivial

theorem composed (w : Walker) (scope : ScopeId) : (trait w scope).Composed where
  pure := fun _ _ => pure trivial
  throw := fun _ _ => throw
  seq := fun first next s admits => by
    obtain ⟨here, there⟩ := List.forall_mem_append.mp admits
    exact bind (first s here) fun a s' persists _ => next a s' (persists.admits there)
  same := fun same holds s admits => holds s fun q member => admits q ((same q).mp member)
  site := fun plain holds s admits => holds s ((List.forall_mem_singleton.mp admits).parts plain)
  look := fun _ next s admits => look (next s s admits)
  heap := fun spares s _ => onHeap (spares _ s.heap) trivial
  note := fun note s _ => leaves (.of_spares (note.spares s)
    (congrArg Records.modules note.records)) trivial
  debug := fun _ _ => debug
  bindTo := fun _ _ => bindTo

/-! ### Definitions -/

theorem defineValue (locates : s.Locates o d.phrase.treeNode)
    (fits : ∀ k, d.owner o = some k → s.Fits scope (some k))
    (made : ∀ f : FunctionType, f.origin = none → f.receiver = none → f.env = scope →
      f.classId = none → s.Lexical →
      (complete (s.scopes.get scope) f).origin = none ∧
      (complete (s.scopes.get scope) f).receiver = none ∧
      (complete (s.scopes.get scope) f).definition = f.definition ∧
      (complete (s.scopes.get scope) f).defaults = f.defaults ∧
      s.Stands (complete (s.scopes.get scope) f) (d.owner o)) :
    Upholds own s (Analysis.defineValue scope d complete)
      fun fn s' => s'.functions.get? d.node.id = some fn := by
  refine assume fun lexical => look ?_
  split
  · next fn known =>
    obtain ⟨f, found, free, definition, stands⟩ := lexical.known locates known
    have inside : ∀ k, s.Stands f (some k) → scope = f.env := by
      rintro k ⟨member, c, _, given, _⟩
      cases owner : d.owner o with
      | none =>
        rw [owner] at stands
        have lost : none = some c := (stands.symm.trans member).trans given
        cases lost
      | some k' =>
        rw [owner] at stands
        exact (fits k' owner).unique stands.2
    refine bind (Q := fun _ s' => s'.functions = s.functions) ?_ fun _ s' _ same => pure (same ▸ known)
    refine modifyGet (fun lexical => ?_) rfl
    have puts := lexical.retouch (fun f => { f with env := scope }) found free rfl
      (fun none => absurd (none.symm.trans definition) (by simp)) inside fun _ _ fit => fit
    exact ⟨puts.lexical lexical, puts.persists _⟩
  · next new =>
    have fresh := made { name := d.name, table := ⟨s.scopes.size⟩, env := scope, definition := some d }
      rfl rfl rfl rfl lexical
    obtain ⟨free, receiver, definition, defaults, stands⟩ := fresh
    have puts := State.puts_newFunctionWith s.builtins.bases d.name (s.scopes.qualify scope d.name)
      (fun f => complete (s.scopes.get scope) { f with definition := some d })
      (fun d' named => by
        obtain rfl := Option.some.inj (definition.symm.trans named)
        exact ⟨o, locates, stands⟩)
      (fun _ _ i p _ _ => by
        rw [defaults]
        rfl) free receiver
    refine look (bind (Q := fun fn s' => s'.functions = s.functions ∧ ∃ f,
      s'.types.get fn = .function f ∧ f.origin = none ∧ f.definition = some d) ?_ ?_)
    · refine look (modifyGet (fun lexical => ⟨puts.lexical lexical, puts.persists _⟩) ?_)
      exact ⟨rfl, _, puts.put, free, definition⟩
    · rintro fn s' _ ⟨same, f, found, free, definition⟩
      refine bind (Q := fun _ s'' => s''.functions.get? d.node.id = some fn) ?_
        fun _ _ _ known => pure known
      refine modifyGet (fun lexical => ?_) ?_
      · exact lexical.addFunction (same ▸ new) found free definition rfl
      · exact (InsertionMap.get?_insert ..).trans (if_pos rfl)

theorem defineFunction (locates : s.Locates o (.stmt (.function d))) (fits : s.Fits scope o) :
    Upholds own s (Analysis.defineFunction scope d)
      fun fn s' => s'.functions.get? d.node.id = some fn := by
  refine defineValue (d := .function d) (o := o) locates ?_ ?_
  · rintro k rfl
    exact fits
  · intro f free receiver env _ lexical
    refine ⟨free, receiver, rfl, rfl, ?_⟩
    cases o with
    | none => exact if_neg fits.2
    | some k =>
      obtain ⟨c, d', known, found, rfl⟩ := fits
      obtain ⟨d'', found', kind, owner⟩ := lexical.classes known
      obtain rfl := Ty.classType.inj (found.symm.trans found')
      refine ⟨(if_pos kind).trans (owner.trans known.symm), c, d', known, found, env.symm⟩

theorem defineLambda (mentions : s.Mentions (.lambda node parameters body)) :
    Upholds own s (Analysis.defineLambda scope node parameters body)
      fun fn s' => s'.functions.get? node.id = some fn := by
  obtain ⟨o, locates⟩ := mentions.locates
  refine defineValue (d := .lambda node parameters body) (o := o) locates ?_ ?_
  · exact fun k owner => nomatch owner
  · exact fun f free receiver _ member _ => ⟨free, receiver, rfl, rfl, member⟩

theorem setDefaults {d : Definition} (locates : s.Locates o d.phrase.treeNode)
    (known : s.functions.get? d.node.id = some fn) (fit : DefaultsFit d.parameters defaults) :
    Upholds own s (Walker.setDefaults fn defaults) Whatever := by
  refine assume fun lexical => modifyGet (fun _ => ?_) trivial
  obtain ⟨f, found, free, definition, _⟩ := lexical.known locates known
  have puts := lexical.retouch (fun f => { f with defaults }) found free rfl
    (fun none => nomatch none.symm.trans definition) (fun _ _ => rfl) fun d' definition' _ => by
      obtain rfl := Option.some.inj (definition.symm.trans definition')
      exact fit
  exact ⟨puts.lexical lexical, puts.persists _⟩

section

variable {w : Walker} (below : ∀ scope, (trait w scope).Below scope)

include below

theorem default {p : Parameter Expr} (mentions : ∀ e ∈ p.exprs, s.Mentions e) : Upholds own s (do
      discard (w.optional scope p.hint)
      w.optional scope p.fallback) fun type _ => p.fallback = none → type = none := by
  obtain ⟨hint, fallback⟩ := List.forall_mem_append.mp mentions
  have b := below own
  refine bind (b.discard b.optional s (List.forall_mem_map.mpr hint))
    fun _ s₁ persists _ => ?_
  cases given : p.fallback with
  | none => exact pure fun _ => rfl
  | some e =>
    have there := persists.mentions (fallback e (by simp [given]))
    refine bind (b.expr s₁ (List.forall_mem_singleton.mpr there)) ?_
    exact fun _ _ _ _ => pure fun none => nomatch none

theorem defaults (mentions : ∀ e ∈ parameters.flatMap (·.exprs), s.Mentions e) :
    Upholds own s (w.defaults scope parameters) fun defaults _ => DefaultsFit parameters defaults := by
  unfold Walker.defaults
  induction parameters generalizing s with
  | nil => exact pure fun _ _ none => nomatch none
  | cons p parameters ih =>
    rw [List.mapM_cons]
    rw [List.flatMap_cons] at mentions
    refine bind (default below fun e part => mentions e (List.mem_append_left _ part))
      fun type s₁ persists first => ?_
    refine bind (ih fun e part => persists.mentions (mentions e (List.mem_append_right _ part)))
      fun defaults s₂ _ others => pure ?_
    intro i q there free
    cases i with
    | zero =>
      cases there
      exact first free
    | succ i => exact others i q there free

theorem function (comes : s.Comes scope (.function d)) :
    Upholds own s (w.function scope d) Whatever := by
  have b := below own
  obtain ⟨o, locates, fits⟩ := comes
  refine bind (defineFunction locates fits) fun fn s₁ persists known => ?_
  have comes : s₁.Comes scope (.function d) := persists.comes ⟨o, locates, fits⟩
  refine bind (b.evals s₁ (List.forall_mem_map.mpr fun e member => ?_))
    fun _ s₂ persists _ => ?_
  · exact (s₁.setting scope).exprs comes (by simp [Stmt.exprs, member])
  have comes : s₂.Comes scope (.function d) := persists.comes comes
  have known := persists.functions known
  refine bind (defaults below fun e member => ?_) fun defaults s₃ persists fit => ?_
  · exact (s₂.setting scope).exprs comes (by simp [Stmt.exprs, member])
  obtain ⟨o, locates, _⟩ := persists.comes comes
  refine bind (setDefaults (d := .function d) locates (persists.functions known) fit) fun _ _ _ _ => ?_
  refine bind (aside b.functionKind) fun kind _ _ _ => ?_
  refine bind (aside (b.discard b.bindName)) fun _ _ _ _ => ?_
  exact aside b.recordType

theorem lambda (mentions : s.Mentions (.lambda node parameters body)) :
    Upholds own s (w.lambda scope node parameters body) Whatever := by
  refine bind (defineLambda mentions) fun fn s₁ persists known => ?_
  have mentions : s₁.Mentions (.lambda node parameters body) := persists.mentions mentions
  refine bind (defaults below fun e member => ?_) fun defaults s₂ persists fit => ?_
  · exact mentions.parts (by simp [Expr.parts, member])
  obtain ⟨o, locates⟩ := (persists.mentions mentions).locates
  exact bind (setDefaults (d := .lambda node parameters body) locates (persists.functions known) fit)
    fun _ _ _ _ => pure trivial

omit below in
theorem defineClass (w : Walker) :
    Upholds own s (Analysis.defineClass scope d) fun c s' => s'.classes.get? d.node.id = some c := by
  refine look ?_
  split
  · next c known => exact pure known
  · next new =>
    refine look (bind (Q := fun c s' => s'.classes = s.classes ∧ ∃ d', s'.types.get c = .classType d' ∧
      (s'.scopes.get d'.table).kind = .classBody ∧ (s'.scopes.get d'.table).owner = some c) ?_ ?_)
    · refine onHeap s.heap.edits_newClass.spares ⟨rfl, { name := d.name, table := ⟨s.scopes.size⟩ }, ?_⟩
      have table := s.heap.scopes_allocWithTable_new .classBody (some scope)
        (s.scopes.qualify scope d.name) fun table => .classType { name := d.name, table }
      exact ⟨TypeStore.get_alloc_new .., congrArg Scope.kind table, congrArg Scope.owner table⟩
    · rintro c s₁ _ ⟨same, d', found, kind, owner⟩
      refine bind (Q := fun _ s' => s'.classes.get? d.node.id = some c) ?_ fun _ s₂ _ known => ?_
      · refine modifyGet (fun lexical => lexical.addClass (same ▸ new) found kind owner) ?_
        exact (InsertionMap.get?_insert ..).trans (if_pos rfl)
      · refine bind (aside (composed w _).defineClassAttributes) fun _ _ persists _ => ?_
        exact pure (persists.classes known)

theorem classDef (comes : s.Comes scope (.classDef d)) :
    Upholds own s (w.classDef scope d) Whatever := by
  refine bind (defineClass w) fun c s₁ persists known => assume fun lexical => look ?_
  have comes : s₁.Comes scope (.classDef d) := persists.comes comes
  obtain ⟨d', found, kind, _⟩ := lexical.classes known
  have table : s₁.types.tableOf c = some d'.table := by
    unfold TypeStore.tableOf
    rw [found]
    rfl
  dsimp only
  rw [table]
  refine inside (by simp [kind])
    ((below d'.table).classBody s₁ (List.forall_mem_append.mpr ⟨?_, ?_⟩))
  · exact List.forall_mem_map.mpr fun e member => (s₁.setting scope).exprs comes member
  · refine List.forall_mem_map.mpr fun t member => ?_
    obtain ⟨o, locates, _⟩ := comes
    exact ⟨some d.node.id, locates.classDef member, c, d', known, found, rfl⟩

/-! ### Calls -/

omit below in
theorem yieldValue (w : Walker) : Upholds own s (Analysis.yieldValue value) Whatever := by
  refine look ?_
  split
  · exact pure trivial
  · refine bind (aside (composed w _).unionOpt) fun _ s' _ _ => ?_
    exact leaves ⟨.refl, fun _ => rfl, Nat.le_refl _, rfl, rfl⟩ trivial

omit below in
theorem newLocals {f : FunctionType} :
    Upholds own s (Analysis.newLocals f) fun scope s' =>
      scope = ⟨s.scopes.size⟩ ∧ s'.Fits scope none := by
  refine onHeap (.of_scopes .alloc) ⟨rfl, ?_, ?_⟩
  · exact Nat.lt_of_lt_of_eq (Nat.lt_succ_self _) (ScopeStore.size_alloc ..).symm
  · exact fun body => nomatch (congrArg Scope.kind (ScopeStore.get_alloc_new ..)).symm.trans body

theorem bodyWith {f : FunctionType} (locates : s.Locates o d.phrase.treeNode) :
    Upholds own s (w.bodyWith f d types) Whatever := by
  refine inside_new (bind newLocals ?_)
  rintro scope s₁ first ⟨rfl, fits⟩
  have b := below ⟨s.scopes.size⟩
  refine bind (aside b.bindLocals) fun _ s₂ second _ => ?_
  have fits := second.fits fits
  have locates := second.locates (first.locates locates)
  cases d with
  | function d =>
    refine b.before b.block (fun flow => b.returnOfFlow) s₂ ?_
    exact List.forall_mem_map.mpr fun t member => ⟨none, locates.function member, fits⟩
  | lambda node parameters body =>
    have inside := locates.mentions.parts (q := body) (by simp [Expr.parts])
    exact b.expr s₂ (List.forall_mem_singleton.mpr inside)

omit below in
theorem recordArrow (w : Walker) :
    Upholds own s (Analysis.recordArrow fn arguments result name limits) Whatever := by
  refine look (bind (Q := Whatever) ?_ fun arguments s₁ _ _ => ?_)
  · exact onHeap s.heap.edits_canonicalArguments.spares trivial
  refine bind (Q := Whatever) ?_ fun outcome s₂ _ _ => ?_
  · exact modifyGet (fun lexical => lexical.insertArrow) trivial
  · refine bind (aside (composed w _).noteOutcome) fun _ s₃ _ _ => ?_
    split
    · exact debug
    · exact pure trivial

theorem applyAnew {f : FunctionType} (locates : s.Locates o d.phrase.treeNode) :
    Upholds own s (w.applyAnew origin f d arguments types) Whatever := by
  refine bind (Q := Whatever) (bind (Q := Whatever) ?_ fun _ s₁ persists _ =>
    bind (bodyWith below (persists.locates locates)) fun _ s₂ _ _ =>
      bind (Q := Whatever) ?_ fun _ _ _ _ => pure trivial) fun result s₃ _ _ => ?_
  · exact leaves ⟨.refl, fun _ => rfl, Nat.le_refl _, rfl, rfl⟩ trivial
  · exact leaves ⟨.refl, fun _ => rfl, Nat.le_refl _, rfl, rfl⟩ trivial
  · refine bind (aside (below _).resultOfBody) fun _ s₄ _ _ => ?_
    exact bind (recordArrow w) fun _ _ _ _ => pure trivial

theorem applyDefined {f : FunctionType} (locates : s.Locates o d.phrase.treeNode) :
    Upholds own s (w.applyDefined origin f d args) Whatever := by
  have b := below own
  refine bind (Q := Whatever) ?_ fun _ s₁ first _ => ?_
  · exact leaves ⟨.refl, fun _ => rfl, Nat.le_refl _, rfl, rfl⟩ trivial
  refine bind (aside b.parameterTypes) fun types s₂ second _ => ?_
  refine bind (aside b.newTuple) fun arguments s₃ third _ => look ?_
  split
  · exact bind debug fun _ _ _ _ => look (pure trivial)
  · refine look ?_
    split
    · exact pure trivial
    · exact applyAnew below (third.locates (second.locates (first.locates locates)))

theorem apply : Upholds own s (w.apply fn args span) Whatever := by
  refine assume fun lexical => look ?_
  split
  · exact pure trivial
  · next f found =>
    split
    · exact aside (below _).native
    · next d _ definition =>
      obtain ⟨o, locates, _⟩ := lexical.defined (TypeStore.function?_eq_some.mp found) definition
      exact applyDefined below locates
    · exact pure trivial

theorem hereditary (scope : ScopeId) : (trait w scope).Hereditary scope where
  toBelow := below scope
  yieldValue := fun _ _ => yieldValue w
  apply := fun _ _ => apply below
  function := fun _ admits => function below (admits _ List.mem_cons_self)
  lambda := fun _ admits => lambda below (admits _ List.mem_cons_self)
  classDef := fun _ admits => classDef below (admits _ List.mem_cons_self)

end
end Upholds
end FlowTypes
