import FlowTypes.Proofs.FileLifeCycle
import Mathlib.Logic.Relation

/-! The names that a session makes known. Every state of a session is reached in turns, and a binding
that a table leads to was introduced there in one of them: what it is now continues what it was
then. -/
namespace FlowTypes

open Analysis

variable {s s' s'' : State}

namespace State

/-- A binding is made and becomes known in a table under its name. -/
def introduce (s : State) (table : ScopeId) (b : Binding) : State := { s with
  bindings := (s.bindings.create b).2
  heap.scopes := s.scopes.define table b.name [(s.bindings.create b).1] }

/-- A binding as it may be introduced. -/
structure Introduces (s : State) (table : ScopeId) (b : Binding) : Prop where
  value : s.Value b.type
  plain : b.isBuiltin = false
  unused : b.refs = []
  qualified : b.qualified = s.heap.qualified table b.name b.type

theorem qualified_introduce :
    (s.introduce table b).heap.qualified table' name type = s.heap.qualified table' name type := by
  have path := s.scopes.qualify_define table b.name [(s.bindings.create b).1] table' name
  simp only [introduce, Heap.qualified, path]
  rfl

/-! ### Turns -/

/-- One change of a state in a session, be it in the midst of a walk. -/
inductive Turn : State → State → Prop
  | step {s s' : State} (step : Step s s') : Turn s s'
  | enter {s : State} {fn : TypeId} (new : ∀ frame ∈ s.frames, frame.function ≠ fn) :
      Turn s (s.enter fn)
  | leave {s : State} : Turn s s.leave
  | failure {s : State} {p : Path} (record : LogRecord) (new : s.status? p = none) :
      Turn s { (s.setStatus p .unparsed).fail p with journal := record :: s.journal }
  | parse {s : State} {p : Path} (next : NodeId) (new : s.status? p = none) :
      Turn s { s.setStatus p .unparsed with nextNode := next }
  | hold {s : State} (p : Path) {value : TypeId} (tree : Module) (hv : s.IsModule value) :
      Turn s (s.setStatus p (.loaded .parsed value tree))
  | advance {s : State} (p : Path) (stage : Stage) : Turn s (s.advance p stage)
  | root {s : State} (root : Option Path) : Turn s { s with root }
  | taken {s : State} {fn : TypeId} {rest : List TypeId} (first : s.uncalled = fn :: rest) :
      Turn s { s with uncalled := rest }
  | finished {s : State} (done : s.uncalled = []) : Turn s s.finish

abbrev Turns : State → State → Prop := Relation.ReflTransGen Turn

theorem Walked.turns (walked : Walked s s') : Turns s s' := by
  induction walked with
  | refl => exact .refl
  | step step => exact .single (.step step)
  | trans _ _ ih ih' => exact ih.trans ih'
  | application new _ ih => exact .head (.enter new) (ih.tail .leave)
  | failure record new => exact .single (.failure record new)
  | @load s s₁ s₂ s₃ p value tree next new _ _ hv _ _ _ ih ih₁ ih₂ =>
    have parsed := Relation.ReflTransGen.head (.parse next new) (ih.tail (.hold p tree hv))
    exact (parsed.trans (ih₁.tail (.advance p .bound))).trans (ih₂.tail (.advance p .inferred))

theorem Called.turns (called : Called s s') : Turns s s' := by
  induction called with
  | walked walked => exact walked.turns
  | trans _ _ ih ih' => exact ih.trans ih'
  | root root => exact .single (.root root)
  | taken first => exact .single (.taken first)
  | finished done => exact .single (.finished done)

theorem Turn.evolves (turn : Turn s s') (valid : s.Valid) : s'.Valid ∧ s.heap.Evolves s'.heap := by
  cases turn with
  | step step => exact ⟨step.valid valid, step.evolves valid⟩
  | enter new => exact ⟨valid.enter, .refl _⟩
  | leave => exact ⟨valid.leave, .refl _⟩
  | failure record new => exact (Walked.failure record new).evolves valid
  | @parse p next new => exact ⟨{ valid.setStatus p unparsed_valid with }, .refl _⟩
  | hold p tree hv => exact ⟨valid.setStatus p (by rintro _ ⟨⟩; exact hv.value), .refl _⟩
  | advance p stage => exact ⟨valid.advance p stage, .refl _⟩
  | root root => exact ⟨(Called.root root).valid valid, .refl _⟩
  | taken first => exact ⟨(Called.taken first).valid valid, .refl _⟩
  | finished done => exact ⟨(Called.finished done).valid valid, .refl _⟩

theorem Turns.evolves (turns : Turns s s') (valid : s.Valid) :
    s'.Valid ∧ s.heap.Evolves s'.heap := by
  induction turns with
  | refl => exact ⟨valid, .refl _⟩
  | tail _ turn ih =>
    obtain ⟨valid, evolves⟩ := ih
    obtain ⟨valid, evolves'⟩ := turn.evolves valid
    exact ⟨valid, evolves.trans evolves'⟩

/-! ### What a turn does to names -/

/-- A change of a state in which no name becomes known. -/
structure Unnamed (s s' : State) : Prop where
  fewer : s.scopes.NoNewNames s'.scopes
  keeps : s.bindings.Keeps s'.bindings
  inStep : InStep s.scopes s.bindings → InStep s'.scopes s'.bindings

theorem Unnamed.of_scopes (fewer : s.scopes.NoNewNames s'.scopes)
    (bindings : s'.bindings = s.bindings) : Unnamed s s' where
  fewer := fewer
  keeps := by
    rw [bindings]
    exact .refl _
  inStep := fun inStep => by
    rw [bindings]
    exact inStep.noNewNames fewer

theorem Unnamed.of_bindings (scopes : s'.scopes = s.scopes)
    (keeps : s.bindings.Keeps s'.bindings)
    (inStep : InStep s.scopes s.bindings → InStep s.scopes s'.bindings) : Unnamed s s' where
  fewer := by
    rw [scopes]
    exact .refl _
  keeps := keeps
  inStep := by
    rw [scopes]
    exact inStep

theorem Step.names (step : Step s s') :
    (∃ table b, s.Introduces table b ∧ s' = s.introduce table b) ∨ Unnamed s s' := by
  cases step with
  | @bind b table value plain unused named =>
    exact .inl ⟨table, b, ⟨value, plain, unused, named⟩, rfl⟩
  | heap move => exact .inr (.of_scopes move.noNewNames rfl)
  | comprehension path new => exact .inr (.of_scopes (.alloc ..) rfl)
  | bindMethod source value =>
    refine .inr (.of_scopes ?_ rfl)
    simp only [State.scopes, Heap.scopes_bindMethod]
    exact .refl _
  | @bindModule b value kind plain unused =>
    exact .inr (.of_bindings rfl s.bindings.keeps_create (·.create (.of_refs unused)))
  | @extendBinding node type id value =>
    have continues := fun b : Binding =>
      b.continues_extend (s.types.union (s.bindings.typeOf id) type).1 node
    exact .inr (.of_bindings rfl (BindingStore.keeps_modify continues)
      (·.modify (fun b => (continues b).name) fun _ tidy => tidy.extend))
  | refer ids node =>
    exact .inr (.of_bindings rfl (s.bindings.keeps_refer ids node) (·.refer ids node))
  | log | report | recordType | takeForward | forward | yieldValue | called | define | defineClass
  | package => exact .inr (.of_scopes (.refl _) rfl)

theorem Turn.names (turn : Turn s s') :
    (∃ table b, s.Introduces table b ∧ s' = s.introduce table b) ∨ Unnamed s s' := by
  cases turn with
  | step step => exact step.names
  | enter | leave | failure | parse | hold | advance | root | taken | finished =>
    exact .inr (.of_scopes (.refl _) rfl)

theorem Turn.keeps (turn : Turn s s') : s.bindings.Keeps s'.bindings := by
  rcases turn.names with ⟨table, b, _, rfl⟩ | unnamed
  · exact s.bindings.keeps_create
  · exact unnamed.keeps

theorem Turns.keeps (turns : Turns s s') : s.bindings.Keeps s'.bindings := by
  induction turns with
  | refl => exact .refl _
  | tail _ turn ih => exact ih.trans turn.keeps

theorem Turn.inStep (turn : Turn s s') (inStep : InStep s.scopes s.bindings) :
    InStep s'.scopes s'.bindings := by
  rcases turn.names with ⟨table, b, introduces, rfl⟩ | unnamed
  · exact inStep.define (.of_refs introduces.unused) table
  · exact unnamed.inStep inStep

theorem Turns.inStep (turns : Turns s s') (inStep : InStep s.scopes s.bindings) :
    InStep s'.scopes s'.bindings := by
  induction turns with
  | refl => exact inStep
  | tail _ turn ih => exact turn.inStep ih

theorem Turn.qualify (turn : Turn s s') (has : s.scopes.Has table) :
    s'.scopes.qualify table name = s.scopes.qualify table name := by
  rcases turn.names with ⟨table', b, _, rfl⟩ | unnamed
  · exact s.scopes.qualify_define table' b.name _ table name
  · exact unnamed.fewer.qualify has

theorem Turn.qualified (turn : Turn s s') (valid : s.Valid) (has : s.scopes.Has table)
    (value : s.Value type) :
    s'.heap.qualified table name type = s.heap.qualified table name type := by
  have stays := (turn.evolves valid).2.changes.kept.stays value.has
  have path : s'.heap.scopes.qualify table name = s.heap.scopes.qualify table name :=
    turn.qualify has
  unfold Heap.qualified
  split
  · next d module =>
    rw [stays.module_iff.mp module]
  · next other =>
    split
    · next d module => exact absurd (stays.module_iff.mpr module) (other d)
    · exact path

/-! ### Where a binding comes from -/

/-- How a table came to lead to a binding. -/
inductive Introduced (s : State) (table : ScopeId) (id : BindingId) (b : Binding) : Prop
  | builtIn (own : b.isBuiltin = true) (qualified : b.qualified = s.scopes.qualify table b.name)
  /-- It was introduced in a turn, and what it was then gave it its qualified name. -/
  | turn {s₀ : State} {b₀ : Binding} (before : State.initial.Turns s₀)
      (introduces : s₀.Introduces table b₀) (after : (s₀.introduce table b₀).Turns s)
      (new : id = ⟨s₀.bindings.size⟩) (continues : b₀.Continues b)
      (qualified : b.qualified = s.heap.qualified table b.name b₀.type)

theorem Introduced.next {id : BindingId} (introduced : s.Introduced table id b) (turn : Turn s s')
    (valid : s.Valid) (has : s.scopes.Has table) (continues : b.Continues b') :
    s'.Introduced table id b' := by
  cases introduced with
  | builtIn own qualified =>
    constructor
    · exact continues.isBuiltin.trans own
    · rw [continues.qualified, continues.name, turn.qualify has, qualified]
  | @turn s₀ b₀ before introduces after new earlier qualified =>
    have valid₀ := (Turns.evolves before initial_valid).1
    have introducing : Turn s₀ (s₀.introduce table b₀) :=
      .step (.bind table introduces.value introduces.plain introduces.unused introduces.qualified)
    have first := (introducing.evolves valid₀)
    have value : s.Value b₀.type :=
      introduces.value.mono (first.2.trans (Turns.evolves after first.1).2).changes.kept
    apply Introduced.turn before introduces (after.tail turn) new (earlier.trans continues)
    rw [continues.qualified, continues.name, turn.qualified valid has value, qualified]

/-- Everything that a table leads to was introduced there. -/
def Recorded (s : State) : Prop :=
  ∀ table name id b, (name, [id]) ∈ (s.scopes.get table).table.entries →
    s.bindings.get? id = some b → s.Introduced table id b

theorem initial_recorded : State.initial.Recorded := by
  intro table name id b entry found
  obtain ⟨inStep, builtIn⟩ := initial_names
  obtain ⟨own, qualified⟩ := builtIn table name id b entry found
  obtain ⟨id', b', same, found', rfl⟩ := inStep.single table name [id] entry
  obtain rfl : id = id' := by simpa using same
  obtain rfl : b = b' := Option.some.inj (found.symm.trans found')
  exact .builtIn own qualified

theorem Recorded.old (recorded : s.Recorded) (inStep : InStep s.scopes s.bindings) (valid : s.Valid)
    (turn : Turn s s') {id : BindingId} (entry : (name, [id]) ∈ (s.scopes.get table).table.entries)
    (found : s'.bindings.get? id = some b) : s'.Introduced table id b := by
  obtain ⟨id', b₁, same, found₁, _⟩ := inStep.single table name [id] entry
  obtain rfl : id = id' := by simpa using same
  obtain ⟨b₂, found₂, continues⟩ := turn.keeps id b₁ found₁
  obtain rfl : b = b₂ := Option.some.inj (found.symm.trans found₂)
  have introduced := recorded table name id b₁ entry found₁
  exact introduced.next turn valid (ScopeStore.has_of_entry entry) continues

theorem Recorded.next (recorded : s.Recorded) (inStep : InStep s.scopes s.bindings)
    (before : State.initial.Turns s) (turn : Turn s s') : s'.Recorded := by
  have valid := (Turns.evolves before initial_valid).1
  intro table name id b entry found
  rcases turn.names with ⟨table', b', introduces, rfl⟩ | unnamed
  · rcases ScopeStore.mem_entries_define entry with ⟨rfl, rfl, same⟩ | ⟨entry, _⟩
    · obtain rfl : id = (s.bindings.create b').1 := by simpa using same
      obtain rfl : b' = b := Option.some.inj (s.bindings.get?_create_new.symm.trans found)
      apply Introduced.turn before introduces .refl rfl (.refl b')
      rw [qualified_introduce, introduces.qualified]
    · exact recorded.old inStep valid turn entry found
  · exact recorded.old inStep valid turn ((unnamed.fewer.entries table).subset entry) found

theorem Turns.recorded (turns : State.initial.Turns s) : s.Recorded := by
  induction turns with
  | refl => exact initial_recorded
  | tail turns turn ih => exact ih.next (Turns.inStep turns initial_names.1) turns turn

end State

/-- An entry of a table leads to one binding, which has its name and no other entry. Its qualified
name was given to it when it was introduced, the places at which it is used are different from each
other and from the one that introduced it, and no call on the session removes it. -/
theorem Session.names_in_step (session : Session s) : InStep s.scopes s.bindings ∧
      (∀ table name id b, (name, [id]) ∈ (s.scopes.get table).table.entries →
        s.bindings.get? id = some b → s.Introduced table id b) ∧
      ∀ files limits (call : Call) answer s',
        (call.run (Walker.of files limits)).run s = .ok (answer, s') →
          s.bindings.Keeps s'.bindings := by
  have called := session.called
  have valid := called.valid State.initial_valid
  refine ⟨State.Turns.inStep called.turns State.initial_names.1,
    State.Turns.recorded called.turns, ?_⟩
  intro files limits call answer s' ran
  exact State.Turns.keeps (Call.run_again valid ran).1.turns

/-- A module gets a second name. -/
def aliases : FileSystem :=
  ((MemoryTree.file {} "a.py" "import b\nx = b").file "b.py" "").fileSystem

/-- The qualified names of the bindings that tables lead to under a name. -/
def State.qualifiedNames (s : State) (name : String) : List String :=
  (s.scopes.scopes.toList.flatMap (·.table.entries)).flatMap fun entry =>
    if entry.1 = name then entry.2.filterMap fun id => (s.bindings.get? id).map (·.qualified)
    else []

theorem aliases_in_step : ∃ s, Session s ∧ s.qualifiedNames "x" = [".b"] ∧
    InStep s.scopes s.bindings ∧
      ∀ table name id b, (name, [id]) ∈ (s.scopes.get table).table.entries →
        s.bindings.get? id = some b → s.Introduced table id b := by
  obtain ⟨answer, s, ran, names⟩ : ∃ answer s,
      ((Call.analyze (.ofString "/a.py")).run (Walker.of aliases {})).run State.initial =
        .ok (answer, s) ∧ s.qualifiedNames "x" = [".b"] :=
    Walks.exists_run (by decide +kernel)
  have session : Session s := .call .start ran
  obtain ⟨inStep, introduced, _⟩ := session.names_in_step
  exact ⟨s, session, names, inStep, introduced⟩

end FlowTypes
