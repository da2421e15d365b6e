import FlowTypes.Proofs.Ledger

/-! Functions that nobody calls. In the end all of them are applied, each of them once. -/
namespace FlowTypes

open Analysis

section

variable {files : FileSystem} {limits : Limits} {n : Nat} {s s' : State} {α : Type} {a : α}
  {F : Walker → Analysis α} {D : Realm}

theorem Watch.ledger (tidy : s.Tidy)
    (tracks : (of (.ledger s .endless) files limits n).Tracks D true F)
    (ran : (F (walker files limits n)).run s = .ok (a, s')) : s.Ledger s' := by
  obtain ⟨_, known⟩ := (tracks s tidy.ledger).same id
  exact (known a s' ran).1

theorem Watch.sourced (sourced : s.Sourced)
    (tracks : (of .reads files limits n).Tracks .empty true F)
    (ran : (F (walker files limits n)).run s = .ok (a, s')) : s'.Sourced := by
  obtain ⟨_, known⟩ := (tracks s ⟨sourced, fun _ => False.elim⟩).same id
  exact (known a s' ran).1.toSourced

end

/-- A walk that keeps the list of functions that wait in order, whatever it walks. -/
structure Walker.Orderly (w : Walker) : Prop where
  expr : ∀ (scope : ScopeId) (e : Expr) (s s' : State) (v : TypeId), s.Tidy →
    (w.expr scope e).run s = .ok (v, s') → s.Ledger s'
  block : ∀ (scope : ScopeId) (body : List Stmt) (s s' : State) (v : TypeId), s.Tidy →
    (w.block scope body).run s = .ok (v, s') → s.Ledger s'
  call : ∀ (callee : TypeId) (args : CallArgs) (span : Span) (s s' : State) (v : TypeId), s.Tidy →
    (w.call callee args span).run s = .ok (v, s') → s.Ledger s'
  load : ∀ (path : Path) (s s' : State) (v : Option TypeId), s.Tidy →
    (w.load path).run s = .ok (v, s') → s.Ledger s'

theorem walker_orderly (n : Nat) : (walker files limits n).Orderly where
  expr := fun scope _ _ _ _ tidy ran =>
    Watch.ledger (D := .full) tidy ((Watch.holds _ files limits n).expr scope trivial) ran
  block := fun scope _ _ _ _ tidy ran =>
    Watch.ledger (D := .full) tidy
      ((Watch.holds _ files limits n).block scope fun _ _ => trivial) ran
  call := fun callee args span _ _ _ tidy ran =>
    Watch.ledger (D := .full) tidy
      ((Watch.holds _ files limits n).call callee args span) ran
  load := fun path _ _ _ tidy ran =>
    Watch.ledger (D := .full) tidy ((Watch.holds _ files limits n).load path) ran

/-! ### Rounds -/

/-- Functions that nobody called are taken from the list and applied, one after the other. -/
inductive Rounds (w : Walker) : List TypeId → State → State → Prop
  | done (s : State) : Rounds w [] s s
  | next {s s₁ s₂ : State} {fn : TypeId} {rest fns : List TypeId} (first : s.uncalled = fn :: rest)
      (ran : (w.applyUncalled fn).run { s with uncalled := rest } = .ok ((), s₁))
      (others : Rounds w fns s₁ s₂) : Rounds w (fn :: fns) s s₂

theorem Walker.rounds_applyAll (ran : (w.applyAll n).run s = .ok ((), s')) :
    ∃ fns, Rounds w fns s s' ∧ s'.uncalled = [] := by
  induction n generalizing s with
  | zero => cases ran
  | succ n ih =>
    obtain ⟨_, _, ⟨⟩, ran⟩ := Walks.run_bind ran
    split at ran
    · next none =>
      cases ran
      exact ⟨[], .done _, none⟩
    · next fn rest first =>
      obtain ⟨_, _, ⟨⟩, ran⟩ := Walks.run_bind ran
      obtain ⟨_, s₁, applied, ran⟩ := Walks.run_bind ran
      obtain ⟨fns, others, none⟩ := ih ran
      exact ⟨fn :: fns, .next first applied others, none⟩

namespace Rounds

variable {files : FileSystem} {limits : Limits} {n : Nat} {fns : List TypeId} {s s' : State}

theorem step (tidy : s.Tidy) (first : s.uncalled = fn :: rest)
    (ran : ((walker files limits n).applyUncalled fn).run { s with uncalled := rest } =
      .ok ((), s₁)) :
    s.Ledger s₁ ∧ s₁.isGone fn = true := by
  have taken : s.Ledger { s with uncalled := rest } :=
    tidy.ledger.withUncalled (first ▸ List.sublist_cons_self fn rest)
  have applied := Watch.ledger (D := .full) taken.toTidy
    (Watch.tracks_applyUncalled (Watch.holds _ files limits n)) ran
  have distinct : fn ∉ rest := (List.nodup_cons.mp (first ▸ tidy.waiting)).1
  have member : fn ∈ s.functions.values := tidy.among fn (first ▸ List.mem_cons_self)
  exact ⟨taken.trans applied, applied.isGone (decide_eq_true ⟨member, distinct⟩)⟩

theorem ledger (rounds : Rounds (walker files limits n) fns s s') (tidy : s.Tidy) :
    s.Ledger s' := by
  induction rounds with
  | done => exact tidy.ledger
  | next first ran _ ih =>
    have one := (step tidy first ran).1
    exact one.trans (ih one.toTidy)

theorem sourced (rounds : Rounds (walker files limits n) fns s s') (sourced : s.Sourced) :
    s'.Sourced := by
  induction rounds with
  | done => exact sourced
  | next first ran _ ih =>
    refine ih (Watch.sourced ?_
      (Watch.tracks_applyUncalled (Watch.holds _ files limits n)) ran)
    exact sourced.mono rfl sourced.functions fun _ held => held

theorem not_mem (rounds : Rounds (walker files limits n) fns s s') (tidy : s.Tidy)
    (gone : s.isGone fn = true) : fn ∉ fns := by
  induction rounds with
  | done => exact List.not_mem_nil
  | @next s _ _ g rest _ first ran _ ih =>
    obtain ⟨ledger, _⟩ := step tidy first ran
    have other : fn ≠ g := by
      rintro rfl
      exact (of_decide_eq_true gone).2 (first ▸ List.mem_cons_self)
    exact List.not_mem_cons_of_ne_of_not_mem other (ih ledger.toTidy (ledger.isGone gone))

theorem nodup (rounds : Rounds (walker files limits n) fns s s') (tidy : s.Tidy) :
    fns.Nodup ∧ fns ⊆ s'.functions.values := by
  induction rounds with
  | done => exact ⟨.nil, List.nil_subset _⟩
  | @next s _ _ fn rest fns first ran others ih =>
    obtain ⟨ledger, gone⟩ := step tidy first ran
    obtain ⟨distinct, among⟩ := ih ledger.toTidy
    have later := (others.ledger ledger.toTidy).isGone gone
    refine ⟨List.nodup_cons.mpr ⟨others.not_mem ledger.toTidy gone, distinct⟩, ?_⟩
    exact List.cons_subset.mpr ⟨(of_decide_eq_true later).1, among⟩

/-- There are not more rounds than definitions in the files that have been read. -/
theorem length_le (rounds : Rounds (walker files limits n) fns s s') (tidy : s.Tidy)
    (sourced : s.Sourced) : fns.length ≤ s'.definitions.length := by
  obtain ⟨distinct, among⟩ := rounds.nodup tidy
  calc fns.length
      ≤ s'.functions.values.length := distinct.length_le_of_subset among
    _ = s'.functions.size := List.length_map _
    _ ≤ s'.definitions.length := (rounds.ledger tidy).size_le (rounds.sourced sourced)

end Rounds

/-! ### Definitions -/

/-- A definition that is met again keeps its value, and the list stays as it is. One that is met for the
first time gets a new value, which waits. -/
def State.Defines (s : State) (d : Definition) (fn : TypeId) (s' : State) : Prop :=
  s.functions.get? d.node.id = some fn ∧ s'.functions = s.functions ∧ s'.uncalled = s.uncalled ∨
    s.Meets d fn s'

theorem defines_defineValue
    (kept : ∀ outer f, (complete outer f).lineage = f.lineage ∧ (complete outer f).arrows = f.arrows)
    (ran : (defineValue scope d complete).run s = .ok (fn, s')) : s.Defines d fn s' := by
  cases known : s.functions.get? d.node.id with
  | none => exact .inr (Watch.run_defineValue_new kept known ran).2
  | some g =>
    obtain ⟨_, _, ⟨⟩, ran⟩ := Walks.run_bind ran
    rw [known] at ran
    obtain ⟨_, _, ⟨⟩, ⟨⟩⟩ := Walks.run_bind ran
    exact .inl ⟨known, rfl, rfl⟩

/-! ### Sessions -/

section

variable {files : FileSystem} {limits : Limits} {call : Call} {answer : Except Error Unit}
  {s s' : State}

/-- A call that is watched for the list of functions that wait goes as it would without the watch. -/
theorem Call.follows_ledger (tidy : s.Tidy)
    (stop : Stop) :
    (call.run (Walker.watchedOf (State.insist s.Ledger stop) files limits)).run s =
        (call.run (Walker.of files limits)).run s ∧
      ∀ answer s', (call.run (Walker.of files limits)).run s = .ok (answer, s') → s.Ledger s' := by
  have holds := Watch.holds (.ledger s stop) files limits files.allowance
  have round : Watch.TracksRound (.of (.ledger s stop) files limits files.allowance) .full true :=
    Watch.tracksRound holds fun t fn rest ledger first =>
      State.Ledger.withUncalled ledger (first ▸ List.sublist_cons_self fn rest)
  obtain ⟨same, known⟩ := (Watch.tracks_call holds round call s tidy.ledger).same id
  exact ⟨same, fun answer s' ran => (known answer s' ran).1⟩

theorem Session.tidy (session : Session s) : s.Tidy := by
  induction session with
  | start => exact ⟨.nil, .nil, by rintro _ ⟨⟩, .nil, by rintro _ ⟨⟩⟩
  | call _ ran ih => exact ((Call.follows_ledger ih .endless).2 _ _ ran).toTidy

theorem Session.sourced (session : Session s) : s.Sourced := by
  induction session with
  | start =>
    refine ⟨fun id l d found definition => ?_, by rintro _ ⟨⟩⟩
    obtain ⟨arrows, known⟩ := TypeStore.facts?_of_lineage? found
    rw [(State.initial_facts known).1] at definition
    cases definition
  | @call _ _ files limits call _ _ ran ih =>
    have holds := Watch.holds .reads files limits files.allowance
    refine Watch.sourced ih (Watch.tracks_call holds (Watch.tracksRound holds ?_) call) ran
    exact fun t fn rest reads _ => State.Reads.withUncalled reads

theorem Call.rounds_finish (ran : (Call.finish.run (Walker.of files limits)).run s =
    .ok (answer, s')) :
    ∃ fns s₁, Rounds (Walker.of files limits) fns s s₁ ∧ s' = s₁.finish ∧ s'.uncalled = [] := by
  obtain ⟨_, _, finished, ⟨⟩⟩ := Walks.run_bind ran
  obtain ⟨_, s₁, applied, ⟨⟩⟩ := Walks.run_bind finished
  obtain ⟨fns, rounds, none⟩ := Walker.rounds_applyAll applied
  exact ⟨fns, s₁, rounds, rfl, none⟩

end

/-- Between two calls, every function that a definition has as its value waits or has been applied.
During a call, at whatever the walk comes to, the list of those that wait has got the values of new
definitions only, each of them once, and none has gone from it before the walk came to its body. To
finish is to take functions from the list until there are none, and this does not take more rounds than
there are definitions in the files that have been read. -/
theorem Session.definitions_applied {s : State} (session : Session s) (files : FileSystem)
    (limits : Limits) :
    s.Tidy ∧
      (∀ fn ∈ s.functions.values, fn ∈ s.uncalled ∨ Session.Applied fn s) ∧
      (∀ call : Call,
        (∀ stop, (call.run (Walker.watchedOf (State.insist s.Ledger stop) files limits)).run s =
          (call.run (Walker.of files limits)).run s) ∧
        (∀ fn, Session.Applied fn s ∨ ∀ inside gone,
          (call.run (Walker.watchedOf (State.notice fn inside gone) files limits)).run s =
            (call.run (Walker.of files limits)).run s ∨
          (call.run (Walker.watchedOf (State.notice fn inside gone) files limits)).run s =
            .error inside) ∧
        ∀ answer s', (call.run (Walker.of files limits)).run s = .ok (answer, s') →
          s.Ledger s' ∧ (call = .finish → s'.uncalled = [] ∧
            ∃ fns s₁, Rounds (Walker.of files limits) fns s s₁ ∧ s' = s₁.finish)) ∧
      (∀ fns s', Rounds (Walker.of files limits) fns s s' →
        fns.Nodup ∧ fns ⊆ s'.functions.values ∧ fns.length ≤ s'.definitions.length) ∧
      (∀ n, (walker files limits n).Orderly) ∧
      (∀ (t t' : State) (fn : TypeId), t.Ledger t' → t.isGone fn = true → t'.isGone fn = true) ∧
      (∀ scope d t t' fn, (defineFunction scope d).run t = .ok (fn, t') →
        t.Defines (.function d) fn t') ∧
      ∀ scope node parameters body t t' fn,
        (defineLambda scope node parameters body).run t = .ok (fn, t') →
          t.Defines (.lambda node parameters body) fn t' := by
  have tidy := session.tidy
  refine ⟨tidy, fun fn member => ?_, fun call => ⟨fun stop => ?_, fun fn => ?_, ?_⟩, ?_,
    walker_orderly, fun _ _ _ ledger gone => ledger.isGone gone, ?_, ?_⟩
  · exact session.waiting_or_applied.imp_left fun waiting => waiting.listed member
  · exact (Call.follows_ledger tidy stop).1
  · refine session.waiting_or_applied.symm.imp_right fun waiting inside gone => ?_
    exact (Call.follows_waiting waiting).imp And.left And.right
  · intro answer s' ran
    refine ⟨(Call.follows_ledger tidy .endless).2 answer s' ran, ?_⟩
    rintro rfl
    obtain ⟨fns, s₁, rounds, same, none⟩ := Call.rounds_finish ran
    exact ⟨none, fns, s₁, rounds, same⟩
  · intro fns s' rounds
    obtain ⟨distinct, among⟩ := rounds.nodup tidy
    exact ⟨distinct, among, rounds.length_le tidy session.sourced⟩
  · intro scope d t t' fn ran
    refine defines_defineValue ?_ ran
    exact fun _ _ => ⟨rfl, rfl⟩
  · intro scope node parameters body t t' fn ran
    refine defines_defineValue ?_ ran
    exact fun _ _ => ⟨rfl, rfl⟩

/-- A lambda that nobody calls, with another one in its body. -/
def nested : FileSystem := (MemoryTree.file {} "a.py" "lambda: lambda: 1").fileSystem

/-- The functions that wait after the file has been analysed. Then the end is made. -/
def nestedSession : Analysis (List TypeId) := do
  let _ ← (Call.analyze (.ofString "/a.py")).run (Walker.of nested {})
  let waiting := (← get).uncalled
  let _ ← Call.finish.run (Walker.of nested {})
  return waiting

theorem nested_applied : ∃ s s' answer, Session s ∧ s.uncalled = [⟨119⟩] ∧
    (Call.finish.run (Walker.of nested {})).run s = .ok (answer, s') ∧
    Session.Applied ⟨119⟩ s' ∧ Session.Applied ⟨121⟩ s' ∧
    ∃ fns s₁, Rounds (Walker.of nested {}) fns s s₁ ∧ s' = s₁.finish ∧
      fns.Nodup ∧ fns.length ≤ s₁.definitions.length := by
  obtain ⟨waiting, s', ran, first, values⟩ : ∃ waiting s',
      nestedSession.run State.initial = .ok (waiting, s') ∧ waiting = [⟨119⟩] ∧
        s'.functions.values = [⟨119⟩, ⟨121⟩] :=
    Walks.exists_run (by decide +kernel)
  obtain ⟨_, s, analysed, ran⟩ := Walks.run_bind ran
  obtain ⟨_, _, ⟨⟩, ran⟩ := Walks.run_bind ran
  obtain ⟨answer, _, finished, ⟨⟩⟩ := Walks.run_bind ran
  have before : Session s := .call .start analysed
  have after : Session s' := .call before finished
  obtain ⟨_, _, calls, bounded, _⟩ := before.definitions_applied nested {}
  obtain ⟨_, applied, _⟩ := after.definitions_applied nested {}
  obtain ⟨none, fns, s₁, rounds, same⟩ := ((calls .finish).2.2 answer s' finished).2 rfl
  obtain ⟨distinct, _, few⟩ := bounded fns s₁ rounds
  have each : ∀ fn ∈ s'.functions.values, Session.Applied fn s' := fun fn member =>
    (applied fn member).resolve_left (none ▸ List.not_mem_nil)
  rw [values] at each
  exact ⟨s, s', answer, before, first, finished, each _ (by simp), each _ (by simp),
    fns, s₁, rounds, same, distinct, few⟩

end FlowTypes
