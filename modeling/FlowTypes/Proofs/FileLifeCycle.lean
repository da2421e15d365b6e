import FlowTypes.FileSystem.Memory
import FlowTypes.Proofs.FileSteps
import FlowTypes.Proofs.Walk.Session
import Mathlib.Data.List.Nodup

/-! The life of a file. While it is walked, other files are loaded that may import it again; they find
it where it is and do not move it. Main statement: between two calls of a session every file has come
to a rest, it got there one step after the other, and a call that is repeated changes nothing. -/
namespace FlowTypes

open Relation (ReflGen ReflTransGen)

variable {s s' : State} {p q : Path}

namespace FileStatus

/-- Where a file may be found between two calls. -/
inductive Settled : FileStatus → Prop
  | failed : Settled .failed
  | inferred (value : TypeId) (tree : Module) : Settled (.loaded .inferred value tree)
  | finished (value : TypeId) (tree : Module) : Settled (.loaded .finished value tree)

theorem Settled.finish {status : FileStatus} (settled : status.Settled) :
    status.finish.Settled := by
  cases settled with
  | failed => exact .failed
  | inferred value tree | finished value tree => exact .finished value tree

theorem advance_eq_failed {status : FileStatus} :
    status.advance stage = .failed ↔ status = .failed := by
  cases status <;> simp [advance]

theorem finish_eq_failed {status : FileStatus} : status.finish = .failed ↔ status = .failed := by
  rcases status with _ | _ | ⟨_ | _ | _ | _, _, _⟩ <;> simp [finish]

theorem finish_ne_inferred (status : FileStatus) :
    status.finish ≠ .loaded .inferred value tree := by
  rcases status with _ | _ | ⟨_ | _ | _ | _, _, _⟩ <;> simp [finish]

/-- What a whole walk makes of a file: one that it meets it also brings to a rest. -/
inductive Moved : Option FileStatus → Option FileStatus → Prop
  | same (before : Option FileStatus) : Moved before before
  | failed : Moved none (some .failed)
  | inferred (value : TypeId) (tree : Module) : Moved none (some (.loaded .inferred value tree))

theorem Moved.trans (first : Moved a b) (second : Moved b c) : Moved a c := by
  cases first with
  | same => exact second
  | failed =>
    cases second with
    | same => exact .failed
  | inferred value tree =>
    cases second with
    | same => exact .inferred value tree

theorem Moved.next (moved : Moved a b) : ReflTransGen Next a b := by
  cases moved with
  | same => exact .refl
  | failed => exact .tail (.single .mentioned) .failed
  | inferred value tree =>
    exact ReflTransGen.single .mentioned |>.tail (.parsed value tree) |>.tail (.bound value tree)
      |>.tail (.inferred value tree)

theorem Moved.settled (moved : Moved a (some status))
    (settled : ∀ before, a = some before → before.Settled) : status.Settled := by
  cases moved with
  | same => exact settled status rfl
  | failed => exact .failed
  | inferred value tree => exact .inferred value tree

end FileStatus

open FileStatus (Next Moved)

namespace State

theorem status?_finish : s.finish.status? p = (s.status? p).map (·.finish) :=
  InsertionMap.get?_mapValues s.modules _ p.components

theorem Walked.moved (walked : Walked s s') : Moved (s.status? q) (s'.status? q) := by
  induction walked with
  | refl => exact .same _
  | step step =>
    rw [status?, status?, step.modules]
    exact .same _
  | trans _ _ ih ih' => exact ih.trans ih'
  | application _ _ ih => exact ih
  | @failure s p record new =>
    show Moved (s.status? q) (((s.setStatus p .unparsed).setStatus p .failed).status? q)
    by_cases same : q.components = p.components
    · rw [status?_setStatus, if_pos same, status?_congr same, new]
      exact .failed
    · rw [status?_setStatus, if_neg same, status?_setStatus, if_neg same]
      exact .same _
  | @load s s₁ s₂ s₃ p value tree next new read parsing hv binding inferring body ih ih₁ ih₂ =>
    by_cases same : q.components = p.components
    · -- What is walked inside of the file leaves it where it is.
      have bound := binding.status ((status?_setStatus s₁ _).trans (if_pos same))
      have advanced : (s₂.advance p .bound).status? q = some (.loaded .bound value tree) := by
        rw [status?_advance, if_pos same, bound]
        rfl
      have inferred := inferring.status advanced
      rw [status?_advance, if_pos same, inferred, status?_congr same, new]
      exact .inferred value tree
    · have parsing := (status?_setStatus s .unparsed).trans (if_neg same)
      have binding :=
        (status?_setStatus s₁ (.loaded .parsed value tree)).trans (if_neg same)
      have inferring := (status?_advance s₂ p q .bound).trans (if_neg same)
      rw [status?_advance, if_neg same]
      exact ((parsing ▸ ih).trans (binding ▸ ih₁)).trans (inferring ▸ ih₂)

/-! ### Failed files -/

/-- The files that are listed as failed are those that failed. -/
structure Failures (s : State) : Prop where
  once : (s.failed.map Path.components).Nodup
  listed (p : Path) : p.components ∈ s.failed.map Path.components ↔ s.status? p = some .failed

theorem Failures.of_moved (failures : s.Failures) (same : s'.failed = s.failed)
    (kept : ∀ q, s'.status? q = some .failed ↔ s.status? q = some .failed) : s'.Failures := by
  refine ⟨same ▸ failures.once, fun q => ?_⟩
  rw [same, kept]
  exact failures.listed q

theorem Failures.setStatus (failures : s.Failures) (before : s.status? p ≠ some .failed)
    (after : status ≠ .failed) : (s.setStatus p status).Failures := by
  refine failures.of_moved rfl fun q => ?_
  rw [status?_setStatus]
  split
  · next same => simp [after, status?_congr same, before]
  · rfl

theorem Failures.advance (failures : s.Failures) : (s.advance p stage).Failures := by
  refine failures.of_moved rfl fun q => ?_
  rw [status?_advance]
  split
  · simp [Option.map_eq_some_iff, FileStatus.advance_eq_failed]
  · rfl

theorem Failures.fail (failures : s.Failures) (before : s.status? p ≠ some .failed) :
    (s.fail p).Failures := by
  have new : p.components ∉ s.failed.map Path.components := (failures.listed p).not.mpr before
  have list : (s.fail p).failed.map Path.components = s.failed.map Path.components ++ [p.components] :=
    List.map_append
  refine ⟨?_, fun q => ?_⟩
  · rw [list]
    exact failures.once.append (List.nodup_singleton _) (List.disjoint_singleton.mpr new)
  · have status : (s.fail p).status? q = _ := status?_setStatus s .failed
    rw [list, status, List.mem_append, List.mem_singleton, failures.listed]
    split
    · next same => simp [same]
    · next other => simp [other]

theorem Step.failed (step : Step s s') : s'.failed = s.failed := by
  cases step <;> rfl

theorem Walked.failures (walked : Walked s s') (failures : s.Failures) : s'.Failures := by
  induction walked with
  | refl => exact failures
  | step step =>
    refine failures.of_moved step.failed fun q => ?_
    rw [status?, status?, step.modules]
  | trans _ _ ih ih' => exact ih' (ih failures)
  | application _ _ ih =>
    have inside := ih (failures.of_moved rfl fun _ => Iff.rfl)
    exact inside.of_moved rfl fun _ => Iff.rfl
  | @failure s p record new =>
    have unparsed : (s.setStatus p .unparsed).status? p = some .unparsed :=
      (status?_setStatus s .unparsed).trans (if_pos rfl)
    have started : (s.setStatus p .unparsed).Failures :=
      failures.setStatus (by simp [new]) (by simp)
    have failed := started.fail (p := p) (by simp [unparsed])
    exact failed.of_moved rfl fun _ => Iff.rfl
  | @load s s₁ s₂ s₃ p value tree next new read parsing hv binding inferring body ih ih₁ ih₂ =>
    have unparsed := parsing.status (q := p)
      ((status?_setStatus s .unparsed).trans (if_pos rfl))
    have started : (s.setStatus p .unparsed).Failures :=
      failures.setStatus (by simp [new]) (by simp)
    have parsed : (s₁.setStatus p (.loaded .parsed value tree)).Failures :=
      (ih (started.of_moved rfl fun _ => Iff.rfl)).setStatus (by simp [unparsed]) (by simp)
    exact (ih₂ (ih₁ parsed).advance).advance

/-! ### Calls -/

/-- The files of a session between two of its calls. -/
structure Settled (s : State) : Prop extends s.Failures where
  files {p : Path} {status : FileStatus} (known : s.status? p = some status) : status.Settled

theorem Called.next (called : Called s s') (q : Path) :
    ReflTransGen Next (s.status? q) (s'.status? q) := by
  induction called with
  | walked walked => exact walked.moved.next
  | trans _ _ ih ih' => exact ih.trans ih'
  | root | taken => exact .refl
  | @finished s done =>
    rw [status?_finish]
    cases s.status? q with
    | none => exact .refl
    | some status => exact status.next_finish.to_reflTransGen

theorem Called.settled (called : Called s s') (settled : s.Settled) : s'.Settled := by
  induction called with
  | walked walked =>
    refine { walked.failures settled.toFailures with files := fun {p} _ known => ?_ }
    exact (known ▸ walked.moved).settled fun _ before => settled.files before
  | trans _ _ ih ih' => exact ih' (ih settled)
  | root | taken =>
    exact { settled.of_moved rfl fun _ => Iff.rfl with files := settled.files }
  | @finished s done =>
    have failures : s.finish.Failures := settled.of_moved rfl fun q => by
      simp [status?_finish, FileStatus.finish_eq_failed]
    refine { failures with files := fun {p} _ known => ?_ }
    rw [status?_finish, Option.map_eq_some_iff] at known
    obtain ⟨before, known, rfl⟩ := known
    exact (settled.files known).finish

theorem status?_initial (p : Path) : State.initial.status? p = none := rfl

theorem failed_initial : State.initial.failed = [] := rfl

theorem initial_settled : State.initial.Settled where
  once := List.nodup_nil
  listed p := by simp [status?_initial, failed_initial]
  files known := by simp [status?_initial] at known

end State

/-- A call on a session. -/
inductive Call
  | analyze (path : Path)
  | finish

def Call.run (w : Walker) : Call → Analysis (Except Error Unit)
  | analyze path => w.analyze path
  | finish => do
    w.finish
    return .ok ()

/-- A call, where every change that concerns files is overseen. -/
def Call.runOverseen (objection : Option FileStatus → Option FileStatus → Option Stop)
    (files : FileSystem) (limits : Limits) : Call → Analysis (Except Error Unit)
  | analyze path => (overseen objection files limits files.allowance).analyze path
  | finish => do
    (overseen objection files limits files.allowance).finishWith (Analysis.overseen objection)
    return .ok ()

/-- The states of a session after any number of calls. The file system may be another one each
time. -/
inductive Session : State → Prop
  | start : Session State.initial
  | call {s s' : State} {files : FileSystem} {limits : Limits} {call : Call}
      {answer : Except Error Unit} (session : Session s)
      (ran : (call.run (Walker.of files limits)).run s = .ok (answer, s')) : Session s'

section

variable {files : FileSystem} {limits : Limits} {call : Call} {answer : Except Error Unit}

/-- A call that ends would find nothing to do, were it made again. -/
theorem Call.run_again (valid : s.Valid)
    (ran : (call.run (Walker.of files limits)).run s = .ok (answer, s')) :
    s.Called s' ∧ (call.run (Walker.of files limits)).run s' = .ok (answer, s') := by
  obtain ⟨n, enough⟩ : ∃ n, files.allowance = n + 1 :=
    Nat.exists_eq_add_one.mpr (by simp [FileSystem.allowance])
  rw [Walker.of, enough] at ran ⊢
  cases call with
  | analyze path => exact Walker.analyze_again valid ran
  | finish =>
    obtain ⟨_, _, finished, ⟨⟩⟩ := Walks.run_bind ran
    obtain ⟨called, again⟩ :=
      Walker.finish_again (walker_sound (n + 1)) enough valid finished
    exact ⟨called, Walks.run_bind_eq again⟩

theorem Call.run_finish (valid : s.Valid)
    (ran : (Call.finish.run (Walker.of files limits)).run s = .ok (answer, s')) :
    ∃ s₁ : State, s' = s₁.finish := by
  obtain ⟨_, _, finished, ⟨⟩⟩ := Walks.run_bind ran
  obtain ⟨s₁, _, _, done⟩ :=
    Walker.run_finish (walker_sound files.allowance) valid finished
  exact ⟨s₁, done⟩

theorem Call.runOverseen_eq {objection : Option FileStatus → Option FileStatus → Option Stop}
    (accepts : ∀ a b, ReflGen Next a b → objection a b = none) :
    call.runOverseen objection files limits = call.run (Walker.of files limits) := by
  cases call with
  | analyze path => rw [runOverseen, overseen_eq accepts, run, Walker.of]
  | finish =>
    rw [runOverseen, overseen_eq accepts, finishWith_overseen accepts, Walker.finishWith_modify, run,
      Walker.of]

theorem Session.called (session : Session s) : State.initial.Called s := by
  induction session with
  | start => exact .walked (.refl _)
  | call _ ran ih => exact ih.trans (Call.run_again (ih.valid State.initial_valid) ran).1

/-- Between two calls every file has failed, is inferred or finished, and the failed ones are listed.
Whoever oversees all that a call does to files sees each of them make one step at a time, and so they
come from where they were to where they are. The last call leaves none unfinished, and a call that is
made again leaves the whole state as it is. -/
theorem Session.life_of_files (session : Session s)
    (ran : (call.run (Walker.of files limits)).run s = .ok (answer, s')) :
    s'.Settled ∧
      (∀ p status, s'.status? p = some status →
        (status.value?.isSome ↔ status ≠ .failed) ∧ (status.tree?.isSome ↔ status ≠ .failed)) ∧
      (∀ objection, (∀ a b, ReflGen Next a b → objection a b = none) →
        (call.runOverseen objection files limits).run s = .ok (answer, s')) ∧
      (∀ p, ReflTransGen Next (s.status? p) (s'.status? p)) ∧
      (call = .finish → ∀ p value tree, s'.status? p ≠ some (.loaded .inferred value tree)) ∧
      (call.run (Walker.of files limits)).run s' = .ok (answer, s') := by
  have valid : s.Valid := session.called.valid State.initial_valid
  obtain ⟨called, again⟩ := Call.run_again valid ran
  have settled : s'.Settled := (session.called.trans called).settled State.initial_settled
  refine ⟨settled, fun p status known => ?_, fun objection accepts => ?_, called.next, ?_, again⟩
  · cases settled.files known <;> simp [FileStatus.value?, FileStatus.tree?]
  · rw [Call.runOverseen_eq accepts, ran]
  · rintro rfl p value tree found
    obtain ⟨s₁, rfl⟩ := Call.run_finish valid ran
    rw [State.status?_finish, Option.map_eq_some_iff] at found
    obtain ⟨before, _, inferred⟩ := found
    exact before.finish_ne_inferred inferred

end

/-- A file is analysed, and then the end is made. -/
def Session.whole (files : FileSystem) : Analysis (Except Error Unit) := do
  let _ ← (Call.analyze (.ofString "/a.py")).run (Walker.of files {})
  Call.finish.run (Walker.of files {})

/-- A session that can be evaluated ends with what evaluating it shows. -/
theorem Session.exists_whole (files : FileSystem) {P : State → Prop} [∀ s, Decidable (P s)]
    (evaluated : ((whole files).run State.initial).toOption.any (fun r => decide (P r.2)) = true) :
    ∃ s s' answer, Session s ∧
      (Call.finish.run (Walker.of files {})).run s = .ok (answer, s') ∧ P s' := by
  obtain ⟨answer, s', ran, holds⟩ := Walks.exists_run (P := fun _ s' => P s') evaluated
  obtain ⟨_, s, analysed, finished⟩ := Walks.run_bind ran
  exact ⟨s, s', answer, .call .start analysed, finished, holds⟩

/-- Two files that import one another. -/
def cycle : FileSystem := ((MemoryTree.file {} "a.py" "import b").file "b.py" "import a").fileSystem

open Classical in
theorem cycle_life_of_files : ∃ s s' answer answer' objection,
    (∀ a b, objection a b = none ↔ ReflGen Next a b) ∧
    (((Call.analyze (.ofString "/a.py")).run (Walker.of cycle {})).run .initial = .ok (answer, s) ∧
      s.Settled ∧
      ((Call.analyze (.ofString "/a.py")).runOverseen objection cycle {}).run .initial =
        .ok (answer, s)) ∧
    (Call.finish.run (Walker.of cycle {})).run s = .ok (answer', s') ∧ s'.Settled ∧
    (s'.status? (.ofString "/b.py")).bind (·.stage?) = some .finished ∧
    (Call.finish.runOverseen objection cycle {}).run s = .ok (answer', s') ∧
    (Call.finish.run (Walker.of cycle {})).run s' = .ok (answer', s') := by
  obtain ⟨answer', s', ran, finished⟩ := Walks.exists_run (m := Session.whole cycle) (s := .initial)
    (P := fun _ s' => (s'.status? (.ofString "/b.py")).bind (·.stage?) = some .finished)
    (by decide +kernel)
  obtain ⟨answer, s, analysed, ran⟩ := Walks.run_bind ran
  let objection (a b : Option FileStatus) : Option Stop :=
    if ReflGen Next a b then none else some .endless
  have accepts (a b : Option FileStatus) : objection a b = none ↔ ReflGen Next a b := by
    simp [objection]
  obtain ⟨rest, _, overseen, -⟩ := Session.start.life_of_files analysed
  obtain ⟨rest', _, overseen', _, _, again⟩ := (Session.start.call analysed).life_of_files ran
  exact ⟨s, s', answer, answer', objection, accepts,
    ⟨analysed, rest, overseen objection fun a b => (accepts a b).mpr⟩,
    ran, rest', finished, overseen' objection fun a b => (accepts a b).mpr, again⟩

end FlowTypes
