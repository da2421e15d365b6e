import FlowTypes.Proofs.Walk.Start
import FlowTypes.Proofs.Walk.Statements

/-! Sessions: what the calls on one analysis make of its state, and that nothing is left to do for a
call that is repeated. -/
namespace FlowTypes

open Analysis

variable {s s' : State}

/-! ### Questions to the file system -/

/-- An activity that neither looks at the state nor changes it. -/
def Asks {α : Type} (m : Analysis α) : Prop :=
  ∃ answer : Except Stop α, ∀ s, m.run s = answer.map fun a => (a, s)

namespace Asks

variable {α β : Type} {m : Analysis α} {f : α → Analysis β} {w : Walker}

theorem pure (a : α) : Asks (pure a) := ⟨.ok a, fun _ => rfl⟩

theorem throw : Asks (throw stop : Analysis α) := ⟨.error stop, fun _ => rfl⟩

theorem bind (first : Asks m) (next : ∀ a, Asks (f a)) : Asks (m >>= f) := by
  obtain ⟨answer, known⟩ := first
  cases answer with
  | error stop => exact ⟨.error stop, fun s => by rw [StateT.run_bind, known]; rfl⟩
  | ok a =>
    obtain ⟨answer, known'⟩ := next a
    exact ⟨answer, fun s => by rw [StateT.run_bind, known]; exact known' s⟩

theorem ask : Asks (w.ask p answer) := by
  unfold Walker.ask
  split
  · exact .pure _
  · exact .throw

theorem mapM {xs : List α} (each : ∀ x ∈ xs, Asks (f x)) : Asks (xs.mapM f) := by
  induction xs with
  | nil =>
    rw [List.mapM_nil]
    exact .pure _
  | cons x xs ih =>
    rw [List.mapM_cons]
    refine (each x List.mem_cons_self).bind fun b => ?_
    exact (ih fun y member => each y (List.mem_cons_of_mem x member)).bind fun _ => .pure _

/-- The answer is the same in any state. -/
theorem again (asks : Asks m) (ran : m.run s = .ok (a, s')) :
    s' = s ∧ ∀ t, m.run t = .ok (a, t) := by
  obtain ⟨answer, known⟩ := asks
  rw [known] at ran
  cases answer with
  | error => cases ran
  | ok a =>
    cases ran
    exact ⟨rfl, known⟩

end Asks

namespace Walker

variable {w : Walker}

theorem asks_sources (n : Nat) (dir : Path) : Asks (w.sources n dir) := by
  induction n generalizing dir with
  | zero => exact .throw
  | succ n ih =>
    refine Asks.ask.bind fun entries => ?_
    refine (Asks.mapM fun entry _ => ?_).bind fun found => .pure _
    refine Asks.ask.bind fun isDir => ?_
    split
    · exact ih entry
    · exact .pure _

theorem asks_request (path : Path) : Asks (w.request path) := by
  refine Asks.ask.bind fun kind => ?_
  split
  · exact (asks_sources _ path).bind fun _ => .pure _
  · exact .pure _
  · exact .pure _

end Walker

/-! ### Calls -/

namespace FileStatus

theorem value?_finish (status : FileStatus) : status.finish.value? = status.value? := by
  rcases status with _ | _ | ⟨_ | _ | _ | _, _, _⟩ <;> rfl

theorem finish_finish (status : FileStatus) : status.finish.finish = status.finish := by
  rcases status with _ | _ | ⟨_ | _ | _ | _, _, _⟩ <;> rfl

end FileStatus

namespace State

/-- What the calls on a session can make of a state. -/
inductive Called : State → State → Prop
  | walked {s s' : State} (walked : Walked s s') : Called s s'
  | trans {s s' s'' : State} (first : Called s s') (second : Called s' s'') : Called s s''
  | root {s : State} (root : Option Path) : Called s { s with root }
  /-- A function that nobody called is about to be applied. -/
  | taken {s : State} {fn : TypeId} {rest : List TypeId} (first : s.uncalled = fn :: rest) :
      Called s { s with uncalled := rest }
  | finished {s : State} (done : s.uncalled = []) : Called s s.finish

theorem Walked.root (walked : Walked s s') : s'.root = s.root := by
  induction walked with
  | refl | failure => rfl
  | step step => cases step <;> rfl
  | trans _ _ ih ih' => exact ih'.trans ih
  | application _ _ ih => exact ih
  | load _ _ _ _ _ _ _ _ ih ih₁ ih₂ => exact ih₂.trans (ih₁.trans ih)

theorem Called.valid (called : Called s s') (valid : s.Valid) : s'.Valid := by
  induction called with
  | walked walked => exact (walked.evolves valid).1
  | trans _ _ ih ih' => exact ih' (ih valid)
  | root => exact { valid with }
  | taken first =>
    exact { valid with
      uncalled := fun f member => valid.uncalled f (by simp [first, member]) }
  | finished done =>
    refine { valid with modules := fun status member v found => ?_ }
    obtain ⟨old, there, rfl⟩ := InsertionMap.mem_values_mapValues member
    exact valid.modules old there v (old.value?_finish ▸ found)

end State

theorem State.finish_finish (s : State) : s.finish.finish = s.finish := by
  simp only [finish, InsertionMap.mapValues_mapValues _ FileStatus.finish_finish]

theorem Request.root_root (request : Request) (root : Option Path) :
    request.root (request.root root) = request.root root := by
  cases request with
  | directory => rfl
  | file path => cases root <;> simp [Request.root]

namespace Walker

variable {w : Walker}

section

variable (sound : w.Sound)

include sound

theorem run_loads {paths : List Path} (valid : s.Valid)
    (ran : (paths.forM fun p => discard (w.load p)).run s = .ok ((), s')) :
    Onward s s' ∧ ∀ p ∈ paths, (s'.status? p).isSome = true := by
  induction paths generalizing s with
  | nil =>
    cases ran
    exact ⟨.refl valid, List.forall_mem_nil _⟩
  | cons p paths ih =>
    obtain ⟨_, s₁, ran, rest⟩ := Walks.run_bind ran
    obtain ⟨module, ran⟩ := Walks.run_discard ran
    obtain ⟨on₁, status, known, _⟩ := sound.load p valid _ _ ran
    obtain ⟨on₂, others⟩ := ih on₁.valid rest
    refine ⟨on₁.trans on₂, List.forall_mem_cons.mpr ⟨?_, others⟩⟩
    simp [on₂.walked.status known]

theorem run_applyAll (valid : s.Valid) (ran : (w.applyAll n).run s = .ok ((), s')) :
    s.Called s' ∧ s'.uncalled = [] := by
  induction n generalizing s with
  | zero => cases ran
  | succ n ih =>
    obtain ⟨_, _, ⟨⟩, ran⟩ := Walks.run_bind ran
    split at ran
    · next done =>
      cases ran
      exact ⟨.walked (.refl _), done⟩
    · next fn rest first =>
      obtain ⟨_, _, ⟨⟩, ran⟩ := Walks.run_bind ran
      obtain ⟨_, s₁, applied, ran⟩ := Walks.run_bind ran
      have taken := State.Called.taken first
      have value : s.Value fn := valid.uncalled fn (by simp [first])
      have applies := walks_applyUncalled (s := { s with uncalled := rest }) sound value
      obtain ⟨on, _⟩ := applies (taken.valid valid) _ _ applied
      obtain ⟨called, done⟩ := ih on.valid ran
      exact ⟨taken.trans (.trans (.walked on.walked) called), done⟩

/-- After the end nobody is left who was not called, and every file is finished. -/
theorem run_finish (valid : s.Valid) (ran : w.finish.run s = .ok ((), s')) :
    ∃ s₁, s.Called s₁ ∧ s₁.uncalled = [] ∧ s' = s₁.finish := by
  obtain ⟨_, s₁, applied, ⟨⟩⟩ := Walks.run_bind ran
  obtain ⟨called, done⟩ := run_applyAll sound valid applied
  exact ⟨s₁, called, done, rfl⟩

end

/-! ### Calls that are repeated -/

section

variable {files : FileSystem} {limits : Limits} {n : Nat}

theorem load_again (known : s.status? p = some status) :
    ((walker files limits (n + 1)).load p).run s = .ok (status.value?, s) := by
  have seen : (get : Analysis State).run s = .ok (s, s) := rfl
  refine (Walks.run_bind_eq seen).trans ?_
  rw [known]
  rfl

theorem loads_again {paths : List Path} (known : ∀ p ∈ paths, (s.status? p).isSome = true) :
    (paths.forM fun p => discard ((walker files limits (n + 1)).load p)).run s =
      .ok ((), s) := by
  induction paths with
  | nil => rfl
  | cons p paths ih =>
    obtain ⟨first, others⟩ := List.forall_mem_cons.mp known
    obtain ⟨status, found⟩ := Option.isSome_iff_exists.mp first
    have again : (discard ((walker files limits (n + 1)).load p)).run s = .ok ((), s) :=
      Walks.run_bind_eq (f := fun _ => Pure.pure ()) (load_again found)
    exact (Walks.run_bind_eq again).trans (ih others)

theorem process_again {request : Request} (valid : s.Valid)
    (ran : ((walker files limits (n + 1)).process request).run s = .ok ((), s')) :
    s.Called s' ∧ ((walker files limits (n + 1)).process request).run s' = .ok ((), s') := by
  obtain ⟨_, _, ⟨⟩, ran⟩ := Walks.run_bind ran
  have moved := State.Called.root (s := s) (request.root s.root)
  obtain ⟨on, known⟩ := run_loads (walker_sound (n + 1)) (moved.valid valid) ran
  refine ⟨moved.trans (.walked on.walked), ?_⟩
  have root : request.root s'.root = s'.root := by
    have after : s'.root = request.root s.root := on.walked.root
    rw [after, request.root_root]
  have same : { s' with root := request.root s'.root } = s' := by rw [root]
  exact (Walks.run_bind_eq (Walks.run_modify_eq same)).trans (loads_again known)

theorem analyze_again (valid : s.Valid)
    (ran : ((walker files limits (n + 1)).analyze path).run s = .ok (answer, s')) :
    s.Called s' ∧ ((walker files limits (n + 1)).analyze path).run s' = .ok (answer, s') := by
  obtain ⟨request, s₁, asked, ran⟩ := Walks.run_bind ran
  obtain ⟨rfl, answers⟩ := (asks_request path).again asked
  cases request with
  | error e =>
    cases ran
    exact ⟨.walked (.refl _), Walks.run_bind_eq (answers _)⟩
  | ok request =>
    obtain ⟨_, _, processed, ⟨⟩⟩ := Walks.run_bind ran
    obtain ⟨called, again⟩ := process_again valid processed
    exact ⟨called, (Walks.run_bind_eq (answers _)).trans (Walks.run_bind_eq again)⟩

theorem applyAll_again (done : s.uncalled = []) : (w.applyAll (n + 1)).run s = .ok ((), s) := by
  unfold applyAll
  refine (Walks.run_bind_eq (m := get) rfl).trans ?_
  rw [done]
  rfl

theorem finish_again (sound : w.Sound) (enough : w.files.allowance = n + 1) (valid : s.Valid)
    (ran : w.finish.run s = .ok ((), s')) : s.Called s' ∧ w.finish.run s' = .ok ((), s') := by
  obtain ⟨s₁, called, done, rfl⟩ := run_finish sound valid ran
  refine ⟨called.trans (.finished done), ?_⟩
  have applied : (w.applyAll w.files.allowance).run s₁.finish = .ok ((), s₁.finish) := by
    rw [enough]
    exact applyAll_again done
  exact (Walks.run_bind_eq applied).trans (Walks.run_modify_eq s₁.finish_finish)

end
end Walker
end FlowTypes
