import FlowTypes.Proofs.ReturnedTypes
import FlowTypes.Proofs.Watch.Session

/-! The frames of the functions that are being applied. A function is on them at most once, and
whoever is applied leaves them as they were. -/
namespace FlowTypes

open Analysis

namespace State

/-- No function is being applied twice. -/
def Distinct (s : State) : Prop := (s.frames.map (·.function)).Nodup

instance : DecidablePred Distinct := fun _ => inferInstanceAs (Decidable (List.Nodup _))

theorem Distinct.of_frames {s s' : State} (distinct : s.Distinct) (same : s'.frames = s.frames) :
    s'.Distinct := by
  rwa [Distinct, same]

theorem Distinct.enter {s : State} (distinct : s.Distinct) (new : s.isApplied fn = false) :
    (s.enter fn).Distinct := by
  refine List.nodup_cons.mpr ⟨fun member => ?_, distinct⟩
  obtain ⟨frame, there, rfl⟩ := List.mem_map.mp member
  simp only [isApplied, List.any_eq_false, decide_eq_true_eq] at new
  exact new frame there rfl

end State

namespace Discipline

/-- Nothing is expected. -/
def free : Discipline where
  check := fun _ => none
  stop := .endless
  Stops := False
  Inv := fun _ _ => True
  Taken := fun _ _ _ _ => True
  Left := fun _ _ _ => True
  passes := fun _ => rfl
  quiet := fun _ _ => trivial
  yields := fun _ _ _ => trivial
  meets := fun _ _ _ _ => trivial
  loaded := fun _ _ => ⟨.full, fun _ _ => trivial, trivial, fun _ _ _ => trivial⟩
  taken := fun _ _ _ _ => trivial
  taken_quiet := fun _ _ => trivial
  answered := fun _ _ => trivial
  entered := fun _ _ _ => .inl ⟨.full, trivial, trivial, fun _ _ _ _ => trivial⟩
  left_quiet := fun _ _ => trivial
  recorded := fun _ _ _ => trivial

/-- No function is being applied twice. -/
def distinct (stop : Stop) : Discipline where
  check := State.insist State.Distinct stop
  stop := stop
  Stops := False
  Inv := fun _ s => s.Distinct
  Taken := fun _ _ _ s => s.Distinct
  Left := fun _ _ s => s.Distinct
  passes := fun inv => if_pos inv
  quiet := fun inv quietly => inv.of_frames quietly.frames
  yields := fun _ inv innermost => by
    unfold State.Distinct at inv ⊢
    rw [innermost] at inv
    exact inv
  meets := fun inv _ meets _ => inv.of_frames meets.frames
  loaded := fun inv _ => ⟨.full, fun _ _ => trivial, inv, fun _ inv' _ => inv'⟩
  taken := fun inv _ _ _ => inv
  taken_quiet := fun taken quietly => taken.of_frames quietly.frames
  answered := fun taken _ => taken
  entered := fun taken new _ =>
    .inl ⟨.full, trivial, taken.enter new, fun _ _ later _ => taken.of_frames later.frames.2⟩
  left_quiet := fun left quietly => left.of_frames quietly.frames
  recorded := fun _ _ left => left

end Discipline

theorem Walker.frames_apply {files : FileSystem} {limits : Limits}
    (ran : ((walker files limits n).apply fn args span).run s = .ok (v, s')) :
    s'.frames = s.frames := by
  have tracks : (Watch.of .free files limits n).Tracks .full false fun w => w.apply fn args span :=
    Watch.tracks_apply (Watch.holds .free files limits n)
  obtain ⟨_, known⟩ := (tracks s trivial).same id
  exact (known v s' ran).2.frames

theorem Call.frames_run {call : Call} (outside : s.frames = [])
    (ran : (call.run (Walker.of files limits)).run s = .ok (answer, s')) : s'.frames = [] := by
  have holds := Watch.holds .free files limits files.allowance
  have tracks := Watch.tracks_call (D := .full) holds
    (Watch.tracksRound holds fun _ _ _ _ _ => trivial) call s trivial
  obtain ⟨_, known⟩ := tracks.same id
  have same := (known answer s' ran).2.frames.1
  rw [outside] at same
  exact List.map_eq_nil_iff.mp same

theorem Session.frames (session : Session s) : s.frames = [] := by
  induction session with
  | start => rfl
  | call _ ran ih => exact Call.frames_run ih ran

/-- A call that is watched for functions on the frames twice goes as it would without the watch. -/
theorem Call.run_distinct {call : Call} (distinct : s.Distinct) :
    (call.run (Walker.watchedOf (State.insist State.Distinct stop) files limits)).run s =
      (call.run (Walker.of files limits)).run s := by
  have holds := Watch.holds (.distinct stop) files limits files.allowance
  have tracks := Watch.tracks_call (D := .full) holds
    (Watch.tracksRound holds fun _ _ _ inv _ => inv) call s distinct
  exact (tracks.same id).1

/-- Between two calls nothing is being applied. During a call, no expression and no statement is ever
come to with a function on the frames twice: a watch for that does not make a difference. And every
application, in any state, leaves the frames with all that they have yielded as they were. -/
theorem Session.frames_balanced {s : State} (session : Session s) (files : FileSystem)
    (limits : Limits) :
    s.frames = [] ∧
      (∀ (call : Call) (stop : Stop),
        (call.run (Walker.watchedOf (State.insist State.Distinct stop) files limits)).run s =
          (call.run (Walker.of files limits)).run s) ∧
      ∀ (n : Nat) (fn : TypeId) (args : CallArgs) (span : Span) (t t' : State) (v : TypeId),
        ((walker files limits n).apply fn args span).run t = .ok (v, t') →
          t'.frames = t.frames := by
  refine ⟨session.frames, fun call stop => ?_, fun n fn args span t t' v ran => ?_⟩
  · have distinct : s.Distinct := by simp [State.Distinct, session.frames]
    exact Call.run_distinct distinct
  · exact Walker.frames_apply ran

/-- A function that yields a string and calls itself. -/
def looping : FunctionDef Stmt where
  node := ⟨1, default⟩
  name := "g"
  nameSpan := default
  decorators := []
  parameters := []
  returns := none
  isAsync := false
  body := [.expression default (.yield default (some (.string default "s")) false),
    .expression default (.call default (.name default "g") [])]

/-- It is applied inside of another function, which has yielded an integer. -/
def loopingInside : Analysis TypeId := do
  discard ((walker noFiles {} 8).block State.bare.global [.function looping])
  enter .unknown
  yieldValue .int
  (walker noFiles {} 8).apply ⟨10⟩ {} default

theorem looping_balanced : ∃ t v t', t.frames.map (·.yielded) = [some .int] ∧
    ((walker noFiles {} 8).apply ⟨10⟩ {} default).run t = .ok (v, t') ∧
    t'.types.display v = "[str]" ∧ t'.frames = t.frames ∧
    ∀ (call : Call) (stop : Stop),
      (call.run (Walker.watchedOf (State.insist State.Distinct stop) noFiles {})).run State.initial =
        (call.run (Walker.of noFiles {})).run State.initial := by
  obtain ⟨_, same, balanced⟩ := Session.start.frames_balanced noFiles {}
  obtain ⟨v, t', ran, list, outer⟩ : ∃ v t', loopingInside.run State.bare = .ok (v, t') ∧
      t'.types.display v = "[str]" ∧ t'.frames.map (·.yielded) = [some .int] :=
    Walks.exists_run (by decide +kernel)
  obtain ⟨_, _, _, ran⟩ := Walks.run_bind ran
  obtain ⟨_, _, _, ran⟩ := Walks.run_bind ran
  obtain ⟨_, t, _, ran⟩ := Walks.run_bind ran
  have frames := balanced _ _ _ _ _ _ _ ran
  exact ⟨t, v, t', frames ▸ outer, ran, list, frames, same⟩

end FlowTypes
