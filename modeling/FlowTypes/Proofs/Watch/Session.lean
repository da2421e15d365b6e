import FlowTypes.Proofs.FileLifeCycle
import FlowTypes.Proofs.Watch.Walk

/-! Calls on a session under watch. -/
namespace FlowTypes

open Analysis

/-- The walk over the files of a file system, under watch. -/
def Walker.watchedOf (check : State → Option Stop) (files : FileSystem) (limits : Limits) :
    Walker :=
  watched check files limits files.allowance

namespace Watch

variable {W : Watch} {D : Realm} {loud : Bool}

theorem sources_congr {w w' : Walker} (files : w'.files = w.files) :
    w'.sources n dir = w.sources n dir := by
  induction n generalizing dir with
  | zero => rfl
  | succ n ih => simp only [Walker.sources, Walker.ask, files, ih]

theorem request_congr {w w' : Walker} (files : w'.files = w.files) :
    w'.request path = w.request path := by
  simp only [Walker.request, Walker.ask, files, sources_congr files]

section

variable (holds : W.Holds)

include holds

theorem tracks_request : W.Tracks D loud fun v => v.request path := by
  intro s inv
  refine .of_same (request_congr holds.files) fun request s' ran => ?_
  obtain ⟨rfl, _⟩ := (Walker.asks_request path).again ran
  exact ⟨inv, .refl⟩

theorem tracks_process : W.Tracks D true fun v => v.process request := by
  refine .bind (.quiet (.modify fun s => ?_)) fun _ => ?_
  · exact State.quietly_same rfl rfl rfl rfl rfl rfl rfl rfl
  · have c := W.composed true
    exact tracks (Trait.idle (c.forM fun path _ => c.discard fun _ _ => holds.load path))

theorem tracks_analyze : W.Tracks D true fun v => v.analyze path := by
  refine (tracks_request holds).bind fun request => ?_
  split
  · exact .pure
  · exact (tracks_process holds).bind fun _ => .pure

/-- Each function that nobody called is taken from the list and applied. -/
def TracksRound (W : Watch) (D : Realm) (loud : Bool) : Prop :=
  ∀ s fn rest, W.rule.Inv D s → s.uncalled = fn :: rest →
    W.TracksAt loud (W.rule.Inv D) { s with uncalled := rest } fun v => v.applyUncalled fn

theorem tracksRound
    (popped : ∀ s fn rest, W.rule.Inv D s → s.uncalled = fn :: rest →
      W.rule.Inv D { s with uncalled := rest }) : W.TracksRound D loud :=
  fun s fn rest inv first => tracks_applyUncalled holds _ (popped s fn rest inv first)

omit holds in
theorem tracks_applyAll (round : W.TracksRound D loud) (n : Nat) :
    W.Tracks D loud fun v => v.applyAll n := by
  induction n with
  | zero => exact .quiet .throw
  | succ n ih =>
    intro s inv
    refine .get_bind ?_
    split
    · exact .pure inv ()
    · next fn rest first =>
      refine .modify_bind (.of_frames rfl (fun _ _ known => known) (fun _ held => held)
        (.of_same rfl rfl rfl fun _ known => known)) ?_
      exact (round s fn rest inv first).bind fun _ s₁ _ inv _ => ih s₁ inv

theorem tracks_finish (round : W.TracksRound D loud) : W.Tracks D loud fun v => v.finish := by
  have applied : W.Tracks D loud fun v => v.applyAll v.files.allowance := by
    intro s inv
    show W.rule.Follows loud (W.rule.Inv D) s (W.plain.applyAll W.plain.files.allowance)
      (W.watched.applyAll W.watched.files.allowance)
    rw [holds.files]
    exact tracks_applyAll round _ s inv
  exact applied.bind fun _ => .quiet quiet_finish

theorem tracks_call (round : W.TracksRound D true) (call : Call) :
    W.Tracks D true fun v => call.run v := by
  cases call with
  | analyze path => exact tracks_analyze holds
  | finish => exact (tracks_finish holds round).bind fun _ => .pure

end
end Watch
end FlowTypes
