import FlowTypes.Proofs.Walk.Files
import FlowTypes.Proofs.Watch.Definitions

/-! Files under watch, and with them the whole walk. -/
namespace FlowTypes.Watch

open Analysis

variable {W : Watch} {D : Realm} {loud : Bool} {s s' : State}

/-! ### Files -/

theorem quietly_setStatus (status : FileStatus)
    (vacant : ∀ old, s.status? p = some old → old.tree? = none) :
    s.Quietly (s.setStatus p status) := by
  refine ⟨rfl, rfl, rfl, ?_, fun binds => binds,
    .of_same rfl rfl rfl fun _ known => known, .refl⟩
  rintro tree ⟨q, old, known, held⟩
  have other : q.components ≠ p.components := by
    intro same
    rw [State.status?_congr same] at known
    rw [vacant old known] at held
    cases held
  exact ⟨q, old, (State.status?_setStatus s status).trans ((if_neg other).trans known), held⟩

theorem quiet_advanceTo : Quiet (advanceTo p stage) := by
  refine .modify fun s => ⟨rfl, rfl, rfl, ?_, fun binds => binds,
    .of_same rfl rfl rfl fun _ known => known, .refl⟩
  rintro tree ⟨q, old, known, held⟩
  have after := State.status?_advance s p q stage
  rw [known] at after
  split at after
  · exact ⟨q, _, after, by cases old <;> exact held⟩
  · exact ⟨q, old, after, held⟩

theorem quiet_finish : Quiet (modify State.finish) := by
  refine .modify fun s => ⟨rfl, rfl, rfl, ?_, fun binds => binds,
    .of_same rfl rfl rfl fun _ known => known, .refl⟩
  rintro tree ⟨q, old, known, held⟩
  refine ⟨q, old.finish, ?_, ?_⟩
  · exact (InsertionMap.get?_mapValues s.modules _ _).trans (congrArg (Option.map _) known)
  · rcases old with _ | _ | ⟨_ | _ | _ | _, _, _⟩ <;> exact held

theorem modules_introduceModule (ran : (introduceModule p tree).run s = .ok (value, s')) :
    s'.modules = s.modules := by
  obtain ⟨_, s₁, made, ran⟩ := Walks.run_bind ran
  obtain ⟨_, _, ⟨⟩, made⟩ := Walks.run_bind made
  obtain ⟨_, rfl⟩ := Prod.mk.inj (Except.ok.inj made)
  cases ran
  rfl

section

variable (holds : W.Holds)

include holds

theorem tracks_walkBody (has : ∀ t ∈ tree.body, D.has (.stmt t)) :
    W.Tracks D true fun v => v.walkBody p tree table := by
  have b := holds.below table
  have has : ∀ q ∈ tree.body.map .stmt, D.setting.Allows q := List.forall_mem_map.mpr has
  have declared : (W.trait true).holds (tree.body.map .stmt) fun _ => declareModule table tree := by
    refine b.bind b.defineImplicit fun _ => ?_
    exact b.bind b.defineImplicit fun _ => holds_declareDefinitions
  refine (declared D has).bind fun _ => .bind (.quiet quiet_advanceTo) fun _ => ?_
  refine .bind (b.discard b.block D has) fun _ => ?_
  exact tracks (b.bind (trait_of_quiet quiet_advanceTo) fun _ => b.debug)

theorem tracks_walkModule (inv : W.rule.Inv D s)
    (vacant : ∀ old, s.status? p = some old → old.tree? = none) :
    W.TracksAt true (W.rule.Inv D) s fun v => v.walkModule p tree := by
  have introduced : W.TracksAt true (fun s' => s'.modules = s.modules ∧ s.Quietly s') s
      fun _ => introduceModule p tree := .of_same rfl fun v s' ran =>
    have quietly := Quiet.of Quiet.composed.introduceModule s v s' ran
    ⟨⟨modules_introduceModule ran, quietly⟩, quietly.later⟩
  refine introduced.bind fun value s₁ _ ⟨same, moved⟩ _ => ?_
  have vacant₁ : ∀ old, s₁.status? p = some old → old.tree? = none := fun old known =>
    vacant old (by rwa [State.status?, same] at known)
  have loaded := quietly_setStatus (.loaded .parsed value tree) vacant₁
  refine .modify_bind loaded.later ?_
  have inv := W.rule.quiet (W.rule.quiet inv moved) loaded
  have held : (s₁.setStatus p (.loaded .parsed value tree)).Holds tree :=
    ⟨p, _, (State.status?_setStatus s₁ _).trans (if_pos rfl), rfl⟩
  -- The realm grows by the file while its body is walked.
  obtain ⟨D', has, inv', narrowed⟩ := W.rule.loaded inv held
  refine .get_bind ?_
  split
  · exact .pure inv value
  · next table _ =>
    refine ((tracks_walkBody holds has _ inv').mono narrowed).bind fun _ _ _ inv _ => ?_
    exact .pure inv value

omit holds in
theorem tracks_fail (inv : W.rule.Inv D s)
    (vacant : ∀ old, s.status? p = some old → old.tree? = none) :
    W.TracksAt loud (W.rule.Inv D) s fun _ => fail p message := by
  have failed := quietly_setStatus .failed vacant
  have moved : s.Quietly { (s.log .warn message).setStatus p .failed with
      failed := s.failed ++ [p] } :=
    { failed with grows := .of_same rfl rfl rfl fun _ known => known }
  refine .of_same rfl ?_
  rintro _ _ ⟨⟩
  exact ⟨W.rule.quiet inv moved, moved.later⟩

theorem tracks_loadStep : W.Tracks D true fun v => v.loadStep p := by
  intro s inv
  refine .get_bind ?_
  split
  · exact .pure inv _
  · next new =>
    have met := quietly_setStatus (s := s) (p := p) .unparsed (by simp [new])
    refine .modify_bind met.later ?_
    have inv := W.rule.quiet inv met
    have vacant : ∀ old, (s.setStatus p .unparsed).status? p = some old → old.tree? = none := by
      intro old known
      rw [State.status?_setStatus, if_pos rfl] at known
      obtain rfl := Option.some.inj known
      rfl
    generalize s.setStatus p .unparsed = s₀ at inv vacant
    refine (tracks_ask holds _ inv).bind fun text s₁ asked _ _ => ?_
    obtain ⟨_, rfl⟩ := Walker.run_ask asked
    split
    · exact (tracks_fail inv vacant).bind fun _ _ _ inv _ => .pure inv none
    · refine .get_bind ?_
      split
      · exact (tracks_fail inv vacant).bind fun _ _ _ inv _ => .pure inv none
      · next tree next _ =>
        have counted : s₁.Quietly { s₁ with nextNode := next } :=
          State.quietly_same rfl rfl rfl rfl rfl rfl rfl rfl
        refine .modify_bind counted.later ?_
        have logged : State.Quietly { s₁ with nextNode := next }
            (({ s₁ with nextNode := next } : State).log .debug s!"parsed {p.toString}") :=
          State.quietly_same rfl rfl rfl rfl rfl rfl rfl rfl
        refine .modify_bind logged.later ?_
        refine (tracks_walkModule holds
          (W.rule.quiet (W.rule.quiet inv counted) logged) vacant).bind fun _ _ _ inv _ => ?_
        exact .pure inv _

end

/-! ### The walk -/

section

variable (rule : Discipline) (files : FileSystem) (limits : Limits)

/-- A walk with so many levels, and the same under the watch of a discipline. -/
def of (n : Nat) : Watch := ⟨rule, walker files limits n,
  FlowTypes.watched rule.check files limits n⟩

variable {rule files limits} {n : Nat} (holds : (of rule files limits n).Holds)

include holds

theorem follows_blockStep (has : ∀ t ∈ body, D.has (.stmt t)) (inv : rule.Inv D s) :
    rule.Follows true (rule.Inv D) s ((walker files limits n).blockStep scope body)
      ((FlowTypes.watched rule.check files limits n).watchedBlock
        (inspect rule.check) scope body) := by
  have folded : ∀ (f : Walker.Flow) s, rule.Inv D s → rule.Follows true (rule.Inv D) s
      (body.foldlM (fun f t => (walker files limits n).stmt scope t >>= f.add) f)
      (body.foldlM (fun f t => inspect rule.check >>= fun _ =>
        (FlowTypes.watched rule.check files limits n).stmt scope t >>= f.add) f) := by
    induction body with
    | nil => exact fun f s inv => TracksAt.pure (W := of rule files limits n) inv f
    | cons t body ih =>
      intro f s inv
      simp only [List.foldlM_cons]
      have h := holds.hereditary scope
      have one : (of rule files limits n).Tracks D true fun v => v.stmt scope t >>= f.add :=
        tracks_site (h.before h.stmt fun flow => h.addFlow) (has t List.mem_cons_self)
      refine (Discipline.Follows.looked (one s inv) (rule.passes inv)).bind fun f' s' _ inv' _ => ?_
      exact ih (fun u member => has u (List.mem_cons_of_mem t member)) f' s' inv'
  refine (folded {} s inv).bind fun f s' _ inv' _ => ?_
  exact tracks (holds.below scope).typeOfFlow s' inv'

omit holds in
theorem tracks_succ {α : Type} {F G : Walker → Analysis α}
    (tracks : (of rule files limits n).Tracks D loud G)
    (plain : F (walker files limits (n + 1)) = G (walker files limits n))
    (watched : F (FlowTypes.watched rule.check files limits (n + 1)) =
      G (FlowTypes.watched rule.check files limits n)) :
    (of rule files limits (n + 1)).Tracks D loud F := by
  intro s inv
  show rule.Follows loud (rule.Inv D) s _ _
  rw [show F (of rule files limits (n + 1)).plain = _ from plain,
    show F (of rule files limits (n + 1)).watched = _ from watched]
  exact tracks s inv

theorem holds_succ : (of rule files limits (n + 1)).Holds where
  level := ⟨files, limits, n + 1, rfl⟩
  files := rfl
  limits := rfl
  expr := fun scope _ has s inv =>
    Discipline.Follows.looked (tracks_site (holds.hereditary scope).exprStep has s inv)
      (rule.passes inv)
  block := fun _ _ has _ inv =>
    Discipline.Follows.looked (follows_blockStep holds has inv) (rule.passes inv)
  assign := fun scope _ _ has =>
    tracks_succ (tracks_site (holds.below scope).assignStep has) rfl rfl
  element := fun _ _ => tracks_succ (tracks holds.calling.elementStep) rfl rfl
  call := fun _ _ _ =>
    tracks_succ (tracks (holds.calling.callStep fun _ _ => tracks_apply holds)) rfl rfl
  load := fun _ => tracks_succ (tracks_loadStep holds) rfl rfl
  refusesExpr := fun _ _ refused => Discipline.refuses refused
  refusesBlock := fun _ _ refused => Discipline.refuses refused

end

theorem holds (rule : Discipline) (files : FileSystem) (limits : Limits) (n : Nat) :
    (of rule files limits n).Holds := by
  induction n with
  | zero =>
    have endless : ∀ {α : Type} {D : Realm} {loud : Bool},
        (of rule files limits 0).Tracks D loud fun _ => (throw .endless : Analysis α) :=
      .quiet .throw
    exact {
      level := ⟨files, limits, 0, rfl⟩
      files := rfl
      limits := rfl
      expr := fun _ _ _ s inv => Discipline.Follows.looked (endless s inv) (rule.passes inv)
      block := fun _ _ _ s inv => Discipline.Follows.looked (endless s inv) (rule.passes inv)
      assign := fun _ _ _ _ => endless
      element := fun _ _ => endless
      call := fun _ _ _ => endless
      load := fun _ => endless
      refusesExpr := fun _ _ refused => Discipline.refuses refused
      refusesBlock := fun _ _ refused => Discipline.refuses refused }
  | succ n ih => exact holds_succ ih

end FlowTypes.Watch
