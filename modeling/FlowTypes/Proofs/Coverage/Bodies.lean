import FlowTypes.Proofs.Coverage.Visits
import FlowTypes.Proofs.Waiting

/-! The bodies of functions. A function that does not wait to be applied is being applied, or the walk
has been to all of its body. -/
namespace FlowTypes

open Analysis

namespace TypeStore

variable {s s' : TypeStore} {fn : TypeId}

theorem Faithful.originOf (faithful : s.Faithful) (found : s.function? fn = some f)
    (native : f.native = none) (definition : f.definition = some d) :
    s.lineage? (s.originOf fn) = some ⟨some d, none, none⟩ := by
  have known := lineage?_of_facts? (facts?_of_function? found)
  rw [FunctionType.lineage, native, definition] at known
  cases origin : f.origin with
  | none =>
    rw [origin] at known
    rw [originOf_root known rfl]
    exact known
  | some o =>
    rw [origin] at known
    have root := faithful fn _ o known rfl
    rw [originOf_bound known rfl root rfl]
    exact root

end TypeStore

namespace State

variable {s s' : State} {waiting waiting' : List TypeId} {fn g : TypeId} {d : Definition}

/-- The walk is in the body of a function, or has been to all of it. -/
def Attended (s : State) (fn : TypeId) (d : Definition) : Prop :=
  s.isApplied fn = true ∨ ∀ q ∈ d.sites, s.Visited q

/-- Only functions that wait are not attended. -/
structure Thorough (waiting : List TypeId) (s : State) : Prop where
  classed : s.Classed
  faithful : s.types.Faithful
  binds : s.Binds
  bodies : ∀ node fn, s.functions.get? node = some fn → ∃ d : Definition, d.node.id = node ∧
    s.types.lineage? fn = some ⟨some d, none, none⟩ ∧
    (fn ∈ waiting ∧ s.types.Unrecorded fn ∨ s.Attended fn d)

theorem Attended.mono (attended : s.Attended fn d) (frames : s'.frames = s.frames)
    (grows : s.Grows s') : s'.Attended fn d := by
  rcases attended with applied | visited
  · left
    rwa [isApplied, frames]
  · right
    exact fun q member => (visited q member).mono grows

namespace Thorough

/-- Other functions may wait and others may be being applied, as long as none is left out. -/
theorem regroup (thorough : s.Thorough waiting) {frames : List Frame} {uncalled : List TypeId}
    (waits : ∀ fn d, s.types.lineage? fn = some ⟨some d, none, none⟩ → fn ∈ waiting →
      s.types.Unrecorded fn → fn ∈ waiting' ∨ Attended { s with frames, uncalled } fn d)
    (applied : ∀ fn d, s.types.lineage? fn = some ⟨some d, none, none⟩ → s.isApplied fn = true →
      Attended { s with frames, uncalled } fn d) :
    Thorough waiting' { s with frames, uncalled } where
  classed := thorough.classed
  faithful := thorough.faithful
  binds := thorough.binds
  bodies := by
    intro node fn known
    obtain ⟨d, own, found, ⟨member, unrecorded⟩ | running | visited⟩ := thorough.bodies node fn known
    · rcases waits fn d found member unrecorded with member | attended
      · exact ⟨d, own, found, .inl ⟨member, unrecorded⟩⟩
      · exact ⟨d, own, found, .inr attended⟩
    · exact ⟨d, own, found, .inr (applied fn d found running)⟩
    · refine ⟨d, own, found, .inr (.inr fun q member => (visited q member).mono ?_)⟩
      exact .of_same rfl rfl rfl fun _ known => known

theorem mono (thorough : s.Thorough waiting) (more : waiting ⊆ waiting') : s.Thorough waiting' := by
  apply thorough.regroup
  · exact fun _ _ _ member _ => .inl (more member)
  · exact fun _ _ _ running => .inl running

theorem attend (thorough : s.Thorough (g :: waiting))
    (attended : ∀ d, s.types.lineage? g = some ⟨some d, none, none⟩ → s.types.Unrecorded g →
      s.Attended g d) : s.Thorough waiting := by
  apply thorough.regroup
  · intro fn d found member unrecorded
    rcases List.mem_cons.mp member with rfl | member
    · exact .inr (attended d found unrecorded)
    · exact .inl member
  · exact fun _ _ _ running => .inl running

theorem quiet (thorough : s.Thorough waiting) (quietly : s.Quietly s') : s'.Thorough waiting where
  classed := quietly.grows.classed thorough.classed
  faithful := quietly.types.faithful thorough.faithful
  binds := quietly.binds thorough.binds
  bodies := by
    intro node fn known
    rw [quietly.functions] at known
    obtain ⟨d, own, found, attended⟩ := thorough.bodies node fn known
    refine ⟨d, own, quietly.types.lineage? found, ?_⟩
    rcases attended with ⟨member, unrecorded⟩ | done
    · exact .inl ⟨member, quietly.types.unrecorded unrecorded⟩
    · exact .inr (done.mono quietly.frames quietly.grows)

theorem withFrames (thorough : s.Thorough waiting) {frames : List Frame}
    (applied : ∀ fn d, s.types.lineage? fn = some ⟨some d, none, none⟩ → s.isApplied fn = true →
      Attended { s with frames } fn d) : Thorough waiting { s with frames } := by
  apply thorough.regroup
  · exact fun _ _ _ member _ => .inl member
  · exact applied

theorem withUncalled (thorough : s.Thorough waiting) {uncalled : List TypeId} :
    Thorough waiting { s with uncalled } := by
  apply thorough.regroup
  · exact fun _ _ _ member _ => .inl member
  · exact fun _ _ _ running => .inl running

theorem uncall (thorough : s.Thorough waiting) (among : waiting ⊆ g :: s.uncalled) :
    (s.uncall g).Thorough (g :: (s.uncall g).uncalled) := by
  apply withUncalled
  apply thorough.mono
  intro fn member
  by_cases own : fn = g
  · exact own ▸ List.mem_cons_self
  · have member := (List.mem_cons.mp (among member)).resolve_left own
    exact List.mem_cons_of_mem _ (List.mem_filter.mpr ⟨member, decide_eq_true own⟩)

theorem meets (thorough : s.Thorough s.uncalled) (meets : s.Meets d fn s') (grows : s.Grows s') :
    s'.Thorough s'.uncalled where
  classed := grows.classed thorough.classed
  faithful := meets.faithful thorough.faithful
  binds := thorough.binds.mono meets.bound fun _ _ => meets.lineage?
  bodies := by
    intro node g known
    rw [meets.functions, InsertionMap.get?_insert] at known
    split at known
    · next same =>
      -- The new function waits.
      obtain rfl := Option.some.inj known
      refine ⟨d, same.symm, TypeStore.lineage?_of_facts? meets.own, .inl ⟨?_, ?_⟩⟩
      · rw [meets.uncalled]
        exact List.mem_append_right _ List.mem_cons_self
      · intro l arrows found
        rw [meets.own] at found
        exact (Prod.mk.inj (Option.some.inj found)).2.symm
    · obtain ⟨d', own, found, waits | done⟩ := thorough.bodies node g known
      · have other : g ≠ fn := by
          rintro rfl
          rw [TypeStore.lineage?, meets.fresh] at found
          cases found
        refine ⟨d', own, meets.lineage? found, .inl ⟨?_, ?_⟩⟩
        · rw [meets.uncalled]
          exact List.mem_append_left _ waits.1
        · intro l arrows known
          rw [meets.others g other] at known
          exact waits.2 l arrows known
      · exact ⟨d', own, meets.lineage? found, .inr (done.mono meets.frames grows)⟩

theorem recorded (thorough : s.Thorough waiting)
    (found : s.types.lineage? g = some ⟨some d, none, none⟩)
    (visited : ∀ q ∈ d.sites, s.Visited q) :
    Thorough waiting { s with heap.types := (s.types.insertArrow g arrow limits).2 } := by
  have lineages := s.types.lineage?_insertArrow g arrow limits
  have agrees : TypeStore.Agrees (fun t => some t.isClass) s.types
      (s.types.insertArrow g arrow limits).2 :=
    TypeStore.agrees_insertArrow (fun _ _ => rfl)
  have grows : s.Grows { s with heap.types := (s.types.insertArrow g arrow limits).2 } :=
    .of_same rfl rfl rfl fun id known => (Option.some.inj (agrees id)).trans known
  constructor
  · exact grows.classed thorough.classed
  · exact thorough.faithful.of_lineages lineages
  · exact thorough.binds.mono rfl fun id l known => (lineages id).trans known
  · intro node fn known
    obtain ⟨d', own, found', waits | done⟩ := thorough.bodies node fn known
    · refine ⟨d', own, (lineages fn).trans found', ?_⟩
      by_cases same : fn = g
      · subst same
        rw [found] at found'
        cases found'
        exact .inr (.inr fun q member => (visited q member).mono grows)
      · refine .inl ⟨waits.1, fun l arrows known => ?_⟩
        rw [← TypeStore.originOf_root found rfl] at same
        exact waits.2 l arrows ((TypeStore.facts?_insertArrow_of_ne same).symm.trans known)
    · exact ⟨d', own, (lineages fn).trans found', .inr (done.mono rfl grows)⟩

theorem leave (thorough : s'.Thorough waiting) (later : (s.enter g).Later true s')
    (found : s'.types.lineage? g = some ⟨some d, none, none⟩)
    (visited : ∀ q ∈ d.sites, s'.Visited q) : s'.leave.Thorough waiting := by
  apply thorough.withFrames
  intro fn d' found' applied
  by_cases own : fn = g
  · subst own
    rw [found] at found'
    cases found'
    exact .inr fun q member => (visited q member).mono (.of_same rfl rfl rfl fun _ known => known)
  · left
    have functions : s'.frames.map (·.function) = g :: s.frames.map (·.function) := later.frames.1
    unfold isApplied at applied ⊢
    cases frames : s'.frames with
    | nil =>
      rw [frames] at functions
      cases functions
    | cons frame rest =>
      rw [frames, List.any_cons, Bool.or_eq_true] at applied
      rw [frames] at functions
      obtain ⟨innermost, _⟩ := List.cons.inj functions
      rcases applied with here | outside
      · exact absurd ((of_decide_eq_true here).symm.trans innermost) own
      · rw [List.tail_cons]
        exact outside

end Thorough
end State

/-- No body is left out. -/
def Discipline.thorough : Discipline where
  check := fun _ => none
  stop := .endless
  Stops := False
  Inv := fun _ s => s.Thorough s.uncalled
  Taken := fun g d _ s => s.Thorough (g :: s.uncalled) ∧
    s.types.lineage? g = some ⟨some d, none, none⟩
  Left := fun g _ s => s.Thorough s.uncalled ∧
    ∃ d, s.types.lineage? g = some ⟨some d, none, none⟩ ∧ ∀ q ∈ d.sites, s.Visited q
  passes := fun _ => rfl
  quiet := fun thorough quietly => by
    rw [quietly.uncalled]
    exact thorough.quiet quietly
  yields := fun yielded thorough innermost => by
    apply thorough.withFrames
    intro fn d _ applied
    left
    rw [State.isApplied, innermost] at applied
    exact applied
  meets := fun thorough _ meets grows => thorough.meets meets grows
  loaded := fun thorough _ => ⟨.full, fun _ _ => trivial, thorough, fun _ thorough' _ => thorough'⟩
  taken := fun thorough found native definition =>
    ⟨thorough.uncall (List.subset_cons_self _ _),
      thorough.faithful.originOf found native definition⟩
  taken_quiet := fun taken quietly => by
    constructor
    · rw [quietly.uncalled]
      exact taken.1.quiet quietly
    · exact quietly.types.lineage? taken.2
  answered := fun {_ s g _ arguments} taken answer => by
    apply taken.1.attend
    intro d _ unrecorded
    rcases answer with applied | known
    · exact .inl applied
    · -- Without a record there would be no answer.
      rw [unrecorded.resultFor? (TypeStore.originOf_root taken.2 rfl)] at known
      cases known
  entered := fun {_ s g d _} taken _ _ => by
    refine .inl ⟨.full, trivial, ?_, fun s' thorough later walked => ?_⟩
    · have entered : (s.enter g).Thorough (g :: s.uncalled) := by
        apply taken.1.withFrames
        exact fun fn d _ applied => .inl (Bool.or_eq_true_iff.mpr (.inr applied))
      apply entered.attend
      intro d _ _
      exact .inl (Bool.or_eq_true_iff.mpr (.inl (decide_eq_true rfl)))
    · have found := later.lineage g _ taken.2
      have classed : (s.enter g).Classed := taken.1.classed
      obtain ⟨files, limits, n, f, types, result, ran⟩ := walked
      obtain ⟨_, visited⟩ := visits_bodyWith visits_walker
        _ _ _ classed ran
      refine ⟨thorough.leave later found visited, d, found, fun q member => ?_⟩
      exact (visited q member).mono (.of_same rfl rfl rfl fun _ known => known)
  left_quiet := fun left quietly => by
    obtain ⟨thorough, d, found, visited⟩ := left
    constructor
    · rw [quietly.uncalled]
      exact thorough.quiet quietly
    · exact ⟨d, quietly.types.lineage? found, fun q member => (visited q member).mono quietly.grows⟩
  recorded := fun arrow limits left => by
    obtain ⟨thorough, d, found, visited⟩ := left
    exact thorough.recorded found visited

namespace Watch

variable {files : FileSystem} {limits : Limits} {n : Nat} {D : Realm} {loud : Bool}

theorem tracksRound_thorough : (of .thorough files limits n).TracksRound D loud := by
  have holds := holds .thorough files limits n
  intro s fn rest thorough first
  have popped : State.Thorough (fn :: rest) { s with uncalled := rest } := by
    apply State.Thorough.withUncalled
    rw [← first]
    exact thorough
  by_cases defined : ∃ d, s.types.lineage? fn = some ⟨some d, none, none⟩
  · obtain ⟨d, found⟩ := defined
    apply tracks_applyUncalled_pending (P := fun s => s.Thorough (fn :: s.uncalled)) holds
    · intro s s' thorough quietly
      rw [quietly.uncalled]
      exact thorough.quiet quietly
    · exact fun _ thorough => thorough.binds
    · exact fun _ thorough found => ⟨thorough.uncall (List.Subset.refl _), found⟩
    · exact popped
    · exact found
  · apply tracks_applyUncalled holds
    exact popped.attend fun d found => absurd ⟨d, found⟩ defined

end Watch

section

variable {files : FileSystem} {limits : Limits} {call : Call} {answer : Except Error Unit}
  {s s' : State}

theorem Call.thorough (thorough : s.Thorough s.uncalled)
    (ran : (call.run (Walker.of files limits)).run s = .ok (answer, s')) :
    s'.Thorough s'.uncalled := by
  have holds := Watch.holds .thorough files limits files.allowance
  have tracks := Watch.tracks_call (D := .full) holds Watch.tracksRound_thorough call s thorough
  obtain ⟨_, known⟩ := tracks.same id
  exact (known answer s' ran).1

theorem State.initial_thorough : State.initial.Thorough waiting where
  classed := by rintro _ _ ⟨⟩
  faithful := State.initial_faithful
  binds := by rintro _ _ _ ⟨⟩
  bodies := by rintro _ _ ⟨⟩

theorem Session.thorough (session : Session s) : s.Thorough s.uncalled := by
  induction session with
  | start => exact State.initial_thorough
  | call _ ran ih => exact Call.thorough ih ran

/-- Between two calls nothing is being applied, so the walk has been to all bodies when nobody waits. -/
theorem Session.bodies (session : Session s) (done : s.uncalled = [])
    (known : s.functions.get? node = some fn) : ∃ d : Definition, d.node.id = node ∧
      s.types.lineage? fn = some ⟨some d, none, none⟩ ∧ ∀ q ∈ d.sites, s.Visited q := by
  obtain ⟨d, own, found, waits | attended⟩ := session.thorough.bodies node fn known
  · rw [done] at waits
    cases waits.1
  · refine ⟨d, own, found, attended.resolve_left ?_⟩
    rw [State.isApplied, session.frames]
    exact Bool.false_ne_true

end
end FlowTypes
