import FlowTypes.Proofs.Watch.Session

/-! Functions that wait to be applied. A function is taken from the list of those that wait before it is
known whether its body will be walked; it is, because nothing has been recorded of it and it is not
being applied. -/
namespace FlowTypes

open Analysis

namespace TypeStore

variable {s s' : TypeStore} {fn id : TypeId} {l k : Lineage}

/-- Nothing is recorded of what a function returns. -/
def Unrecorded (s : TypeStore) (fn : TypeId) : Prop :=
  ∀ l arrows, s.facts? fn = some (l, arrows) → arrows = []

theorem lineage?_alloc_cases (s : TypeStore) (id : TypeId) :
    (s.alloc t).2.lineage? id = s.lineage? id ∨
      id = ⟨s.size⟩ ∧ (s.alloc t).2.lineage? id = t.facts?.map Prod.fst := by
  rcases s.get_alloc_cases t id with same | ⟨new, own⟩
  · exact .inl (congrArg (Option.map Prod.fst ∘ Ty.facts?) same)
  · exact .inr ⟨new, congrArg (Option.map Prod.fst ∘ Ty.facts?) own⟩

/-- Bound methods have the definitions of the functions that they were made from. -/
def Faithful (s : TypeStore) : Prop :=
  ∀ id l o, s.lineage? id = some l → l.origin = some o → s.lineage? o = some { l with origin := none }

theorem Faithful.rooted (faithful : s.Faithful) : s.Rooted := by
  intro id l o found origin
  exact ⟨_, faithful id l o found origin, rfl⟩

theorem Faithful.of_lineages (faithful : s.Faithful)
    (same : ∀ id, s'.lineage? id = s.lineage? id) : s'.Faithful := by
  intro id l o found origin
  rw [same] at found ⊢
  exact faithful id l o found origin

theorem Calm.faithful (calm : Calm s s') (faithful : s.Faithful) : s'.Faithful := by
  induction calm with
  | agrees same => exact faithful.of_lineages fun id => congrArg (Option.map Prod.fst) (same id)
  | @bound s fn f receiver found =>
    intro id l o new origin
    rcases s.lineage?_alloc_cases id with same | ⟨rfl, own⟩
    · rw [same] at new
      exact lineage?_alloc_of_known (faithful id l o new origin)
    · rw [own] at new
      obtain rfl : _ = l := Option.some.inj new
      obtain rfl : s.originOf fn = o := Option.some.inj origin
      have known := lineage?_of_facts? (facts?_of_function? found)
      have root : f.origin = none := faithful.rooted.originOf known
      have whole : f.lineage = ⟨f.definition, f.native, none⟩ := by rw [FunctionType.lineage, root]
      exact lineage?_alloc_of_known (whole ▸ known)
  | trans _ _ ih ih' => exact ih' (ih faithful)

theorem Calm.unrecorded (calm : Calm s s') (unrecorded : s.Unrecorded fn) : s'.Unrecorded fn := by
  induction calm with
  | agrees same =>
    intro l arrows found
    exact unrecorded l arrows ((same fn).symm.trans found)
  | @bound s g f receiver known =>
    intro l arrows found
    unfold TypeStore.facts? at found
    rcases s.get_alloc_cases (.function
      { f with arrows := [], origin := some (s.originOf g), receiver }) fn with same | ⟨_, own⟩
    · rw [same] at found
      exact unrecorded l arrows found
    · rw [own] at found
      exact (Prod.mk.inj (Option.some.inj found)).2.symm
  | trans _ _ ih ih' => exact ih' (ih unrecorded)

theorem Unrecorded.resultFor? (unrecorded : s.Unrecorded fn) (own : s.originOf fn = fn) :
    s.resultFor? fn arguments = none := by
  unfold TypeStore.resultFor?
  rw [own]
  cases found : s.function? fn with
  | none => rfl
  | some f => simp [unrecorded _ _ (facts?_of_function? found)]

theorem BoundTo.called (known : s.BoundTo fn bound)
    (found : s.lineage? fn = some ⟨some d, none, none⟩) :
    s.originOf bound = fn ∧
      ∃ l, s.lineage? bound = some l ∧ l.definition = some d ∧ l.native = none := by
  rcases known with rfl | ⟨l, own, copied⟩
  · exact ⟨originOf_root found rfl, _, found, rfl, rfl⟩
  · rw [own] at found
    obtain rfl := Option.some.inj found
    exact ⟨originOf_bound (copied rfl) rfl own rfl, _, copied rfl, rfl, rfl⟩

end TypeStore

namespace State

variable {s s' : State} {fn g : TypeId}

/-- The walk is in the body of `fn`, and has just made the scope for it. -/
def isInside (s : State) (fn : TypeId) : Bool :=
  s.hasLocals && s.frames.head?.any (·.function = fn)

/-- A function is the value of a definition and does not wait to be applied. -/
def isGone (s : State) (fn : TypeId) : Bool := fn ∈ s.functions.values ∧ fn ∉ s.uncalled

/-- What there is to notice about `fn`: that the walk is in its body, or that it is gone. -/
def notice (fn : TypeId) (inside gone : Stop) (s : State) : Option Stop :=
  if s.isInside fn then some inside else if s.isGone fn then some gone else none

/-- The body of `fn` has not been walked. -/
structure Idle (fn : TypeId) (s : State) : Prop where
  outside : s.isApplied fn = false
  defined : fn ∈ s.uncalled → ∃ d, s.types.lineage? fn = some ⟨some d, none, none⟩
  unrecorded : s.types.Unrecorded fn
  faithful : s.types.Faithful
  binds : s.Binds

/-- If `fn` is the value of a definition it waits to be applied. -/
structure Waiting (fn : TypeId) (s : State) : Prop extends s.Idle fn where
  listed : fn ∈ s.functions.values → fn ∈ s.uncalled

theorem Idle.isInside (idle : s.Idle fn) : s.isInside fn = false := by
  have outside := idle.outside
  unfold isApplied at outside
  rw [State.isInside, Bool.and_eq_false_iff]
  cases frames : s.frames with
  | nil => exact .inr rfl
  | cons frame rest =>
    rw [frames, List.any_cons, Bool.or_eq_false_iff] at outside
    exact .inr outside.1

theorem Waiting.notice (waiting : s.Waiting fn) : s.notice fn inside gone = none := by
  have here : s.isGone fn = false :=
    decide_eq_false fun ⟨member, absent⟩ => absent (waiting.listed member)
  simp [State.notice, waiting.isInside, here]

theorem Idle.quiet (idle : s.Idle fn) (quietly : s.Quietly s') : s'.Idle fn where
  outside := by
    rw [isApplied, quietly.frames]
    exact idle.outside
  defined := fun member => by
    rw [quietly.uncalled] at member
    obtain ⟨d, found⟩ := idle.defined member
    exact ⟨d, quietly.types.lineage? found⟩
  unrecorded := quietly.types.unrecorded idle.unrecorded
  faithful := quietly.types.faithful idle.faithful
  binds := quietly.binds idle.binds

theorem Waiting.quiet (waiting : s.Waiting fn) (quietly : s.Quietly s') : s'.Waiting fn where
  toIdle := waiting.toIdle.quiet quietly
  listed := by
    rw [quietly.functions, quietly.uncalled]
    exact waiting.listed

theorem Idle.withUncalled (idle : s.Idle fn) {uncalled : List TypeId}
    (among : fn ∈ uncalled → fn ∈ s.uncalled) : Idle fn { s with uncalled } :=
  { idle with defined := fun member => idle.defined (among member) }

theorem Idle.uncall (idle : s.Idle fn) : (s.uncall g).Idle fn :=
  idle.withUncalled fun member => (List.mem_filter.mp member).1

theorem Waiting.withFrames (waiting : s.Waiting fn) {frames : List Frame}
    (outside : frames.any (·.function = fn) = false) : Waiting fn { s with frames } :=
  { waiting with outside := outside }

theorem Meets.faithful (meets : s.Meets d g s') (faithful : s.types.Faithful) :
    s'.types.Faithful := by
  intro id l o found origin
  by_cases own : id = g
  · rw [own, TypeStore.lineage?_of_facts? meets.own] at found
    obtain rfl := Option.some.inj found
    cases origin
  · rw [TypeStore.lineage?, meets.others id own] at found
    exact meets.lineage? (faithful id l o found origin)

theorem Waiting.meets (waiting : s.Waiting fn) (meets : s.Meets d g s') : s'.Waiting fn where
  outside := by
    rw [isApplied, meets.frames]
    exact waiting.outside
  defined := fun member => by
    rw [meets.uncalled, List.mem_append, List.mem_singleton] at member
    rcases member with member | rfl
    · obtain ⟨d, found⟩ := waiting.defined member
      exact ⟨d, meets.lineage? found⟩
    · exact ⟨d, TypeStore.lineage?_of_facts? meets.own⟩
  unrecorded := fun l arrows found => by
    by_cases own : fn = g
    · rw [own, meets.own] at found
      exact (Prod.mk.inj (Option.some.inj found)).2.symm
    · rw [meets.others fn own] at found
      exact waiting.unrecorded l arrows found
  faithful := meets.faithful waiting.faithful
  binds := waiting.binds.mono meets.bound fun _ _ => meets.lineage?
  listed := fun member => by
    rw [meets.functions] at member
    rw [meets.uncalled, List.mem_append, List.mem_singleton]
    rcases InsertionMap.mem_values_insert member with rfl | member
    · exact .inr rfl
    · exact .inl (waiting.listed member)

theorem Waiting.recorded (waiting : s.Waiting fn) (own : s.types.originOf g = g) (other : fn ≠ g) :
    Waiting fn { s with heap.types := (s.types.insertArrow g arrow limits).2 } := by
  have lineages := s.types.lineage?_insertArrow g arrow limits
  refine { waiting with
    defined := fun member => ?_
    unrecorded := fun l arrows found => ?_
    faithful := waiting.faithful.of_lineages lineages
    binds := waiting.binds.mono rfl fun id l found => (lineages id).trans found }
  · obtain ⟨d, found⟩ := waiting.defined member
    exact ⟨d, (lineages fn).trans found⟩
  · have same : (s.types.insertArrow g arrow limits).2.facts? fn = s.types.facts? fn :=
      TypeStore.facts?_insertArrow_of_ne (own.symm ▸ other)
    exact waiting.unrecorded l arrows (same.symm.trans found)

/-- A function that was not made from another one is called while `fn` has not been applied. -/
structure Calls (fn g : TypeId) (s : State) : Prop extends s.Idle fn where
  root : ∃ l, s.types.lineage? g = some l ∧ l.origin = none
  listed : fn ≠ g → fn ∈ s.functions.values → fn ∈ s.uncalled

theorem Calls.originOf (calls : s.Calls fn g) : s.types.originOf g = g := by
  obtain ⟨l, found, root⟩ := calls.root
  exact TypeStore.originOf_root found root

theorem Calls.waiting (calls : s.Calls fn g) (other : fn ≠ g) : s.Waiting fn :=
  { calls with listed := calls.listed other }

theorem Calls.quiet (calls : s.Calls fn g) (quietly : s.Quietly s') : s'.Calls fn g where
  toIdle := calls.toIdle.quiet quietly
  root := by
    obtain ⟨l, found, root⟩ := calls.root
    exact ⟨l, quietly.types.lineage? found, root⟩
  listed := by
    rw [quietly.functions, quietly.uncalled]
    exact calls.listed

theorem Waiting.calls (waiting : s.Waiting fn) (found : s.types.function? callee = some f) :
    (s.uncall (s.types.originOf callee)).Calls fn (s.types.originOf callee) where
  toIdle := waiting.toIdle.uncall
  root := by
    have known := TypeStore.lineage?_of_facts? (TypeStore.facts?_of_function? found)
    cases origin : f.lineage.origin with
    | none => exact ⟨_, (TypeStore.originOf_root known origin).symm ▸ known, origin⟩
    | some o =>
      obtain ⟨k, root, last⟩ := waiting.faithful.rooted callee _ o known origin
      exact ⟨k, (TypeStore.originOf_bound known origin root last).symm ▸ root, last⟩
  listed := fun other member =>
    List.mem_filter.mpr ⟨waiting.listed member, decide_eq_true other⟩

end State

/-- The watch over a function stops at its body. -/
def Discipline.waiting (fn : TypeId) (inside gone : Stop) : Discipline where
  check := State.notice fn inside gone
  stop := inside
  Stops := True
  Inv := fun _ s => s.Waiting fn
  Taken := fun g _ _ s => s.Calls fn g
  Left := fun g _ s => s.Calls fn g ∧ fn ≠ g
  passes := fun waiting => waiting.notice
  quiet := fun waiting quietly => waiting.quiet quietly
  yields := fun _ waiting innermost => by
    have outside := waiting.outside
    rw [State.isApplied, innermost] at outside
    exact waiting.withFrames outside
  meets := fun waiting _ meets _ => waiting.meets meets
  loaded := fun waiting _ => ⟨.full, fun _ _ => trivial, waiting, fun _ waiting' _ => waiting'⟩
  taken := fun waiting found _ _ => waiting.calls found
  taken_quiet := fun calls quietly => calls.quiet quietly
  answered := fun {_ s g _ arguments} calls answer => by
    -- Had `fn` itself been called it would not be answered: it has left the list for its body only.
    refine calls.waiting ?_
    rintro rfl
    rcases answer with applied | known
    · simp [calls.outside] at applied
    · simp [calls.unrecorded.resultFor? calls.originOf] at known
  entered := fun {_ s g _ _} calls new _ => by
    by_cases other : fn = g
    · refine .inr ⟨trivial, fun s' quietly locals => ?_⟩
      simp [State.notice, State.isInside, locals, quietly.frames, State.enter, other]
    · have waiting := calls.waiting other
      refine .inl ⟨.full, trivial, waiting.withFrames ?_, fun s' waiting' later _ => ?_⟩
      · rw [List.any_cons, Bool.or_eq_false_iff]
        exact ⟨decide_eq_false fun same => other same.symm, waiting.outside⟩
      · obtain ⟨l, found, root⟩ := calls.root
        have outside : s'.frames.tail.any (·.function = fn) = false := by
          rw [later.frames.2]
          exact waiting.outside
        have waiting' := waiting'.withFrames outside
        exact ⟨{ waiting' with
          root := ⟨l, later.lineage g l found, root⟩
          listed := fun _ => waiting'.listed }, other⟩
  left_quiet := fun left quietly => ⟨left.1.quiet quietly, left.2⟩
  recorded := fun arrow limits left =>
    (left.1.waiting left.2).recorded left.1.originOf left.2

theorem Analysis.boundTo_bindMethod (binds : s.Binds) (found : s.types.lineage? fn = some l)
    (root : l.origin = none) (ran : (bindMethod fn receiver).run s = .ok (bound, s')) :
    s'.types.BoundTo fn bound := by
  obtain ⟨_, _, ⟨⟩, ran⟩ := Walks.run_bind ran
  dsimp only at ran
  rw [TypeStore.originOf_root found root] at ran
  split at ran
  · next known =>
    cases ran
    exact binds fn receiver _ known
  · obtain ⟨_, s₁, made, ran⟩ := Walks.run_bind ran
    obtain ⟨rfl, rfl⟩ := Prod.mk.inj (Except.ok.inj made)
    cases ran
    exact s.heap.boundTo_bindMethod

namespace Watch

section

variable {W : Watch} {D : Realm} {loud : Bool} {s : State} {fn : TypeId} {d : Definition}
  (holds : W.Holds)

include holds

theorem tracks_apply_bound (taken : W.rule.Taken fn d D (s.uncall fn))
    (found : s.types.lineage? fn = some ⟨some d, none, none⟩) (bound : s.types.BoundTo fn callee) :
    W.TracksAt loud (W.rule.Inv D) s fun v => v.apply callee args span := by
  obtain ⟨origin, l, known, definition, native⟩ := bound.called found
  obtain ⟨_, known⟩ := TypeStore.facts?_of_lineage? known
  obtain ⟨f, here, rfl, _⟩ := TypeStore.function?_of_facts? known
  replace definition : f.definition = some d := definition
  replace native : f.native = none := native
  refine .get_bind ?_
  simp only [here, native, definition, origin]
  exact tracks_applyDefined holds taken

/-- A function with a definition is called for the end. Until then it is pending. -/
theorem tracks_applyUncalled_pending {P : State → Prop}
    (quiet : ∀ s s', P s → s.Quietly s' → P s') (binds : ∀ s, P s → s.Binds)
    (taken : ∀ s, P s → s.types.lineage? fn = some ⟨some d, none, none⟩ →
      W.rule.Taken fn d D (s.uncall fn))
    (pending : P s) (found : s.types.lineage? fn = some ⟨some d, none, none⟩) :
    W.TracksAt loud (W.rule.Inv D) s fun v => v.applyUncalled fn := by
  obtain ⟨_, known⟩ := TypeStore.facts?_of_lineage? found
  obtain ⟨f, here, lineage, _⟩ := TypeStore.function?_of_facts? known
  have definition : f.definition = some d := congrArg Lineage.definition lineage
  refine .get_bind ?_
  simp only [here, definition]
  refine .quiet_bind (Quiet.of Quiet.composed.receiverFor) fun receiver s₁ moved => ?_
  refine .quiet_bind quiet_debug fun _ s₂ moved' => ?_
  have pending := quiet s₁ s₂ (quiet s s₁ pending moved) moved'
  have found := moved'.types.lineage? (moved.types.lineage? found)
  split
  · next receiver =>
    refine .bind (.of_quiet quiet_bindMethod fun _ quietly => quietly)
      fun bound s₃ ran moved _ => ?_
    have copied := boundTo_bindMethod (binds s₂ pending) found rfl ran
    have found := moved.types.lineage? found
    have taken := taken s₃ (quiet s₂ s₃ pending moved) found
    exact (tracks_apply_bound holds taken found copied).bind fun _ _ _ inv _ => .pure inv ()
  · have taken := taken s₂ pending found
    exact (tracks_apply_bound holds taken found (.inl rfl)).bind
      fun _ _ _ inv _ => .pure inv ()

end

variable {files : FileSystem} {limits : Limits} {n : Nat} {fn : TypeId} {inside gone : Stop}
  {s : State} {D : Realm} {loud : Bool}

/-- The function has been taken from the list. Its signature table is empty and it is not being applied,
so its body is walked. -/
theorem tracksRound_waiting : (of (.waiting fn inside gone) files limits n).TracksRound D loud := by
  have holds := holds (.waiting fn inside gone) files limits n
  intro s g rest waiting first
  have among : fn ∈ rest → fn ∈ s.uncalled := fun member => first ▸ List.mem_cons_of_mem g member
  have idle : State.Idle fn { s with uncalled := rest } := waiting.toIdle.withUncalled among
  by_cases own : fn = g
  · subst own
    obtain ⟨d, found⟩ := waiting.defined (first ▸ List.mem_cons_self)
    refine tracks_applyUncalled_pending holds (fun _ _ idle moved => idle.quiet moved)
      (fun _ idle => idle.binds) (fun s idle found => ?_) idle found
    exact { idle.uncall with
      root := ⟨_, found, rfl⟩
      listed := fun other => (other rfl).elim }
  · refine tracks_applyUncalled holds _ { idle with listed := fun member => ?_ }
    have member := waiting.listed member
    rw [first, List.mem_cons] at member
    exact member.resolve_left own

end Watch

/-! ### Sessions -/

section

variable {files : FileSystem} {limits : Limits} {call : Call} {answer : Except Error Unit}
  {s s' : State} {fn : TypeId}

/-- The call comes to the body of the function, in a scope that was made for it, and until then the
function is not gone: there is a watch for that, and it stops the call at the body. -/
def Call.Applies (call : Call) (files : FileSystem) (limits : Limits) (fn : TypeId) (s : State) :
    Prop :=
  ∀ inside gone,
    (call.run (Walker.watchedOf (State.notice fn inside gone) files limits)).run s = .error inside

theorem Call.follows_waiting (waiting : s.Waiting fn) :
    (Discipline.waiting fn inside gone).Follows true (State.Waiting fn) s
      (call.run (Walker.of files limits))
      (call.run (Walker.watchedOf (State.notice fn inside gone) files limits)) :=
  Watch.tracks_call (D := .full) (Watch.holds _ files limits files.allowance)
    Watch.tracksRound_waiting call s waiting

theorem Call.waiting_or_applies (waiting : s.Waiting fn)
    (ran : (call.run (Walker.of files limits)).run s = .ok (answer, s')) :
    s'.Waiting fn ∨ call.Applies files limits fn s := by
  refine or_iff_not_imp_left.mpr fun lost inside gone => ?_
  rcases Call.follows_waiting waiting with ⟨_, known⟩ | ⟨_, stopped⟩
  · exact (lost (known answer s' ran).1).elim
  · exact stopped

/-- Some call of the session that led to a state has come to the body of the function. -/
inductive Session.Applied (fn : TypeId) : State → Prop
  | during {s s' : State} {files : FileSystem} {limits : Limits} {call : Call}
      {answer : Except Error Unit} (session : Session s) (applies : call.Applies files limits fn s)
      (ran : (call.run (Walker.of files limits)).run s = .ok (answer, s')) : Applied fn s'
  | later {s s' : State} {files : FileSystem} {limits : Limits} {call : Call}
      {answer : Except Error Unit} (applied : Applied fn s)
      (ran : (call.run (Walker.of files limits)).run s = .ok (answer, s')) : Applied fn s'

theorem State.initial_faithful : State.initial.types.Faithful := by
  intro id l o found origin
  obtain ⟨arrows, known⟩ := TypeStore.facts?_of_lineage? found
  rw [(State.initial_facts known).2.1] at origin
  cases origin

theorem State.initial_waiting : State.initial.Waiting fn where
  outside := rfl
  defined := by rintro ⟨⟩
  unrecorded := fun l arrows found => (State.initial_facts found).2.2
  faithful := State.initial_faithful
  binds := by rintro _ _ _ ⟨⟩
  listed := by rintro ⟨⟩

theorem Session.waiting_or_applied (session : Session s) : s.Waiting fn ∨ Session.Applied fn s := by
  induction session with
  | start => exact .inl State.initial_waiting
  | call session ran ih =>
    rcases ih with waiting | applied
    · rcases Call.waiting_or_applies waiting ran with waiting | applies
      · exact .inl waiting
      · exact .inr (.during session applies ran)
    · exact .inr (.later applied ran)

end
end FlowTypes
