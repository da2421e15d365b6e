import FlowTypes.Proofs.Heredity.Walks
import FlowTypes.Proofs.Watch.Quiet

/-! Watching a walk. A watched walk looks at the state whenever it comes to an expression, a block or a
statement, and stops when it does not like what it sees. A discipline says what is true of all states
that a walk goes through, and so whether the watch ever stops it. -/
namespace FlowTypes

open Analysis

/-- Stops if there is something about the state to stop for. -/
def Analysis.inspect (check : State → Option Stop) : Analysis Unit := do
  match check (← get) with
  | none => pure ()
  | some stop => throw stop

/-- The check that all states have a property. -/
def State.insist (P : State → Prop) [DecidablePred P] (stop : Stop) (s : State) : Option Stop :=
  if P s then none else some stop

/-- A block is watched before each of its statements. -/
def Walker.watchedBlock (w : Walker) (look : Analysis Unit) (scope : ScopeId) (body : List Stmt) :
    Analysis TypeId := do
  let flow ← body.foldlM (fun (f : Walker.Flow) s => do
    look
    f.add (← w.stmt scope s)) {}
  flow.type

/-- The walk with so many levels, under watch. -/
def watched (check : State → Option Stop) (files : FileSystem) (limits : Limits) : Nat → Walker
  | 0 =>
    { walker files limits 0 with
      expr := fun _ _ => do
        inspect check
        throw .endless
      block := fun _ _ => do
        inspect check
        throw .endless }
  | n + 1 =>
    let w := watched check files limits n
    { files, limits
      expr := fun scope e => do
        inspect check
        w.exprStep scope e
      block := fun scope body => do
        inspect check
        w.watchedBlock (inspect check) scope body
      assign := fun scope target value => w.assignStep scope target value
      element := fun iterable span => w.elementStep iterable span
      call := fun callee args span => w.callStep callee args span
      load := fun path => w.loadStep path }

/-! ### What happens during a walk -/

namespace State

variable {s s' s'' : State} {loud : Bool}

/-- A function is not waiting to be applied any more. -/
def uncall (s : State) (fn : TypeId) : State :=
  { s with uncalled := s.uncalled.filter (· ≠ fn) }

def isApplied (s : State) (fn : TypeId) : Bool := s.frames.any (·.function = fn)

def scopeKinds (s : State) : Array ScopeKind := s.scopes.scopes.map (·.kind)

/-- The latest scope is one of those that applications are made in. -/
def hasLocals (s : State) : Bool := s.scopeKinds.back? = some .function

/-- The definition `d` is met for the first time and gets the value `fn`. -/
structure Meets (s : State) (d : Definition) (fn : TypeId) (s' : State) : Prop where
  unmet : s.functions.get? d.node.id = none
  fresh : s.types.facts? fn = none
  frames : s'.frames = s.frames
  uncalled : s'.uncalled = s.uncalled ++ [fn]
  functions : s'.functions = s.functions.insert d.node.id fn
  modules : s'.modules = s.modules
  bound : s'.boundMethods = s.boundMethods
  own : s'.types.facts? fn = some (⟨some d, none, none⟩, [])
  others : ∀ id, id ≠ fn → s'.types.facts? id = s.types.facts? id

/-- What stays during a walk. A loud one may yield something in the innermost frame. -/
structure Later (loud : Bool) (s s' : State) : Prop where
  frames : if loud then s'.frames.map (·.function) = s.frames.map (·.function) ∧
    s'.frames.tail = s.frames.tail else s'.frames = s.frames
  lineage : ∀ id l, s.types.lineage? id = some l → s'.types.lineage? id = some l
  trees : ∀ tree, s.Holds tree → s'.Holds tree
  grows : s.Grows s'

theorem Later.of_frames (frames : s'.frames = s.frames)
    (lineage : ∀ id l, s.types.lineage? id = some l → s'.types.lineage? id = some l)
    (trees : ∀ tree, s.Holds tree → s'.Holds tree) (grows : s.Grows s') : s.Later loud s' := by
  refine ⟨?_, lineage, trees, grows⟩
  cases loud with
  | false => exact frames
  | true => exact ⟨congrArg _ frames, congrArg _ frames⟩

theorem Quietly.later (quietly : s.Quietly s') : s.Later loud s' :=
  .of_frames quietly.frames (fun _ _ => quietly.types.lineage?) quietly.trees quietly.grows

theorem Later.refl : s.Later loud s := Quietly.refl.later

theorem Later.trans (first : s.Later loud s') (second : s'.Later loud s'') : s.Later loud s'' where
  frames := by
    have before := first.frames
    have after := second.frames
    cases loud with
    | false => exact Eq.trans after before
    | true => exact ⟨after.1.trans before.1, after.2.trans before.2⟩
  lineage := fun id l found => second.lineage id l (first.lineage id l found)
  trees := fun tree held => second.trees tree (first.trees tree held)
  grows := first.grows.trans second.grows

theorem Meets.lineage? {id : TypeId} (meets : s.Meets d fn s')
    (found : s.types.lineage? id = some l) : s'.types.lineage? id = some l := by
  have other : id ≠ fn := by
    rintro rfl
    rw [TypeStore.lineage?, meets.fresh] at found
    cases found
  rwa [TypeStore.lineage?, meets.others id other]

theorem Meets.holds (meets : s.Meets d fn s') (held : s.Holds tree) : s'.Holds tree := by
  obtain ⟨p, status, known, there⟩ := held
  exact ⟨p, status, (congrArg (·.get? p.components) meets.modules).trans known, there⟩

theorem Meets.later (meets : s.Meets d fn s') (grows : s.Grows s') : s.Later loud s' :=
  .of_frames meets.frames (fun _ _ => meets.lineage?) (fun _ => meets.holds) grows

theorem Later.leave (later : (s.enter fn).Later true s') : s.Later loud s'.leave :=
  .of_frames later.frames.2 later.lineage later.trees
    ⟨later.grows.noted, later.grows.met, later.grows.classed⟩

/-- The body of a definition has been walked at some level of a walk. -/
def BodyWalked (d : Definition) (s s' : State) : Prop :=
  ∃ files limits n f types result,
    ((walker files limits n).bodyWith f d types).run s = .ok (result, s')

end State

/-- What is true of the states that a walk goes through. -/
structure Discipline where
  check : State → Option Stop
  stop : Stop
  /-- Whether the watch may stop the walk. -/
  Stops : Prop
  /-- What is true while phrases of a realm are walked. -/
  Inv : Realm → State → Prop
  /-- A function with this definition is called. -/
  Taken : TypeId → Definition → Realm → State → Prop
  /-- The body of a function has been walked. -/
  Left : TypeId → Realm → State → Prop
  passes : ∀ {D s}, Inv D s → check s = none
  quiet : ∀ {D s s'}, Inv D s → s.Quietly s' → Inv D s'
  yields : ∀ {D s frame frames} yielded, Inv D s → s.frames = frame :: frames →
    Inv D { s with frames := { frame with yielded } :: frames }
  meets : ∀ {D s d fn s'}, Inv D s → D.has d.phrase → s.Meets d fn s' → s.Grows s' → Inv D s'
  loaded : ∀ {D s tree}, Inv D s → s.Holds tree →
    ∃ D' : Realm, (∀ t ∈ tree.body, D'.has (.stmt t)) ∧ Inv D' s ∧
      ∀ s', Inv D' s' → s.Later true s' → Inv D s'
  taken : ∀ {D s fn f d}, Inv D s → s.types.function? fn = some f → f.native = none →
    f.definition = some d → Taken (s.types.originOf fn) d D (s.uncall (s.types.originOf fn))
  taken_quiet : ∀ {D s s' g d}, Taken g d D s → s.Quietly s' → Taken g d D s'
  /-- It is being applied already, or its result is known. -/
  answered : ∀ {D s g d arguments}, Taken g d D s →
    s.isApplied g = true ∨ (s.types.resultFor? g arguments).isSome = true → Inv D s
  entered : ∀ {D s g d arguments}, Taken g d D s → s.isApplied g = false →
    s.types.resultFor? g arguments = none →
    (∃ D' : Realm, D'.has d.phrase ∧ Inv D' (s.enter g) ∧
      ∀ s', Inv D' s' → (s.enter g).Later true s' → State.BodyWalked d (s.enter g) s' →
        Left g D s'.leave) ∨
    Stops ∧ ∀ s', (s.enter g).Quietly s' → s'.hasLocals = true → check s' = some stop
  left_quiet : ∀ {D s s' g}, Left g D s → s.Quietly s' → Left g D s'
  recorded : ∀ {D s g} arrow limits, Left g D s →
    Inv D { s with heap.types := (s.types.insertArrow g arrow limits).2 }

/-- Under watch, `m` becomes `m'`. Both do the same and get to a state with the property `P`, unless the
watch stops it. -/
def Discipline.Follows {α : Type} (rule : Discipline) (loud : Bool) (P : State → Prop) (s : State)
    (m m' : Analysis α) : Prop :=
  m'.run s = m.run s ∧ (∀ a s', m.run s = .ok (a, s') → P s' ∧ s.Later loud s') ∨
    rule.Stops ∧ m'.run s = .error rule.stop

namespace Discipline.Follows

variable {rule : Discipline} {loud : Bool} {s : State} {P Q : State → Prop} {α β : Type}
  {m m' : Analysis α} {f f' : α → Analysis β}

theorem same (follows : rule.Follows loud P s m m') (never : ¬rule.Stops) :
    m'.run s = m.run s ∧ ∀ a s', m.run s = .ok (a, s') → P s' ∧ s.Later loud s' :=
  follows.resolve_right fun stopped => never stopped.1

theorem mono (follows : rule.Follows loud P s m m')
    (weaker : ∀ s', P s' → s.Later loud s' → Q s') : rule.Follows loud Q s m m' := by
  rcases follows with ⟨same, known⟩ | stopped
  · refine .inl ⟨same, fun a s' ran => ?_⟩
    obtain ⟨holds, later⟩ := known a s' ran
    exact ⟨weaker s' holds later, later⟩
  · exact .inr stopped

theorem bind (first : rule.Follows loud P s m m')
    (next : ∀ a s', m.run s = .ok (a, s') → P s' → s.Later loud s' →
      rule.Follows loud Q s' (f a) (f' a)) :
    rule.Follows loud Q s (m >>= f) (m' >>= f') := by
  rcases first with ⟨same, known⟩ | ⟨stops, stopped⟩
  · cases ran : m.run s with
    | error stop =>
      have plain : (m >>= f).run s = .error stop := by
        rw [StateT.run_bind, ran]
        rfl
      have watched : (m' >>= f').run s = .error stop := by
        rw [StateT.run_bind, same, ran]
        rfl
      refine .inl ⟨watched.trans plain.symm, fun a s' ended => ?_⟩
      rw [plain] at ended
      cases ended
    | ok result =>
      obtain ⟨a, s'⟩ := result
      obtain ⟨holds, later⟩ := known a s' ran
      have plain : (m >>= f).run s = (f a).run s' := Walks.run_bind_eq ran
      have watched : (m' >>= f').run s = (f' a).run s' := Walks.run_bind_eq (same.trans ran)
      rcases next a s' ran holds later with ⟨same', known'⟩ | ⟨stops, stopped⟩
      · refine .inl ⟨watched.trans (same'.trans plain.symm), fun b s'' ended => ?_⟩
        obtain ⟨holds', later'⟩ := known' b s'' (plain.symm.trans ended)
        exact ⟨holds', later.trans later'⟩
      · exact .inr ⟨stops, watched.trans stopped⟩
  · refine .inr ⟨stops, ?_⟩
    rw [StateT.run_bind, stopped]
    rfl

/-- Where the watch likes what it sees it has no part in what is done. -/
theorem looked (follows : rule.Follows loud P s m m') (passed : rule.check s = none) :
    rule.Follows loud P s m (inspect rule.check >>= fun _ => m') := by
  have seen : (inspect rule.check).run s = .ok ((), s) := by
    show (match rule.check s with
      | none => Pure.pure ()
      | some stop => throw stop : Analysis Unit).run s = _
    rw [passed]
    rfl
  unfold Follows
  rw [Walks.run_bind_eq seen]
  exact follows

end Discipline.Follows

theorem Discipline.refuses {rule : Discipline} (refused : rule.check s = some rule.stop) :
    (inspect rule.check >>= fun _ => m).run s = .error rule.stop := by
  have seen : (inspect rule.check).run s = .error rule.stop := by
    show (match rule.check s with
      | none => Pure.pure ()
      | some stop => throw stop : Analysis Unit).run s = _
    rw [refused]
    rfl
  rw [StateT.run_bind, seen]
  rfl

/-- A walk and the same walk under watch. -/
structure Watch where
  rule : Discipline
  plain : Walker
  watched : Walker

namespace Watch

variable {W : Watch} {D : Realm} {loud : Bool} {s : State} {P Q : State → Prop} {α β : Type}

/-- An activity under watch. -/
def TracksAt (W : Watch) (loud : Bool) (P : State → Prop) (s : State) (F : Walker → Analysis α) :
    Prop :=
  W.rule.Follows loud P s (F W.plain) (F W.watched)

/-- An activity that keeps to the discipline while phrases of a realm are walked. -/
def Tracks (W : Watch) (D : Realm) (loud : Bool) (F : Walker → Analysis α) : Prop :=
  ∀ s, W.rule.Inv D s → W.TracksAt loud (W.rule.Inv D) s F

namespace TracksAt

variable {F : Walker → Analysis α} {G : Walker → α → Analysis β} {m : Analysis α}

theorem of_quiet (quiet : Quiet m) (known : ∀ s', s.Quietly s' → P s') :
    W.TracksAt loud P s fun _ => m :=
  .inl ⟨rfl, fun a s' ran => ⟨known s' (quiet s a s' ran), (quiet s a s' ran).later⟩⟩

theorem of_same (same : F W.watched = F W.plain)
    (known : ∀ a s', (F W.plain).run s = .ok (a, s') → P s' ∧ s.Later loud s') :
    W.TracksAt loud P s F :=
  .inl ⟨congrArg (·.run s) same, known⟩

theorem pure (known : P s) (a : α) : W.TracksAt loud P s fun _ => Pure.pure a := by
  refine .inl ⟨rfl, ?_⟩
  rintro _ _ ⟨⟩
  exact ⟨known, .refl⟩

theorem ran (tracks : W.TracksAt loud P s F) :
    W.TracksAt loud (fun s' => P s' ∧ ∃ a, (F W.plain).run s = .ok (a, s')) s F := by
  rcases tracks with ⟨same, known⟩ | stopped
  · exact .inl ⟨same, fun a s' ran => ⟨⟨(known a s' ran).1, a, ran⟩, (known a s' ran).2⟩⟩
  · exact .inr stopped

theorem mono (tracks : W.TracksAt loud P s F) (weaker : ∀ s', P s' → s.Later loud s' → Q s') :
    W.TracksAt loud Q s F :=
  Discipline.Follows.mono tracks weaker

theorem bind (first : W.TracksAt loud P s F)
    (next : ∀ a s', (F W.plain).run s = .ok (a, s') → P s' → s.Later loud s' →
      W.TracksAt loud Q s' fun v => G v a) :
    W.TracksAt loud Q s fun v => F v >>= G v :=
  Discipline.Follows.bind first next

theorem quiet_bind (quiet : Quiet m)
    (next : ∀ a s', s.Quietly s' → W.TracksAt loud Q s' fun v => G v a) :
    W.TracksAt loud Q s fun v => m >>= G v :=
  bind (of_quiet quiet fun _ quietly => quietly) fun a s' _ quietly _ => next a s' quietly

theorem get_bind {G : Walker → State → Analysis β} (next : W.TracksAt loud Q s fun v => G v s) :
    W.TracksAt loud Q s fun v => get >>= G v :=
  next

theorem modify_bind {G : Walker → Unit → Analysis β} (later : s.Later loud (f s))
    (next : W.TracksAt loud Q (f s) fun v => G v ()) :
    W.TracksAt loud Q s fun v => modify f >>= G v := by
  refine bind (P := (· = f s)) (.inl ⟨rfl, ?_⟩) ?_
  · rintro _ _ ⟨⟩
    exact ⟨rfl, later⟩
  · rintro ⟨⟩ _ _ rfl _
    exact next

theorem inFrame (inside : W.TracksAt true P (s.enter fn) F)
    (left : ∀ s', P s' → (s.enter fn).Later true s' → Q s'.leave) :
    W.TracksAt loud Q s fun v => Analysis.inFrame fn (F v) := by
  have run : ∀ v, (Analysis.inFrame fn (F v)).run s = ((F v).run (s.enter fn)).map fun r =>
      ((r.1, r.2.frames.head?.bind (·.yielded)), r.2.leave) := by
    intro v
    show (F v >>= fun result => leave >>= fun yielded => Pure.pure (result, yielded)).run
      (s.enter fn) = _
    rw [StateT.run_bind]
    cases (F v).run (s.enter fn) <;> rfl
  rcases inside with ⟨same, known⟩ | ⟨stops, stopped⟩
  · refine .inl ⟨by rw [run, run, same], fun a s' ran => ?_⟩
    rw [run] at ran
    cases body : (F W.plain).run (s.enter fn) with
    | error stop =>
      rw [body] at ran
      cases ran
    | ok result =>
      rw [body] at ran
      cases ran
      obtain ⟨holds, later⟩ := known _ _ body
      exact ⟨left _ holds later, later.leave⟩
  · exact .inr ⟨stops, by rw [run, stopped]; rfl⟩

end TracksAt

namespace Tracks

variable {F : Walker → Analysis α} {G : Walker → α → Analysis β} {m : Analysis α}

theorem quiet (quiet : Quiet m) : W.Tracks D loud fun _ => m := fun _ inv =>
  .of_quiet quiet fun _ quietly => W.rule.quiet inv quietly

theorem pure : W.Tracks D loud fun _ => Pure.pure a := quiet .pure

theorem bind (first : W.Tracks D loud F) (next : ∀ a, W.Tracks D loud fun v => G v a) :
    W.Tracks D loud fun v => F v >>= G v :=
  fun s inv => (first s inv).bind fun a s' _ inv' _ => next a s' inv'

theorem get_bind {G : Walker → State → Analysis β} (next : ∀ s, W.Tracks D loud fun v => G v s) :
    W.Tracks D loud fun v => get >>= G v :=
  (quiet .get).bind next

theorem discard (tracks : W.Tracks D loud F) : W.Tracks D loud fun v => discard (F v) :=
  tracks.bind fun _ => .pure

end Tracks

/-- The walk one level further down keeps to the discipline. -/
structure Holds (W : Watch) : Prop where
  level : ∃ files limits n, W.plain = walker files limits n
  files : W.watched.files = W.plain.files
  limits : W.watched.limits = W.plain.limits
  expr : ∀ {D : Realm} (scope : ScopeId) {e : Expr}, D.has (.expr e) →
    W.Tracks D true fun v => v.expr scope e
  block : ∀ {D : Realm} (scope : ScopeId) {body : List Stmt}, (∀ t ∈ body, D.has (.stmt t)) →
    W.Tracks D true fun v => v.block scope body
  assign : ∀ {D : Realm} (scope : ScopeId) {target : Expr} (value : TypeId), D.has (.expr target) →
    W.Tracks D true fun v => v.assign scope target value
  element : ∀ {D : Realm} {loud : Bool} (iterable : TypeId) (span : Span),
    W.Tracks D loud fun v => v.element iterable span
  call : ∀ {D : Realm} {loud : Bool} (callee : TypeId) (args : CallArgs) (span : Span),
    W.Tracks D loud fun v => v.call callee args span
  load : ∀ {D : Realm} (path : Path), W.Tracks D true fun v => v.load path
  refusesExpr : ∀ {s : State} (scope : ScopeId) (e : Expr), W.rule.check s = some W.rule.stop →
    (W.watched.expr scope e).run s = .error W.rule.stop
  refusesBlock : ∀ {s : State} (scope : ScopeId) (body : List Stmt), W.rule.check s = some W.rule.stop →
    (W.watched.block scope body).run s = .error W.rule.stop

end Watch

/-! ### Watching as a trait -/

theorem Stmt.blocks_subset (t : Stmt) : t.blocks ⊆ t.stmts := by
  cases t with
  | function | classDef => exact fun _ member => nomatch member
  | _ => exact fun _ member => member

/-- The walk may come to what is in the realm. -/
def Realm.setting (R : Realm) : Setting where
  expr := fun e => R.has (.expr e)
  stmt := fun t => R.has (.stmt t)
  parts := R.expr
  exprs := R.exprs
  blocks := fun {t _} has member => R.stmts has (t.blocks_subset member)

namespace Watch

variable {W : Watch} {R : Realm} {loud : Bool} {α : Type} {F : Walker → Analysis α}

/-- Keeping to the discipline in every realm that has the places, as a trait. -/
def trait (W : Watch) (loud : Bool) : Trait :=
  ⟨fun A F => ∀ R : Realm, (∀ q ∈ A, R.setting.Allows q) → W.Tracks R loud F⟩

theorem tracks (holds : (W.trait loud).holds [] F) : W.Tracks R loud F :=
  holds R (List.forall_mem_nil _)

theorem tracks_site (holds : (W.trait loud).holds [q] F) (allows : R.setting.Allows q) :
    W.Tracks R loud F :=
  holds R (List.forall_mem_singleton.mpr allows)

theorem trait_of_quiet (quiet : Quiet m) : (W.trait loud).holds A fun _ => m :=
  fun _ _ => .quiet quiet

theorem composed (W : Watch) (loud : Bool) : (W.trait loud).Composed where
  pure := fun _ _ => .pure
  throw := trait_of_quiet .throw
  seq := fun first next R allows => by
    obtain ⟨here, there⟩ := List.forall_mem_append.mp allows
    exact (first R here).bind fun a => next a R there
  same := fun same holds R allows => holds R fun q member => allows q ((same q).mp member)
  site := fun plain holds R allows => holds R ((List.forall_mem_singleton.mp allows).parts plain)
  look := fun _ next R allows => .get_bind fun s => next s R allows
  heap := fun spares => trait_of_quiet (.of (Quiet.composed.heap spares))
  note := fun note => trait_of_quiet (.of (Quiet.composed.note note))
  debug := trait_of_quiet quiet_debug
  bindTo := trait_of_quiet quiet_bindTo

end Watch
end FlowTypes
