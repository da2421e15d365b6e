import FlowTypes.FileSystem.Memory
import FlowTypes.Proofs.Heredity.Activities
import FlowTypes.Proofs.Walk.Logic

/-! Quiet activities: they define no function, apply none and yield nothing. Most of what a walk does is
quiet. -/
namespace FlowTypes

/-! ### Functions in a store -/

/-- Where a function comes from. -/
structure Lineage where
  definition : Option Definition
  native : Option NativeOp
  origin : Option TypeId

def FunctionType.lineage (f : FunctionType) : Lineage := ⟨f.definition, f.native, f.origin⟩

/-- What of a function decides how it is applied. -/
def Ty.facts? : Ty → Option (Lineage × List Arrow)
  | function f => some (f.lineage, f.arrows)
  | _ => Option.none

/-- What a walk leaves alone most of the time: of functions all that decides how they are applied, and
of classes that they are classes. -/
def Ty.core? : Ty → Option (Option (Lineage × List Arrow))
  | function f => some (some (f.lineage, f.arrows))
  | classType _ => some Option.none
  | _ => Option.none

theorem Ty.facts?_eq (t : Ty) : t.facts? = t.core?.join := by
  cases t <;> rfl

theorem Ty.isClass_iff {t : Ty} : t.isClass = true ↔ t.core? = some Option.none := by
  cases t <;> simp [isClass, core?]

namespace TypeStore

variable {s s' s'' : TypeStore} {id : TypeId} {l : Lineage} {arrows : List Arrow}

def facts? (s : TypeStore) (id : TypeId) : Option (Lineage × List Arrow) := (s.get id).facts?

theorem facts?_of_function? (found : s.function? id = some f) :
    s.facts? id = some (f.lineage, f.arrows) := by
  rw [facts?, function?_eq_some.mp found]
  rfl

theorem function?_of_facts? (found : s.facts? id = some (l, arrows)) :
    ∃ f, s.function? id = some f ∧ f.lineage = l ∧ f.arrows = arrows := by
  unfold facts? Ty.facts? at found
  split at found
  · next f here =>
    obtain ⟨rfl, rfl⟩ := Prod.mk.inj (Option.some.inj found)
    exact ⟨f, function?_eq_some.mpr here, rfl, rfl⟩
  · cases found

/-- Where a function of the store comes from. -/
def lineage? (s : TypeStore) (id : TypeId) : Option Lineage := (s.facts? id).map Prod.fst

theorem lineage?_of_facts? (found : s.facts? id = some (l, arrows)) : s.lineage? id = some l := by
  rw [lineage?, found]
  rfl

theorem facts?_of_lineage? (found : s.lineage? id = some l) :
    ∃ arrows, s.facts? id = some (l, arrows) := by
  obtain ⟨⟨l', arrows⟩, known, rfl⟩ := Option.map_eq_some_iff.mp found
  exact ⟨arrows, known⟩

/-- Recording what a function returned changes nothing but its signature table. -/
theorem lineage?_insertArrow (s : TypeStore) (fn : TypeId) (arrow : Arrow) (limits : Limits)
    (id : TypeId) : (s.insertArrow fn arrow limits).2.lineage? id = s.lineage? id := by
  have agrees : Agrees (fun t => t.facts?.map Prod.fst) s (s.insertArrow fn arrow limits).2 :=
    agrees_insertArrow (fun _ _ => rfl)
  exact agrees id

theorem facts?_insertArrow_of_ne (other : id ≠ s.originOf fn) :
    (s.insertArrow fn arrow limits).2.facts? id = s.facts? id := by
  have set : ∀ arrows, (s.setArrows (s.originOf fn) arrows).facts? id = s.facts? id := by
    intro arrows
    unfold setArrows modifyFunction facts?
    split
    · rw [get_set_of_ne other]
    · rfl
  unfold insertArrow
  dsimp only
  split
  · rfl
  · split
    · rfl
    · split
      · exact set _
      · split
        · rfl
        · exact set _

/-- The functions stay as they are, and all that may come are methods bound to a receiver. Classes stay
classes. -/
inductive Calm : TypeStore → TypeStore → Prop
  | agrees {s s' : TypeStore} (same : Agrees Ty.facts? s s')
      (classes : ∀ id, (s.get id).isClass = true → (s'.get id).isClass = true) : Calm s s'
  | bound {s : TypeStore} {fn : TypeId} {f : FunctionType} (receiver : Option TypeId)
      (found : s.function? (s.originOf fn) = some f) :
      Calm s (s.alloc (.function
        { f with arrows := [], origin := some (s.originOf fn), receiver })).2
  | trans {s s' s'' : TypeStore} (first : Calm s s') (second : Calm s' s'') : Calm s s''

theorem Calm.of_core (agrees : Agrees Ty.core? s s') : Calm s s' := by
  refine .agrees (fun id => ?_) fun id known => ?_
  · rw [Ty.facts?_eq, Ty.facts?_eq, agrees id]
  · rwa [Ty.isClass_iff, agrees id, ← Ty.isClass_iff]

theorem Calm.refl : Calm s s := .of_core (.refl s)

theorem facts?_alloc_of_known (t : Ty) (found : s.facts? id = some (l, arrows)) :
    (s.alloc t).2.facts? id = some (l, arrows) := by
  rcases s.get_alloc_cases t id with same | ⟨rfl, _⟩
  · rw [facts?, same]
    exact found
  · have outside : s.get ⟨s.size⟩ = .unknown := get_of_le (Nat.le_refl _)
    rw [facts?, outside] at found
    cases found

theorem lineage?_alloc_of_known (found : s.lineage? id = some l) :
    (s.alloc t).2.lineage? id = some l := by
  obtain ⟨arrows, known⟩ := facts?_of_lineage? found
  exact lineage?_of_facts? (facts?_alloc_of_known t known)

theorem Calm.facts? (calm : Calm s s') (found : s.facts? id = some (l, arrows)) :
    s'.facts? id = some (l, arrows) := by
  induction calm with
  | agrees same => exact (same id).trans found
  | bound => exact facts?_alloc_of_known _ found
  | trans _ _ ih ih' => exact ih' (ih found)

theorem isClass_alloc_of_known (t : Ty) (known : (s.get id).isClass = true) :
    ((s.alloc t).2.get id).isClass = true := by
  rcases s.get_alloc_cases t id with same | ⟨rfl, _⟩
  · rwa [same]
  · have outside : s.get ⟨s.size⟩ = .unknown := get_of_le (Nat.le_refl _)
    rw [outside] at known
    cases known

theorem Calm.isClass (calm : Calm s s') (known : (s.get id).isClass = true) :
    (s'.get id).isClass = true := by
  induction calm with
  | agrees _ classes => exact classes id known
  | bound => exact isClass_alloc_of_known _ known
  | trans _ _ ih ih' => exact ih' (ih known)

theorem Calm.lineage? (calm : Calm s s') (found : s.lineage? id = some l) :
    s'.lineage? id = some l := by
  obtain ⟨arrows, known⟩ := facts?_of_lineage? found
  exact lineage?_of_facts? (calm.facts? known)

/-- A method that was bound is a copy of the function, and of something that is not a function
nothing is made. -/
def BoundTo (s : TypeStore) (fn bound : TypeId) : Prop :=
  bound = fn ∨ ∃ l, s.lineage? fn = some l ∧
    (l.origin = none → s.lineage? bound = some { l with origin := some fn })

theorem BoundTo.mono (known : s.BoundTo fn bound)
    (kept : ∀ id l, s.lineage? id = some l → s'.lineage? id = some l) : s'.BoundTo fn bound := by
  rcases known with same | ⟨l, found, copied⟩
  · exact .inl same
  · exact .inr ⟨l, kept _ _ found, fun root => kept _ _ (copied root)⟩

theorem originOf_of_lineage?_eq_none (none : s.lineage? id = none) : s.originOf id = id := by
  have missing : s.function? id = Option.none := by
    cases found : s.function? id with
    | none => rfl
    | some f =>
      rw [lineage?, facts?_of_function? found] at none
      cases none
  unfold originOf
  cases s.size with
  | zero => rfl
  | succ n => simp [originWithin, missing]

theorem originOf_root (found : s.lineage? id = some l) (root : l.origin = none) :
    s.originOf id = id := by
  obtain ⟨arrows, known⟩ := facts?_of_lineage? found
  obtain ⟨f, here, rfl, _⟩ := function?_of_facts? known
  have origin : f.origin = none := root
  unfold originOf
  cases s.size with
  | zero => rfl
  | succ n => simp [originWithin, here, origin]

/-- Bound methods are made from functions that were not made from others. -/
def Rooted (s : TypeStore) : Prop :=
  ∀ id l o, s.lineage? id = some l → l.origin = some o → ∃ k, s.lineage? o = some k ∧ k.origin = none

theorem originOf_bound (found : s.lineage? id = some l) (origin : l.origin = some o)
    (root : s.lineage? o = some k) (last : k.origin = none) : s.originOf id = o := by
  obtain ⟨arrows, known⟩ := facts?_of_lineage? found
  obtain ⟨f, here, rfl, _⟩ := function?_of_facts? known
  obtain ⟨arrows', known'⟩ := facts?_of_lineage? root
  obtain ⟨g, there, rfl, _⟩ := function?_of_facts? known'
  have step : f.origin = some o := origin
  have stop : g.origin = none := last
  have other : o ≠ id := by
    rintro rfl
    rw [here] at there
    obtain rfl := Option.some.inj there
    rw [step] at stop
    cases stop
  have inside : id.index < s.size := has_of_get (by rw [function?_eq_some.mp here]; simp)
  obtain ⟨n, size⟩ : ∃ n, s.size = n + 1 := Nat.exists_eq_add_one.mpr (by omega)
  unfold originOf
  rw [size]
  cases n with
  | zero => simp [originWithin, here, step, other]
  | succ n => simp [originWithin, here, step, other, there, stop]

/-- What owns a signature table was not made from another function. -/
theorem Rooted.originOf (rooted : s.Rooted) (found : s.lineage? (s.originOf fn) = some k) :
    k.origin = none := by
  cases known : s.lineage? fn with
  | none =>
    rw [originOf_of_lineage?_eq_none known, known] at found
    cases found
  | some l =>
    cases origin : l.origin with
    | none =>
      rw [originOf_root known origin, known] at found
      exact Option.some.inj found ▸ origin
    | some o =>
      obtain ⟨k', root, last⟩ := rooted fn l o known origin
      rw [originOf_bound known origin root last, root] at found
      exact Option.some.inj found ▸ last

end TypeStore

namespace Heap

theorem calm_bindMethod (h : Heap) (fn receiver : TypeId) :
    h.types.Calm (h.bindMethod fn receiver).2.types := by
  unfold bindMethod
  dsimp only
  split
  · exact .refl
  · next f found => exact .bound (some receiver) found

theorem boundTo_bindMethod (h : Heap) :
    (h.bindMethod fn receiver).2.types.BoundTo fn (h.bindMethod fn receiver).1 := by
  unfold bindMethod
  dsimp only
  split
  · exact .inl rfl
  · next f found =>
    refine .inr ?_
    cases known : h.types.lineage? fn with
    | none =>
      -- What is not a function leads to itself.
      rw [TypeStore.originOf_of_lineage?_eq_none known] at found
      rw [TypeStore.lineage?, TypeStore.facts?_of_function? found] at known
      cases known
    | some l =>
      refine ⟨l, TypeStore.lineage?_alloc_of_known known, fun root => ?_⟩
      have own := TypeStore.originOf_root known root
      rw [own] at found ⊢
      rw [TypeStore.lineage?, TypeStore.facts?_of_function? found] at known
      obtain rfl : f.lineage = l := Option.some.inj known
      exact congrArg (Option.map Prod.fst ∘ Ty.facts?) (TypeStore.get_alloc_new _ _)

end Heap

/-- The functions that there are from the start are not defined in a file, and nothing is bound to
them. -/
theorem State.initial_function {id : TypeId} (found : State.initial.types.get id = .function f) :
    f.definition = none ∧ f.origin = none ∧ f.receiver = none ∧ f.arrows = [] := by
  let plain (t : Ty) : Bool := t.settled?.all fun known => known.getLeft?.all fun f =>
    f.definition.isNone && f.origin.isNone && f.receiver.isNone && f.arrows.isEmpty
  have all : State.initial.types.types.all plain = true := by decide +kernel
  have each : plain (State.initial.types.get id) = true := by
    unfold TypeStore.get
    cases there : State.initial.types.types[id.index]? with
    | none => rfl
    | some t => exact Array.all_eq_true_iff_forall_mem.mp all t (Array.mem_of_getElem? there)
  rw [found] at each
  simpa [plain, Ty.settled?, and_assoc] using each

theorem State.initial_facts
    (found : State.initial.types.facts? fn = some (l, arrows)) :
    l.definition = none ∧ l.origin = none ∧ arrows = [] := by
  obtain ⟨f, known, rfl, rfl⟩ := TypeStore.function?_of_facts? found
  obtain ⟨definition, origin, _, unrecorded⟩ :=
    State.initial_function (TypeStore.function?_eq_some.mp known)
  exact ⟨definition, origin, unrecorded⟩

/-! ### Quiet steps -/

theorem Ty.facts?_congr {t t' : Ty} (same : ∀ f, t' = .function f ↔ t = .function f) :
    t'.facts? = t.facts? := by
  cases t' with
  | function f => rw [(same f).mp rfl]
  | _ =>
    cases t with
    | function f => exact absurd ((same f).mpr rfl) nofun
    | _ => rfl

theorem Heap.Spares.calm {h : Heap} (spares : h.Spares own h') : h.types.Calm h'.types := by
  refine .agrees (fun id => Ty.facts?_congr fun f => spares.function) fun id known => ?_
  cases found : h.types.get id with
  | classType c =>
    obtain ⟨c', found', _⟩ := spares.table found
    rw [found']
    rfl
  | _ =>
    rw [found] at known
    cases known

namespace State

variable {s s' s'' : State}

/-- A file that was read with this content. -/
def Holds (s : State) (tree : Module) : Prop :=
  ∃ p status, s.status? p = some status ∧ status.tree? = some tree

/-- What is kept as a bound method was bound to the function. -/
def Binds (s : State) : Prop :=
  ∀ fn receiver bound, s.boundMethods.get? (fn, receiver) = some bound → s.types.BoundTo fn bound

/-- The values of class definitions are classes. -/
def Classed (s : State) : Prop :=
  ∀ node c, s.classes.get? node = some c → (s.types.get c).isClass = true

/-- What a walk does not take back: that a type was noted for a node, and that a definition was met. -/
structure Grows (s s' : State) : Prop where
  noted : ∀ node, (s.nodeTypes.get? node).isSome = true → (s'.nodeTypes.get? node).isSome = true
  met : ∀ node fn, s.functions.get? node = some fn → s'.functions.get? node = some fn
  classed : s.Classed → s'.Classed

theorem Grows.refl : s.Grows s :=
  ⟨fun _ known => known, fun _ _ known => known, fun classed => classed⟩

theorem Grows.trans (first : s.Grows s') (second : s'.Grows s'') : s.Grows s'' where
  noted := fun node known => second.noted node (first.noted node known)
  met := fun node fn known => second.met node fn (first.met node fn known)
  classed := fun classed => second.classed (first.classed classed)

theorem Classed.mono (classed : s.Classed) (same : s'.classes = s.classes)
    (kept : ∀ id, (s.types.get id).isClass = true → (s'.types.get id).isClass = true) :
    s'.Classed := by
  intro node c known
  rw [same] at known
  exact kept c (classed node c known)

theorem Grows.of_same (nodeTypes : s'.nodeTypes = s.nodeTypes) (functions : s'.functions = s.functions)
    (classes : s'.classes = s.classes)
    (kept : ∀ id, (s.types.get id).isClass = true → (s'.types.get id).isClass = true) :
    s.Grows s' where
  noted := fun _ known => nodeTypes ▸ known
  met := fun _ _ known => functions ▸ known
  classed := fun classed => classed.mono classes kept

structure Quietly (s s' : State) : Prop where
  frames : s'.frames = s.frames
  uncalled : s'.uncalled = s.uncalled
  functions : s'.functions = s.functions
  trees : ∀ tree, s.Holds tree → s'.Holds tree
  binds : s.Binds → s'.Binds
  grows : s.Grows s'
  types : s.types.Calm s'.types

theorem Quietly.refl : s.Quietly s :=
  ⟨rfl, rfl, rfl, fun _ held => held, fun binds => binds, .refl, .refl⟩

theorem Quietly.trans (first : s.Quietly s') (second : s'.Quietly s'') : s.Quietly s'' where
  frames := second.frames.trans first.frames
  uncalled := second.uncalled.trans first.uncalled
  functions := second.functions.trans first.functions
  trees := fun tree held => second.trees tree (first.trees tree held)
  binds := fun binds => second.binds (first.binds binds)
  grows := first.grows.trans second.grows
  types := .trans first.types second.types

theorem Binds.mono (binds : s.Binds) (same : s'.boundMethods = s.boundMethods)
    (kept : ∀ id l, s.types.lineage? id = some l → s'.types.lineage? id = some l) : s'.Binds := by
  intro fn receiver bound known
  rw [same] at known
  exact (binds fn receiver bound known).mono kept

theorem quietly_heap {heap : Heap} (calm : s.types.Calm heap.types) : s.Quietly { s with heap } :=
  ⟨rfl, rfl, rfl, fun _ held => held, fun binds => binds.mono rfl fun _ _ => calm.lineage?,
    .of_same rfl rfl rfl fun _ => calm.isClass, calm⟩

theorem quietly_grown (same : s'.heap.types = s.heap.types) (frames : s'.frames = s.frames)
    (uncalled : s'.uncalled = s.uncalled) (functions : s'.functions = s.functions)
    (modules : s'.modules = s.modules) (bound : s'.boundMethods = s.boundMethods)
    (grows : s.Grows s') : s.Quietly s' := by
  refine ⟨frames, uncalled, functions, fun tree held => ?_, fun binds => ?_, grows, ?_⟩
  · obtain ⟨p, status, known, there⟩ := held
    exact ⟨p, status, (congrArg (·.get? p.components) modules).trans known, there⟩
  · exact binds.mono bound fun _ _ known => by rwa [types, same]
  · rw [types, types, same]
    exact .refl

theorem quietly_same (same : s'.heap.types = s.heap.types) (frames : s'.frames = s.frames)
    (uncalled : s'.uncalled = s.uncalled) (functions : s'.functions = s.functions)
    (modules : s'.modules = s.modules) (bound : s'.boundMethods = s.boundMethods)
    (nodeTypes : s'.nodeTypes = s.nodeTypes) (classes : s'.classes = s.classes) :
    s.Quietly s' := by
  refine quietly_grown same frames uncalled functions modules bound ?_
  exact .of_same nodeTypes functions classes fun _ known => by rwa [types, same]

theorem Spares.quietly (spares : s.Spares s') (records : s'.records = s.records) :
    s.Quietly s' := by
  have calm := (spares.heap ⟨0⟩).calm
  have functions : s'.functions = s.functions := congrArg Register.functions spares.register
  have modules : s'.modules = s.modules := congrArg Records.modules records
  refine ⟨congrArg Register.frames spares.register, congrArg Register.uncalled spares.register,
    functions, ?_, ?_, ⟨spares.nodeTypes, fun _ _ known => functions ▸ known, ?_⟩, calm⟩
  · rintro tree ⟨p, status, known, there⟩
    exact ⟨p, status, (congrArg (·.get? p.components) modules).trans known, there⟩
  · exact fun binds => binds.mono (congrArg Register.boundMethods spares.register)
      fun _ _ => calm.lineage?
  · exact fun classed => classed.mono (congrArg Register.classes spares.register)
      fun _ => calm.isClass

end State

def Quiet {α : Type} (m : Analysis α) : Prop :=
  ∀ s a s', m.run s = .ok (a, s') → s.Quietly s'

namespace Quiet

open Analysis

variable {α β : Type} {m : Analysis α} {f : α → Analysis β}

theorem pure : Quiet (pure a) := by
  rintro s _ _ ⟨⟩
  exact .refl

theorem throw : Quiet (throw stop : Analysis α) := by
  rintro _ _ _ ⟨⟩

theorem bind (first : Quiet m) (next : ∀ a, Quiet (f a)) : Quiet (m >>= f) := by
  intro s b s'' ran
  obtain ⟨a, s', half, rest⟩ := Walks.run_bind ran
  exact (first s a s' half).trans (next a s' b s'' rest)

theorem modifyGet {f : State → α × State} (quietly : ∀ s : State, s.Quietly (f s).2) :
    Quiet (modifyGet f) := by
  intro s a s' ran
  have result : f s = (a, s') := Except.ok.inj ran
  have moved := quietly s
  rwa [result] at moved

theorem modify {f : State → State} (quietly : ∀ s : State, s.Quietly (f s)) : Quiet (modify f) :=
  modifyGet quietly

theorem get : Quiet get := by
  rintro s _ _ ⟨⟩
  exact .refl

theorem onHeap {f : Heap → α × Heap} (calm : ∀ h : Heap, h.types.Calm (f h).2.types) :
    Quiet (onHeap f) :=
  modifyGet fun s => State.quietly_heap (calm s.heap)

theorem onTypes {f : TypeStore → α × TypeStore}
    (agrees : ∀ t, TypeStore.Agrees Ty.core? t (f t).2) : Quiet (onTypes f) :=
  onHeap fun h => .of_core (agrees h.types)

theorem undefine : Quiet (modifyScopes (·.undefine scope name)) := .onHeap fun _ => .refl

theorem modifyTypes {f : TypeStore → TypeStore}
    (agrees : ∀ t, TypeStore.Agrees Ty.core? t (f t)) : Quiet (modifyTypes f) :=
  onTypes agrees

end Quiet

namespace Analysis

theorem quiet_debug : Quiet (debug text) :=
  .modify fun _ => State.quietly_same rfl rfl rfl rfl rfl rfl rfl rfl

theorem quiet_bindMethod : Quiet (bindMethod fn receiver) := by
  intro s b s' ran
  obtain ⟨_, _, ⟨⟩, ran⟩ := Walks.run_bind ran
  dsimp only at ran
  split at ran
  · cases ran
    exact .refl
  · obtain ⟨bound, s₁, made, ran⟩ := Walks.run_bind ran
    obtain ⟨rfl, rfl⟩ := Prod.mk.inj (Except.ok.inj made)
    cases ran
    have calm := s.heap.calm_bindMethod (s.types.originOf fn) receiver
    refine ⟨rfl, rfl, rfl, fun _ held => held, fun binds g r b known => ?_,
      .of_same rfl rfl rfl fun _ => calm.isClass, calm⟩
    replace known := (InsertionMap.get?_insert _ _ _ _).symm.trans known
    split at known
    · next same =>
      obtain ⟨rfl, rfl⟩ := Prod.mk.inj same
      obtain rfl := Option.some.inj known
      exact s.heap.boundTo_bindMethod
    · exact (binds g r b known).mono fun _ _ => calm.lineage?

theorem quiet_bindTo : Quiet (bindTo object value) := by
  refine Quiet.get.bind fun s => ?_
  dsimp only
  split
  · exact .pure
  · exact .pure
  · exact quiet_bindMethod
  · exact quiet_bindMethod
  · exact quiet_bindMethod
  · exact .pure

theorem quiet_modifyFunction
    (same : ∀ f, (Ty.function (change f)).facts? = (Ty.function f).facts?) :
    Quiet (modifyTypes (·.modifyFunction fn change)) :=
  .modifyTypes fun _ => TypeStore.agrees_modifyFunction fun f _ => congrArg some (same f)

theorem quiet_setDefaults : Quiet (Walker.setDefaults fn defaults) :=
  quiet_modifyFunction fun _ => rfl

end Analysis

namespace Quiet

open Analysis

/-- Being quiet, as a trait. -/
def trait : Trait := ⟨fun _ F => ∀ w, Quiet (F w)⟩

theorem composed : trait.Composed where
  pure := fun _ => .pure
  throw := fun _ => .throw
  seq := fun first next w => (first w).bind fun a => next a w
  same := fun _ holds => holds
  site := fun _ holds => holds
  look := fun _ next w => Quiet.get.bind fun s => next s w
  heap := fun spares _ => .onHeap fun h => (spares ⟨0⟩ h).calm
  note := fun note _ => .modifyGet fun s => (note.spares s).quietly note.records
  debug := fun _ => quiet_debug
  bindTo := fun _ => quiet_bindTo

theorem of (holds : trait.holds A fun _ => m) : Quiet m :=
  holds (walker ({} : MemoryTree).fileSystem {} 0)

end Quiet

/-! ### Classes -/

namespace Analysis

theorem isClass_newClass (ran : (newClass name path parent).run s = .ok (classId, s')) :
    (s'.types.get classId).isClass = true := by
  obtain ⟨rfl, rfl⟩ := Prod.mk.inj (Except.ok.inj ran)
  exact congrArg Ty.isClass (TypeStore.get_alloc_new _ _)

theorem quiet_defineClass : Quiet (defineClass scope d) := by
  refine Quiet.get.bind fun s => ?_
  split
  · exact .pure
  · intro s c s' ran
    obtain ⟨_, _, ⟨⟩, ran⟩ := Walks.run_bind ran
    obtain ⟨classId, s₁, made, ran⟩ := Walks.run_bind ran
    obtain ⟨_, _, ⟨⟩, ran⟩ := Walks.run_bind ran
    have isClass := isClass_newClass made
    have kept : s₁.Quietly { s₁ with classes := s₁.classes.insert d.node.id classId } := by
      refine State.quietly_grown rfl rfl rfl rfl rfl rfl
        ⟨fun _ known => known, fun _ _ known => known, fun classed node c known => ?_⟩
      rw [InsertionMap.get?_insert] at known
      split at known
      · obtain rfl := Option.some.inj known
        exact isClass
      · exact classed node c known
    have rest : Quiet (do
        defineClassAttributes classId
        return classId) :=
      (Quiet.of Quiet.composed.defineClassAttributes).bind fun _ => .pure
    exact ((Quiet.of Quiet.composed.newClass _ _ _ made).trans kept).trans (rest _ _ _ ran)

end Analysis
end FlowTypes
