import FlowTypes.Proofs.Walk.Names

/-! Iteration and calls in a walk. -/
namespace FlowTypes

open TypeStore Analysis

variable {s s' : State} {w : Walker}

/-- Arguments that are values. -/
structure CallArgs.Valid (args : CallArgs) (s : State) : Prop where
  positional : s.Values args.positional
  keywords : s.Values args.keywords.values
  star : s.Optional args.star
  doubleStar : s.Optional args.doubleStar

theorem CallArgs.valid_of (h : s.Values ids) : (CallArgs.of ids).Valid s :=
  ⟨h, by simp [State.Values, of, InsertionMap.values], s.optional_none, s.optional_none⟩

theorem CallArgs.valid_none : CallArgs.Valid {} s := valid_of (by simp [State.Values])

theorem Onward.args (on : Onward s s') {args : CallArgs} (h : args.Valid s) : args.Valid s' :=
  ⟨on.values h.positional, on.values h.keywords, on.optional h.star, on.optional h.doubleStar⟩

/-- What loading a file gives: the file is known, with the value of its module if there is one. -/
def State.Loaded (path : Path) (s : State) (module : Option TypeId) : Prop :=
  ∃ status, s.status? path = some status ∧ status.value? = module

/-- The activities of a walk keep states valid and give values. The flow of a block may hold the mark
of its end. -/
structure Walker.Sound (w : Walker) : Prop where
  level : ∃ files limits n, w = walker files limits n
  expr : ∀ {s : State} (scope e), Walks (w.expr scope e) s State.Value
  block : ∀ {s : State} (scope body), Walks (w.block scope body) s State.Has
  assign : ∀ {s : State} (scope target) {value}, s.Value value →
    Walks (w.assign scope target value) s Anything
  element : ∀ {s : State} {iterable} (span), s.Value iterable →
    Walks (w.element iterable span) s State.Value
  call : ∀ {s : State} {callee args} (span), s.Value callee → args.Valid s →
    Walks (w.call callee args span) s State.Value
  load : ∀ {s : State} (path), Walks (w.load path) s (State.Loaded path)

theorem Walks.ask : Walks (w.ask p answer) s Anything := by
  unfold Walker.ask
  split
  · exact .pure trivial
  · exact .throw

namespace Walker

section

variable (sound : w.Sound)

include sound

theorem walks_callMethod (ho : s.Value object)
    (ha : args.Valid s) : Walks (w.callMethod object name args span) s State.Optional := by
  refine (walks_attribute? ho).bind fun found _ on₁ known => ?_
  split
  · exact .pure (State.optional_none _)
  · refine (sound.call span (known _ rfl) (on₁.args ha)).bind fun v _ _ hv => ?_
    exact .pure (State.optional_some hv)

theorem walks_resultOf (ho : s.Value object)
    (ha : args.Valid s) : Walks (w.resultOf object name args span) s State.Value :=
  (walks_callMethod sound ho ha).bind fun _ _ on known =>
    .pure (known.getD on.valid.unknown)

/-! ### Iteration -/

theorem walks_iterate (ho : s.Value object) : Walks (w.iterate object span) s State.Value := by
  refine (walks_callMethod sound ho CallArgs.valid_none).bind fun found s₁ on₁ known => ?_
  have hi := known.getD (on₁.value ho)
  refine .gets_bind ?_
  split
  · exact sound.element span hi
  · refine (walks_callMethod sound hi CallArgs.valid_none).bind
      fun next s₂ on₂ known => ?_
    split
    · exact .pure (known _ rfl)
    · exact walks_resultOf sound (on₂.value hi) CallArgs.valid_none

theorem walks_elementOf {id : TypeId} (hv : s.Value id) :
    Walks (w.elementOf span id) s State.Value := by
  refine .assume fun valid => ?_
  refine .gets_bind ?_
  split
  · next found => exact .pure (valid.mention found (by simp [Ty.mentions]))
  · next d found => exact walks_unionAll fun v member => valid.mention found member
  · next found => exact .pure (valid.mention found (by simp [Ty.mentions]))
  · exact .pure (valid.simple (by decide))
  · exact walks_iterate sound hv
  · exact .pure valid.unknown

theorem walks_elementStep (span : Span) (hv : s.Value iterable) :
    Walks (w.elementStep iterable span) s State.Value :=
  .assume fun valid => .gets_bind (walks_unionOver fun x member _ on =>
    walks_elementOf sound (on.value (valid.alternatives hv x member)))

/-! ### Known functions -/

theorem walks_elementOfArgument (ha : s.Optional argument) :
    Walks (w.elementOfArgument argument span) s State.Value := by
  refine .assume fun valid => ?_
  cases argument with
  | none => exact .pure valid.unknown
  | some v => exact sound.element span (ha v rfl)

theorem walks_dictOf (ha : s.Optional argument)
    (hk : s.Values keywords) : Walks (w.dictOf argument keywords span) s State.Value := by
  refine .assume fun valid => ?_
  unfold dictOf
  split
  · next v =>
    refine .gets_bind ?_
    split
    · exact .pure (ha v rfl)
    · refine (sound.element span (ha v rfl)).bind fun e s₁ on₁ he => .gets_bind ?_
      split
      · next key mapped table found =>
        exact walks_newDict (on₁.valid.mention found (by simp [Ty.mentions]))
          (on₁.valid.mention found (by simp [Ty.mentions]))
      · exact walks_newDict on₁.valid.unknown on₁.valid.unknown
  · split
    · exact walks_newDict valid.unknown valid.unknown
    · refine (walks_unionAll hk).bind fun u s₁ on₁ hu => ?_
      exact walks_newDict (on₁.valid.simple (by decide)) hu

theorem walks_tupleFrom (ha : s.Optional argument) :
    Walks (w.tupleFrom argument span) s State.Value := by
  unfold tupleFrom
  split
  · next v =>
    refine .gets_bind ?_
    split
    · exact .pure (ha v rfl)
    · refine (sound.element span (ha v rfl)).bind fun e _ _ he => ?_
      exact walks_newTuple (by simpa [State.Values] using he)
  · exact walks_newTuple (by simp [State.Values])

omit sound in
theorem walks_elementsOf : Walks (elementsOf argument) s State.Value := by
  refine .assume fun valid => ?_
  unfold elementsOf
  split
  · refine .gets_bind ?_
    split
    · next found => exact .pure (valid.mention found (by simp [Ty.mentions]))
    · exact .pure valid.unknown
  · exact .pure valid.unknown

omit sound in
theorem walks_entryOf :
    Walks (entryOf argument) s fun s' entry => s'.Value entry.1 ∧ s'.Value entry.2 := by
  refine .assume fun valid => ?_
  have neither : s.Value .unknown ∧ s.Value .unknown := ⟨valid.unknown, valid.unknown⟩
  unfold entryOf
  split
  · refine .gets_bind ?_
    split
    · next d found =>
      exact .pure ⟨valid.mention found (by simp [Ty.mentions]),
        valid.mention found (by simp [Ty.mentions])⟩
    · exact .pure neither
  · exact .pure neither

omit sound in
theorem walks_store (hv : s.Optional value) : Walks (store list value) s Anything := by
  unfold store
  split
  · exact walks_widenList (hv _ rfl)
  · exact .pure trivial

omit sound in
theorem optional_getElem? (h : s.Values ids) (i : Nat) : s.Optional ids[i]? :=
  fun v found => h v (List.mem_of_getElem? found)

theorem walks_native (hop : s.Values op.mentions)
    (hr : s.Optional receiver) (ha : args.Valid s) :
    Walks (w.native op receiver args span) s State.Value := by
  refine .assume fun valid => ?_
  have values : s.Values (receiver.toList ++ args.positional) := by
    intro v member
    rcases List.mem_append.mp member with member | member
    · exact hr v (Option.mem_toList.mp member)
    · exact ha.positional v member
  have at? := optional_getElem? values
  unfold native
  generalize receiver.toList ++ args.positional = positional at values at? ⊢
  dsimp only
  cases op with
  | returns type => exact .pure (hop type (by simp [NativeOp.mentions]))
  | firstArgument => exact .pure ((at? 0).getD valid.unknown)
  | elementOfFirst => exact walks_elementOfArgument sound (at? 0)
  | listOfFirst =>
    refine (walks_elementOfArgument sound (at? 0)).bind fun e s₁ on₁ he => ?_
    exact walks_newListOf he
  | tupleOfFirst => exact walks_tupleFrom sound (at? 0)
  | dictOfFirst => exact walks_dictOf sound (at? 0) ha.keywords
  | minMax =>
    dsimp only
    split
    · exact walks_elementOfArgument sound (at? 0)
    · exact walks_unionAll values
  | sum =>
    refine (walks_elementOfArgument sound (at? 0)).bind fun e s₁ on₁ he => ?_
    refine .pure ?_
    split
    · exact on₁.valid.simple (by decide)
    · exact he
  | range => exact walks_newListOf (valid.simple (by decide))
  | enumerate =>
    refine (walks_elementOfArgument sound (at? 0)).bind fun e s₁ on₁ he => ?_
    have pair : s₁.Values [.int, e] := by
      simpa [State.Values] using ⟨on₁.valid.simple (by decide), he⟩
    refine (walks_newTuple pair).bind fun t s₂ on₂ ht => ?_
    exact walks_newListOf ht
  | zip =>
    refine (walks_mapM_values fun v member s' on =>
      sound.element span (on.value (values v member))).bind fun es s₁ on₁ he => ?_
    refine (walks_newTuple he).bind fun t s₂ on₂ ht => ?_
    exact walks_newListOf ht
  | round => exact .pure (valid.simple (by decide))
  | getAttr =>
    dsimp only
    split
    · next fallback found => exact walks_union valid.unknown (at? 2 fallback found)
    · exact .pure valid.unknown
  | listAppend =>
    refine (walks_store (at? 1)).bind fun _ s₁ on₁ _ => ?_
    exact .pure (on₁.valid.simple (by decide))
  | listInsert =>
    refine (walks_store (at? 2)).bind fun _ s₁ on₁ _ => ?_
    exact .pure (on₁.valid.simple (by decide))
  | listExtend =>
    dsimp only
    split
    · next found =>
      refine (sound.element span (at? 1 _ found)).bind fun e s₁ on₁ he => ?_
      refine (walks_widenList he).bind fun _ s₂ on₂ _ => ?_
      exact .pure (on₂.valid.simple (by decide))
    · exact .pure (valid.simple (by decide))
  | listPop => exact walks_elementsOf
  | dictKeys =>
    refine walks_entryOf.bind fun entry s₁ on₁ he => ?_
    exact walks_newListOf he.1
  | dictValues =>
    refine walks_entryOf.bind fun entry s₁ on₁ he => ?_
    exact walks_newListOf he.2
  | dictItems =>
    refine walks_entryOf.bind fun entry s₁ on₁ he => ?_
    have pair : s₁.Values [entry.1, entry.2] := by simpa [State.Values] using he
    refine (walks_newTuple pair).bind fun t s₂ on₂ ht => ?_
    exact walks_newListOf ht
  | dictGet =>
    refine walks_entryOf.bind fun entry s₁ on₁ he => ?_
    exact walks_union he.2
      ((on₁.optional (at? 2)).getD (on₁.valid.simple (by decide)))
  | strSplit => exact walks_newListOf (valid.simple (by decide))

end
end Walker

/-! ### Arguments -/

namespace Analysis

theorem walks_bindParameters {star : Option TypeId} (hs : s.Optional star) (hd : s.Optional doubleStar)
    (hf : ∀ p ∈ parameters, s.Optional p.2) (hp : s.Values supply.positional)
    (hk : s.Values supply.keywords.values) :
    Walks (bindParameters star doubleStar parameters supply) s State.Values := by
  induction parameters generalizing supply s with
  | nil => exact .pure (by simp [State.Values])
  | cons parameter parameters ih =>
    refine .assume fun valid => ?_
    obtain ⟨p, fallback⟩ := parameter
    -- The types of the other parameters follow that of the first.
    have rest : ∀ {s₁ : State} {type : TypeId} {supply : Supply}, Onward s s₁ → s₁.Value type →
        s₁.Values supply.positional → s₁.Values supply.keywords.values →
        Walks (do return type :: (← bindParameters star doubleStar parameters supply)) s₁
          State.Values := by
      intro s₁ type supply on hv hp hk
      have others : ∀ q ∈ parameters, s₁.Optional q.2 := fun q member =>
        on.optional (hf q (List.mem_cons_of_mem _ member))
      refine (ih (on.optional hs) (on.optional hd) others hp hk).bind
        fun types s₂ on₂ known => .pure fun v member => ?_
      rcases List.mem_cons.mp member with rfl | member
      · exact on₂.value hv
      · exact known v member
    unfold bindParameters
    split
    · split
      · next type others found =>
        have values : s.Values (type :: others) := found ▸ hp
        exact rest (.refl valid) (values type List.mem_cons_self)
          (fun v member => values v (List.mem_cons_of_mem type member)) hk
      · split
        · next type found =>
          exact rest (.refl valid) (hk type (InsertionMap.mem_values_of_get? found)) hp
            fun v member => hk v (InsertionMap.mem_values_erase member)
        · have own : s.Optional fallback := hf _ List.mem_cons_self
          exact rest (.refl valid) (((hs.or own).or hd).getD valid.unknown) hp hk
    · refine (walks_newTuple hp).bind fun tuple s₁ on₁ ht => ?_
      exact rest on₁ ht (by simp [State.Values]) (on₁.values hk)
    · have values : s.Values (supply.keywords.values ++ doubleStar.toList) := by
        intro v member
        rcases List.mem_append.mp member with member | member
        · exact hk v member
        · exact hd v (Option.mem_toList.mp member)
      refine (walks_unionAll values).bind fun u s₁ on₁ hu => ?_
      have key : s₁.Value .str := on₁.valid.simple (by decide)
      refine (walks_newDict key hu).bind fun dict s₂ on₂ hd => ?_
      exact rest (on₁.trans on₂) hd (on₂.values (on₁.values hp))
        (by simp [State.Values, InsertionMap.values])

theorem walks_parameterTypes
    (hd : ∀ d ∈ defaults, s.Optional d) (hp : s.Values positional) (ha : args.Valid s) :
    Walks (parameterTypes definition defaults positional args) s State.Values := by
  refine .assume fun valid => ?_
  refine .get_bind (walks_bindParameters ha.star ?_ ?_ hp ha.keywords)
  · intro v found
    obtain ⟨dict, _, mapped⟩ := Option.bind_eq_some_iff.mp found
    split at mapped
    · next d entries =>
      cases mapped
      exact valid.mention entries (by simp [Ty.mentions])
    · cases mapped
  · intro p member v found
    obtain ⟨⟨q, i⟩, _, rfl⟩ := List.mem_map.mp member
    exact hd _ (List.mem_of_getElem? (Option.join_eq_some_iff.mp found)) v rfl

/-! ### Results -/

theorem walks_remove_cont (hf : s.Has flow) : Walks (remove flow .cont) s State.Optional :=
  .assume fun valid => walks_onTypes (.remove .cont hf) (valid.heap.sound.remove_cont hf)

theorem walks_returnOfFlow (hf : s.Has flow) :
    Walks (returnOfFlow flow name span) s State.Value := by
  refine .assume fun valid => ?_
  refine .gets_bind ?_
  split
  · next ends => exact .pure (valid.heap.sound.value_of_contains hf (by simpa [State.types] using ends))
  · refine (walks_remove_cont hf).bind fun rest s₁ on₁ known => ?_
    split
    · exact .pure (on₁.valid.simple (by decide))
    · next value =>
      have rest : ∀ {s₂ : State}, Onward s₁ s₂ → Walks (union value .none) s₂ State.Value :=
        fun on₂ => walks_union (on₂.value (known value rfl)) (on₂.valid.simple (by decide))
      refine .get_bind ?_
      dsimp only
      split
      · exact walks_report.bind fun _ _ on₂ _ => rest on₂
      · exact rest (.refl on₁.valid)

theorem walks_inFrame (new : ∀ frame ∈ s.frames, frame.function ≠ fn)
    (inside : Walks m (s.enter fn) State.Value) :
    Walks (inFrame fn m) s fun s' r => s'.Value r.1 ∧ s'.Optional r.2 := by
  intro valid r s' ran
  obtain ⟨_, _, ⟨⟩, ran⟩ := Walks.run_bind ran
  obtain ⟨a, s₁, walked, ran⟩ := Walks.run_bind ran
  obtain ⟨_, _, ⟨⟩, ⟨⟩⟩ := Walks.run_bind ran
  obtain ⟨on, known⟩ := inside valid.enter a s₁ walked
  refine ⟨.of_walked (.application new on.walked) valid, known, fun v found => ?_⟩
  obtain ⟨frame, innermost, yielded⟩ := Option.bind_eq_some_iff.mp found
  exact on.valid.frames frame (List.mem_of_mem_head? innermost) v yielded

theorem walks_resultOfBody (hr : s.Value returned) (hy : s.Optional yielded) :
    Walks (resultOfBody returned yielded) s State.Value := by
  cases yielded with
  | none => exact .pure hr
  | some v => exact walks_newListOf (hy v rfl)

theorem walks_yieldValue (hv : s.Value value) : Walks (yieldValue value) s Anything := by
  refine .get_bind ?_
  split
  · exact .pure trivial
  · next frame frames innermost =>
    exact .modify (f := fun s => { s with
      heap.types := (s.types.unionOpt frame.yielded value).2
      frames := { frame with
        yielded := some (s.types.unionOpt frame.yielded value).1 } :: frames })
      (.step (.yieldValue innermost hv))

theorem walks_noteOutcome : Walks (noteOutcome outcome fn arguments) s Anything := by
  cases outcome with
  | full => exact .gets_bind (.gets_bind walks_debug)
  | tooLong => exact walks_debug
  | recorded | notFunction => exact .pure trivial

theorem walks_recordArrow
    (ha : s.Value arguments) (hr : s.Value result) :
    Walks (recordArrow fn arguments result name limits) s Anything := by
  refine .assume fun valid => ?_
  have canonical : Walks (onHeap (·.canonicalArguments s.builtins.bases fn arguments)) s
      State.Value := .onHeap (.canonicalArguments _ fn ha)
    (Heap.gives_canonicalArguments _ fn valid.heap.sound ha).refers
  refine .get_bind (canonical.bind fun tuple s₁ on₁ ht => ?_)
  have insert : Walks (onTypes (·.insertArrow fn ⟨tuple, result⟩ limits)) s₁ Anything :=
    walks_onTypes (.insertArrow fn limits ht (on₁.value hr)) trivial
  refine insert.bind fun outcome _ _ _ => ?_
  refine walks_noteOutcome.bind fun _ _ _ _ => ?_
  split
  · exact walks_debug
  · exact .pure trivial

theorem walks_bindLocals
    {types : List TypeId} (ht : s.Values types) :
    Walks (bindLocals scope parameters types) s Anything :=
  .forM fun _ member _ on =>
    (walks_bindName (on.value (ht _ (List.of_mem_zip member).2))).discard

theorem walks_newLocals : Walks (newLocals f) s Anything :=
  .onHeap (.newScope .function (some f.env) _) trivial

end Analysis

/-! ### Applications -/

theorem State.Valid.function (valid : s.Valid) {id : TypeId} (found : s.types.get id = .function f) :
    (∀ d ∈ f.defaults, s.Optional d) ∧
      s.Optional f.classId ∧ s.Optional f.receiver ∧
      ∀ op, f.native = some op → s.Values op.mentions := by
  obtain ⟨_, classId, receiver, defaults, native⟩ := valid.heap.sound.function found
  exact ⟨defaults, classId, receiver, native⟩

theorem State.Valid.resultFor? (valid : s.Valid) :
    s.Optional (s.types.resultFor? fn arguments) := by
  intro v found
  obtain ⟨f, there, answer⟩ := Option.bind_eq_some_iff.mp found
  obtain ⟨arrow, first, rfl⟩ := Option.map_eq_some_iff.mp answer
  exact (valid.heap.sound.arrow (function?_eq_some.mp there) (List.mem_of_find?_eq_some first)).2

theorem State.Valid.returnType (valid : s.Valid) : s.Value (s.types.returnType fn) := by
  refine State.Optional.getD (fun v found => ?_) valid.unknown
  obtain ⟨arrow, known, rfl⟩ := Option.map_eq_some_iff.mp found
  obtain ⟨f, there, first⟩ := Option.bind_eq_some_iff.mp known
  exact (valid.heap.sound.arrow (function?_eq_some.mp there) (List.mem_of_mem_head? first)).2

namespace Walker

section

variable (sound : w.Sound)

include sound

theorem walks_body : Walks (w.body scope definition) s State.Value := by
  cases definition with
  | function d =>
    refine (sound.block scope d.body).bind fun flow _ _ hf => ?_
    exact walks_returnOfFlow hf
  | lambda _ _ e => exact sound.expr scope e

theorem walks_bodyWith {types : List TypeId}
    (ht : s.Values types) : Walks (w.bodyWith f definition types) s State.Value := by
  refine walks_newLocals.bind fun scope _ on₁ _ => ?_
  refine (walks_bindLocals (on₁.values ht)).bind
    fun _ _ _ _ => ?_
  exact walks_body sound

theorem walks_applyAnew {types : List TypeId}
    (new : ∀ frame ∈ s.frames, frame.function ≠ origin) (ha : s.Value arguments)
    (ht : s.Values types) :
    Walks (w.applyAnew origin f definition arguments types) s State.Value := by
  refine (walks_inFrame new (walks_bodyWith sound ht)).bind fun r _ on₁ known => ?_
  refine (walks_resultOfBody known.1 known.2).bind fun result _ on₂ hr => ?_
  refine (walks_recordArrow (on₂.value (on₁.value ha)) hr).bind
    fun _ _ on₃ _ => ?_
  exact .pure (on₃.value hr)

theorem walks_applyDefined
    (hd : ∀ d ∈ f.defaults, s.Optional d) (hr : s.Optional f.receiver) (ha : args.Valid s) :
    Walks (w.applyDefined origin f definition args) s State.Value := by
  have called : Walks (modify fun s => { s with uncalled := s.uncalled.filter (· ≠ origin) }) s
      Anything := .modify (.step (.called origin))
  refine called.bind fun _ _ on₁ _ => ?_
  have positional : s.Values (f.receiver.toList ++ args.positional) := by
    intro v member
    rcases List.mem_append.mp member with member | member
    · exact hr v (Option.mem_toList.mp member)
    · exact ha.positional v member
  refine (walks_parameterTypes (fun d member => on₁.optional (hd d member))
    (on₁.values positional) (on₁.args ha)).bind fun types _ _ ht => ?_
  refine (walks_newTuple ht).bind fun arguments _ on₃ hargs => .gets_bind ?_
  split
  · refine walks_debug.bind fun _ _ on₄ _ => .get_bind ?_
    exact .pure (on₄.valid.resultFor?.getD on₄.valid.unknown)
  · next idle =>
    refine .get_bind ?_
    split
    · next known found => exact .pure (on₃.valid.resultFor? known found)
    · exact walks_applyAnew sound (by simpa using idle) hargs
        (on₃.values ht)

theorem walks_apply (ha : args.Valid s) : Walks (w.apply fn args span) s State.Value := by
  refine .assume fun valid => ?_
  refine .get_bind ?_
  split
  · exact .pure valid.unknown
  · next f found =>
    obtain ⟨defaults, _, receiver, native⟩ := valid.function (function?_eq_some.mp found)
    split
    · next known => exact walks_native sound (native _ known) receiver ha
    · exact walks_applyDefined sound defaults receiver ha
    · exact .pure valid.returnType

theorem walks_construct (ha : args.Valid s) :
    Walks (w.construct classId args span) s State.Value := by
  refine .assume fun valid => ?_
  refine .get_bind ?_
  split
  · next op found =>
    have known : s.Values op.mentions :=
      valid.builtins.constructors (classId, op) (InsertionMap.mem_of_lookup found)
    exact walks_native sound known s.optional_none ha
  · refine walks_canonicalInstance.bind fun object _ on₁ ho => ?_
    refine (walks_callMethod sound ho (on₁.args ha)).discard.bind
      fun _ _ on₂ _ => ?_
    exact .pure (on₂.value ho)

theorem walks_callAlternative (hc : s.Value callee)
    (ha : args.Valid s) : Walks (w.callAlternative args span callee) s State.Value := by
  refine .assume fun valid => ?_
  refine .gets_bind ?_
  split
  · exact walks_apply sound ha
  · exact walks_construct sound ha
  · exact walks_resultOf sound hc ha
  · exact .pure valid.unknown
  · refine .gets_bind (walks_report.bind fun _ _ on₁ _ => ?_)
    exact .pure on₁.valid.unknown

theorem walks_callStep (span : Span) (hc : s.Value callee) (ha : args.Valid s) :
    Walks (w.callStep callee args span) s State.Value :=
  .assume fun valid => .gets_bind (walks_unionOver fun x member _ on =>
    walks_callAlternative sound (on.value (valid.alternatives hc x member))
      (on.args ha))

theorem walks_addArgument
    (ha : args.Valid s) :
    Walks (w.addArgument scope span args argument) s fun s' args => args.Valid s' := by
  refine (sound.expr scope argument.value).bind fun v _ on₁ hv => ?_
  have ha := on₁.args ha
  split
  · refine .pure { ha with positional := fun x member => ?_ }
    rcases List.mem_append.mp member with member | member
    · exact ha.positional x member
    · exact List.mem_singleton.mp member ▸ hv
  · exact .pure { ha with keywords := InsertionMap.forall_values_insert hv ha.keywords }
  · exact .pure { ha with doubleStar := State.optional_some hv }
  · refine .gets_bind ?_
    split
    · next d found =>
      refine .pure { ha with positional := fun x member => ?_ }
      rcases List.mem_append.mp member with member | member
      · exact ha.positional x member
      · exact on₁.valid.mention found member
    · refine (sound.element span hv).bind fun e _ on₂ he => ?_
      refine (walks_unionOpt (on₂.optional ha.star) he).bind fun u _ on₃ hu => ?_
      exact .pure { (on₃.args (on₂.args ha)) with star := State.optional_some hu }

omit sound in
theorem walks_noteCall : Walks (noteCall callee count) s Anything := by
  unfold noteCall
  split
  · exact walks_debug
  · exact .pure trivial

theorem walks_callExpr : Walks (w.callExpr scope node callee arguments) s State.Value := by
  refine (sound.expr scope callee).bind fun fn s₁ _ hf => ?_
  have collected : Walks (arguments.foldlM (w.addArgument scope node.span) {}) s₁
      fun s' args => args.Valid s' :=
    .foldlM CallArgs.valid_none fun argument _ s' args on known =>
      walks_addArgument sound known
  refine collected.bind fun args _ on₂ ha => ?_
  refine walks_noteCall.bind fun _ _ on₃ _ => ?_
  exact sound.call node.span (on₃.value (on₂.value hf)) (on₃.args ha)

omit sound in
theorem walks_receiverFor (hc : s.Optional f.classId) : Walks (receiverFor f) s State.Optional := by
  unfold receiverFor
  split
  · refine walks_canonicalInstance.bind fun object _ _ ho => ?_
    exact .pure (State.optional_some ho)
  · next found _ => exact .pure (found ▸ hc)
  · exact .pure s.optional_none

theorem walks_applyUncalled (hf : s.Value fn) : Walks (w.applyUncalled fn) s Anything := by
  refine .assume fun valid => ?_
  have unknown : ∀ {s : State} (n : Nat), s.Valid →
      (CallArgs.of (List.replicate n .unknown)).Valid s := fun n valid =>
    CallArgs.valid_of fun v member => List.eq_of_mem_replicate member ▸ valid.unknown
  refine .get_bind ?_
  split
  · exact .pure trivial
  · next f found =>
    split
    · exact .pure trivial
    · next definition known =>
      obtain ⟨_, classId, _, _⟩ := valid.function (function?_eq_some.mp found)
      refine (walks_receiverFor classId).bind fun receiver _ on₁ hr => ?_
      refine walks_debug.bind fun _ _ on₂ _ => ?_
      split
      · next receiver =>
        refine (walks_bindMethod (on₂.value (on₁.value hf))
          (on₂.value (hr receiver rfl))).bind fun bound _ on₃ _ => ?_
        exact (walks_apply sound (unknown _ on₃.valid)).discard
      · exact (walks_apply sound (unknown _ on₂.valid)).discard

end
end Walker
end FlowTypes
