import FlowTypes.Proofs.Walk.Calls

/-! Definitions, assignments and expressions in a walk. -/
namespace FlowTypes

open TypeStore Analysis

variable {s s' : State} {w : Walker}

/-! ### Definitions -/

namespace Analysis

theorem walks_functionKind : Walks (functionKind scope name) s Anything := by
  refine .get_bind ?_
  split <;> exact .pure trivial

theorem walks_newFunction (own : ∀ table, (complete { name, table, env }).table = table)
    (unbound : ∀ table, (complete { name, table, env }).origin = none)
    (refers : ∀ table, s.Values (complete { name, table, env }).mentions) :
    Walks (newFunction name path env complete) s fun s' fn =>
      s'.Value fn ∧ s'.functions = s.functions :=
  .get_bind (.onHeap (.newFunction _ name path env own unbound refers)
    ⟨(Heap.gives_newFunctionWith s.builtins.bases name path env unbound refers).refers, rfl⟩)

theorem walks_defineValue
    (kept : ∀ outer f, (complete outer f).table = f.table ∧ (complete outer f).origin = f.origin)
    (refers : ∀ f : FunctionType, f.mentions = [] →
      s.Values (complete (s.scopes.get scope) f).mentions) :
    Walks (defineValue scope definition complete) s State.Value := by
  refine .assume fun valid => ?_
  refine .get_bind ?_
  split
  · next fn found =>
    refine (walks_modifyTypes (.reopen fn scope)).bind fun _ s₁ on₁ _ => ?_
    exact .pure
      (on₁.value (valid.functions fn (InsertionMap.mem_values_of_get? found)))
  · next new =>
    have made : Walks (newFunction definition.name (s.scopes.qualify scope definition.name) scope
        fun f => complete (s.scopes.get scope) { f with definition := some definition }) s
        fun s' fn => s'.Value fn ∧ s'.functions = s.functions :=
      walks_newFunction (fun _ => (kept _ _).1) (fun _ => (kept _ _).2) fun _ => refers _ rfl
    refine .get_bind (made.bind fun fn s₁ on₁ known => ?_)
    have noted : Walks (modify fun s => { s with
        functions := s.functions.insert definition.node.id fn, uncalled := s.uncalled ++ [fn] })
        s₁ Anything := .modify (.step (.define (known.2 ▸ new) known.1))
    exact noted.bind fun _ _ on₂ _ => .pure (on₂.value known.1)

theorem walks_defineFunction : Walks (defineFunction scope d) s State.Value := by
  refine .assume fun valid => ?_
  refine walks_defineValue (fun _ _ => ⟨rfl, rfl⟩) fun f empty => ?_
  have known : ∀ m ∈ f.mentions, s.Value m := by simp [empty]
  obtain ⟨arrows, _, others⟩ := FunctionType.forall_mentions.mp known
  refine FunctionType.forall_mentions.mpr ⟨arrows, fun c found => ?_, others⟩
  split at found
  · exact valid.heap.owners scope c found
  · cases found

theorem walks_defineLambda : Walks (defineLambda scope node parameters body) s State.Value :=
  walks_defineValue (fun _ _ => ⟨rfl, rfl⟩) fun f empty =>
    by simp [State.Values, empty]

theorem walks_newClass : Walks (newClass name path parent) s fun s' classId =>
      s'.Value classId ∧ s'.classes = s.classes ∧ (s'.types.get classId).isClass = true :=
  .onHeap (.newClass name path parent)
    ⟨(Heap.gives_newClass s.heap name path parent).refers, rfl,
      congrArg Ty.isClass (get_alloc_new _ _)⟩

theorem walks_defineClassAttributes : Walks (defineClassAttributes classId) s Anything := by
  refine .assume fun valid => ?_
  refine .gets_bind ?_
  split
  · exact .pure trivial
  · next table _ =>
    refine (walks_plainDict valid.str.value valid.unknown).bind fun dict _ on₁ hd => ?_
    refine (walks_defineImplicit on₁.valid.str).bind fun _ _ on₂ _ => ?_
    refine (walks_defineImplicit on₂.valid.str).bind fun _ _ on₃ _ => ?_
    refine (walks_defineImplicit on₃.valid.str).bind fun _ _ on₄ _ => ?_
    exact walks_defineImplicit (on₄.plain (on₃.plain (on₂.plain hd)))

theorem walks_defineClass : Walks (defineClass scope d) s State.Value := by
  refine .assume fun valid => ?_
  refine .get_bind ?_
  split
  · next classId found =>
    exact .pure (valid.classes classId (InsertionMap.mem_values_of_get? found))
  · next new =>
    refine .get_bind (walks_newClass.bind fun classId s₁ _ known => ?_)
    have noted : Walks (modify fun s => { s with
        classes := s.classes.insert d.node.id classId }) s₁ Anything :=
      .modify (.step (.defineClass (known.2.1 ▸ new) known.1 known.2.2))
    refine noted.bind fun _ _ on₂ _ => ?_
    refine walks_defineClassAttributes.bind fun _ _ on₃ _ => ?_
    exact .pure (on₃.value (on₂.value known.1))

theorem walks_declareDefinitions : Walks (declareDefinitions scope body) s Anything := by
  refine .forM fun statement _ _ _ => ?_
  split
  · next d _ =>
    refine walks_defineFunction.bind fun fn s₂ on₂ hf => ?_
    exact walks_declareForward hf
  · next d _ =>
    refine walks_defineClass.bind fun classId s₂ on₂ hc => ?_
    exact walks_declareForward hc
  · exact .pure trivial

theorem walks_addDefaultBase : Walks (addDefaultBase classId bases) s Anything := by
  unfold addDefaultBase
  split
  · exact .get_bind walks_addBase
  · exact .pure trivial

theorem walks_recordBases (hb : s.Values bases) : Walks (recordBases table bases) s Anything := by
  refine .get_bind ?_
  split
  · refine (walks_plainTuple hb).bind fun tuple _ _ ht => ?_
    exact walks_defineImplicit ht
  · exact .pure trivial

theorem walks_declareSlots : Walks (declareSlots classId body) s Anything := by
  unfold declareSlots
  dsimp only
  split
  · exact .pure trivial
  · refine walks_canonicalInstance.bind fun object _ _ _ => .gets_bind ?_
    split
    · exact .pure trivial
    · refine .forM fun node _ _ on₂ => .get_bind ?_
      split
      · exact (walks_bindName on₂.valid.unknown).discard
      · exact .pure trivial

end Analysis

namespace Walker

section

variable (sound : w.Sound)

include sound

theorem walks_optional : Walks (w.optional scope e) s State.Optional := by
  cases e with
  | none => exact .pure s.optional_none
  | some e =>
    refine (sound.expr scope e).bind fun v _ _ hv => ?_
    exact .pure (State.optional_some hv)

theorem walks_defaults :
    Walks (w.defaults scope parameters) s fun s' ds => ∀ d ∈ ds, s'.Optional d := by
  refine .mapM (fun _ _ _ on known => on.optional known) fun p _ _ _ => ?_
  refine (walks_optional sound).discard.bind fun _ _ _ _ => ?_
  exact walks_optional sound

omit sound in
theorem walks_setDefaults {defaults : List (Option TypeId)}
    (hd : ∀ d ∈ defaults, s.Optional d) : Walks (setDefaults fn defaults) s Anything :=
  walks_modifyTypes (.setDefaults fn hd)

theorem walks_exprs {scope : ScopeId} {es : List Expr} :
    Walks (es.forM fun e => discard (w.expr scope e)) s Anything :=
  .forM fun e _ _ _ => (sound.expr scope e).discard

theorem walks_function {scope : ScopeId} {d : FunctionDef Stmt} :
    Walks (w.function scope d) s Anything := by
  refine walks_defineFunction.bind fun fn _ _ hf => ?_
  refine (walks_exprs sound).bind fun _ _ on₂ _ => ?_
  refine (walks_defaults sound).bind fun defaults _ on₃ hd => ?_
  refine (walks_setDefaults hd).bind fun _ _ on₄ _ => ?_
  refine walks_functionKind.bind fun kind _ on₅ _ => ?_
  have hf := on₅.value (on₄.value (on₃.value (on₂.value hf)))
  refine (walks_bindName hf).discard.bind fun _ _ on₆ _ => ?_
  exact walks_recordType d.node.id (on₆.value hf)

theorem walks_lambda {scope : ScopeId} {node : Node} {parameters : List (Parameter Expr)}
    {body : Expr} : Walks (w.lambda scope node parameters body) s State.Value := by
  refine walks_defineLambda.bind fun fn _ _ hf => ?_
  refine (walks_defaults sound).bind fun defaults _ on₂ hd => ?_
  refine (walks_setDefaults hd).bind fun _ _ on₃ _ => ?_
  exact .pure (on₃.value (on₂.value hf))

theorem walks_classBase : Walks (w.classBase scope classId base) s State.Values := by
  refine (sound.expr scope base).bind fun value s₁ on₁ hv => .get_bind ?_
  have found : s₁.Values ((s₁.types.alternatives value).filter fun alternative =>
      (s₁.types.get alternative).isClass) := fun v member =>
    on₁.valid.alternatives hv v (List.mem_filter.mp member).1
  refine Walks.bind (Q := Anything) (.forM fun x _ _ on => ?_) fun _ _ on₂ _ =>
    .pure (on₂.values found)
  exact walks_addBase

theorem walks_classBases : Walks (w.classBases scope classId bases) s State.Values := by
  have each : ∀ base ∈ bases, ∀ s', Onward s s' →
      Walks (w.classBase scope classId base) s' State.Values := fun base _ _ on =>
    walks_classBase sound
  refine (Walks.mapM (R := State.Values) (fun _ _ _ on known => on.values known) each).bind
    fun found _ _ known => .pure fun v member => ?_
  obtain ⟨ids, there, member⟩ := List.mem_flatten.mp member
  exact known ids there v member

theorem walks_classDef {scope : ScopeId} {d : ClassDef Stmt} :
    Walks (w.classDef scope d) s Anything := by
  refine walks_defineClass.bind fun classId _ _ hc => .gets_bind ?_
  split
  · exact .pure trivial
  · next table _ =>
    refine (walks_classBases sound).bind fun bases _ on₂ hb => ?_
    refine walks_addDefaultBase.bind fun _ _ on₃ _ => ?_
    refine (walks_recordBases (on₃.values hb)).bind fun _ _ on₄ _ => ?_
    refine (walks_exprs sound).bind fun _ _ on₅ _ => ?_
    have hc := on₅.value (on₄.value (on₃.value (on₂.value hc)))
    refine (walks_bindName hc).discard.bind fun _ _ on₆ _ => ?_
    refine (walks_recordType d.node.id (on₆.value hc)).bind fun _ _ _ _ => ?_
    refine (sound.block table d.body).discard.bind fun _ _ _ _ => ?_
    exact walks_declareSlots

/-! ### Assignments -/

theorem walks_slice : Walks (w.slice scope parts) s Anything :=
  .forM fun _ _ _ _ => (walks_optional sound).discard

theorem walks_setItem {index : TypeId} (ho : s.Value object)
    (hi : s.Value index) (hv : s.Value value) :
    Walks (w.setItem object index value span) s Anything := by
  refine .assume fun valid => ?_
  refine .gets_bind (.forM fun alternative member s₁ on₁ => .gets_bind ?_)
  have ha := on₁.value (valid.alternatives ho alternative member)
  have pair : s₁.Values [index, value] := by
    simpa [State.Values] using ⟨on₁.value hi, on₁.value hv⟩
  split
  · exact walks_widenList (on₁.value hv)
  · exact walks_modifyTypes (.widenEntry alternative (on₁.value hi) (on₁.value hv))
  · exact (walks_callMethod sound ha (CallArgs.valid_of pair)).discard
  · exact .pure trivial

omit sound in
theorem values_of_shape? (valid : s.Valid) {id : TypeId} {elements : List TypeId}
    (found : shape? (s.types.get id) = some elements) : s.Values elements := by
  intro v member
  unfold shape? at found
  split at found
  · next d there =>
    cases found
    exact valid.mention there member
  · next d there =>
    split at found
    · cases found
    · cases found
      exact valid.mention there (List.mem_cons_of_mem _ member)
  · cases found

theorem walks_assignEach {pairs : List (Expr × TypeId)}
    (hp : ∀ pair ∈ pairs, s.Value pair.2) : Walks (w.assignEach scope pairs) s Anything :=
  .forM fun pair member _ on =>
    sound.assign scope pair.1 (on.value (hp pair member))

theorem walks_unpack {star : Option Nat} (he : s.Values elements) :
    Walks (w.unpack scope targets elements star) s Anything := by
  have zipped : ∀ {s : State} (targets : List Expr) {ids : List TypeId}, s.Values ids →
      ∀ pair ∈ targets.zip ids, s.Value pair.2 := fun _ _ values pair member =>
    values pair.2 (List.of_mem_zip member).2
  unfold unpack
  split
  · exact walks_assignEach sound (zipped targets he)
  · next k =>
    have before : s.Values (elements.take k) := fun v member => he v (List.mem_of_mem_take member)
    refine (walks_assignEach sound (zipped _ before)).bind fun _ _ on₁ _ => ?_
    refine (walks_unionAll fun v member => on₁.value
      (he v (List.mem_of_mem_take (List.mem_of_mem_drop member)))).bind fun u _ on₂ hu => ?_
    refine (walks_newListOf hu).bind fun rest s₃ on₃ hr => ?_
    have starred : ∀ pair ∈ targets[k]?.toList.map fun target => (target, rest),
        s₃.Value pair.2 := by
      intro pair member
      obtain ⟨target, _, rfl⟩ := List.mem_map.mp member
      exact hr
    refine (walks_assignEach sound starred).bind fun _ _ on₄ _ => ?_
    refine walks_assignEach sound (zipped _ fun v member => ?_)
    exact on₄.value (on₃.value (on₂.value (on₁.value (he v (List.mem_of_mem_drop member)))))

theorem walks_unpackEvenly
    (hv : s.Value value) : Walks (w.unpackEvenly scope targets value span) s Anything := by
  refine (sound.element span hv).bind fun element _ _ he => ?_
  refine .forM fun target _ _ on₂ => ?_
  split
  · refine (walks_newListOf (on₂.value he)).bind fun list _ _ hl => ?_
    exact sound.assign scope _ hl
  · exact sound.assign scope _ (on₂.value he)

theorem walks_destructure
    (hv : s.Value value) : Walks (w.destructure scope targets value span) s Anything := by
  refine .assume fun valid => ?_
  refine .gets_bind ?_
  split
  · next elements found =>
    split
    · exact walks_unpack sound (values_of_shape? valid found)
    · split
      · refine walks_report.bind fun _ _ on₁ _ => ?_
        refine walks_assignEach sound fun pair member => ?_
        obtain ⟨target, _, rfl⟩ := List.mem_map.mp member
        exact on₁.valid.unknown
      · exact walks_unpackEvenly sound hv
  · exact walks_unpackEvenly sound hv

theorem walks_index : Walks (w.index scope i) s State.Value := by
  unfold index
  split
  · exact (walks_slice sound).bind fun _ _ on₁ _ => .pure on₁.valid.unknown
  · exact sound.expr scope i

theorem walks_assignStep (hv : s.Value value) :
    Walks (w.assignStep scope target value) s Anything := by
  unfold assignStep
  split
  · next n name =>
    refine walks_variableKind.bind fun kind s₁ on₁ _ => ?_
    refine (walks_bindName (on₁.value hv)).discard.bind
      fun _ s₂ on₂ _ => ?_
    exact walks_recordType n.id (on₂.value (on₁.value hv))
  · next n targets =>
    refine (walks_destructure sound hv).bind fun _ s₁ on₁ _ => ?_
    exact walks_recordType n.id (on₁.value hv)
  · next n targets =>
    refine (walks_destructure sound hv).bind fun _ s₁ on₁ _ => ?_
    exact walks_recordType n.id (on₁.value hv)
  · next n object name _ =>
    refine (sound.expr scope object).bind fun object s₁ on₁ ho => ?_
    refine (walks_setAttribute ho (on₁.value hv)).bind fun _ s₂ on₂ _ => ?_
    exact walks_recordType n.id (on₂.value (on₁.value hv))
  · next n object index =>
    refine (sound.expr scope object).bind fun object s₁ on₁ ho => ?_
    refine (walks_index sound).bind fun index s₂ on₂ hi => ?_
    have hv := on₂.value (on₁.value hv)
    refine (walks_setItem sound (on₂.value ho) hi hv).bind fun _ _ on₃ _ => ?_
    exact walks_recordType n.id (on₃.value hv)
  · exact sound.assign scope _ hv
  · exact (sound.expr scope target).discard

/-! ### Operations -/

omit sound in
theorem numberOfRank_simple (n : Nat) : (numberOfRank n).index < 10 ∧ numberOfRank n ≠ .cont := by
  unfold numberOfRank
  split <;> decide

theorem walks_operatorMethod
    (ho : s.Value object) (ha : args.Valid s) :
    Walks (w.operatorMethod object name args span) s State.Value := by
  refine .assume fun valid => ?_
  cases name with
  | none => exact .pure valid.unknown
  | some name => exact walks_resultOf sound ho ha

theorem walks_binaryOther (hl : s.Value left)
    (hr : s.Value right) : Walks (w.binaryOther left op right span) s State.Value := by
  refine .assume fun valid => ?_
  have one : ∀ {id : TypeId}, s.Value id → (CallArgs.of [id]).Valid s := fun h =>
    CallArgs.valid_of (by simpa [State.Values] using h)
  refine .gets_bind (.gets_bind ?_)
  split
  · exact .pure valid.unknown
  · exact .pure valid.unknown
  · exact .pure (valid.simple (by decide))
  · exact .pure (valid.simple (by decide))
  · exact .pure (valid.simple (by decide))
  · exact .pure (valid.simple (by decide))
  · next foundLeft foundRight =>
    refine (walks_union (valid.mention foundLeft (by simp [Ty.mentions]))
      (valid.mention foundRight (by simp [Ty.mentions]))).bind fun u _ _ hu => ?_
    exact walks_newListOf hu
  · exact .pure hl
  · exact .pure hr
  · next foundLeft foundRight =>
    refine walks_newTuple fun v member => ?_
    rcases List.mem_append.mp member with member | member
    · exact valid.mention foundLeft member
    · exact valid.mention foundRight member
  · exact .pure hl
  · exact walks_operatorMethod sound hl (one hr)
  · exact walks_operatorMethod sound hr (one hl)
  · exact .pure valid.unknown

theorem walks_binaryPair (hl : s.Value pair.1)
    (hr : s.Value pair.2) : Walks (w.binaryPair op span pair) s State.Value := by
  refine .assume fun valid => ?_
  refine .gets_bind (.gets_bind ?_)
  split
  · exact .pure (valid.simple (numberOfRank_simple _))
  · exact walks_binaryOther sound hl hr

theorem walks_binary (hl : s.Value left)
    (hr : s.Value right) : Walks (w.binary left op right span) s State.Value := by
  refine .assume fun valid => ?_
  unfold binary
  split
  · exact walks_union hl hr
  · split
    · exact .pure (valid.simple (by decide))
    · refine .gets_bind (.gets_bind (walks_unionOver fun pair member _ on₁ => ?_))
      obtain ⟨l, left, member⟩ := List.mem_flatMap.mp member
      obtain ⟨r, right, rfl⟩ := List.mem_map.mp member
      exact walks_binaryPair sound (on₁.value (valid.alternatives hl l left))
        (on₁.value (valid.alternatives hr r right))

theorem walks_unary (ho : s.Value operand) : Walks (w.unary op operand span) s State.Value := by
  refine .assume fun valid => ?_
  unfold unary
  split
  · exact .pure (valid.simple (by decide))
  · refine .gets_bind (walks_unionOver fun alternative member s₁ on₁ => .gets_bind ?_)
    have ha := on₁.value (valid.alternatives ho alternative member)
    split
    · exact .pure (on₁.valid.simple (by decide))
    · exact .pure ha
    · exact .pure ha
    · exact .pure ha
    · exact walks_operatorMethod sound ha CallArgs.valid_none
    · exact .pure on₁.valid.unknown

/-! ### Expressions -/

omit sound in
theorem walks_comprehensionScope : Walks (comprehensionScope node scope) s Anything := by
  refine .modifyGet ?_ trivial
  split
  · exact .refl s
  · next new => exact .step (.comprehension _ new)

/-- The types of an entry are values. -/
def Entry (s : State) (entry : Option (TypeId × TypeId)) : Prop :=
  ∀ pair, entry = some pair → s.Value pair.1 ∧ s.Value pair.2

theorem walks_entry : Walks (w.entry scope e) s Entry := by
  refine (sound.expr scope e.2).bind fun mapped _ on₁ hm => ?_
  split
  · refine (sound.expr scope _).bind fun key _ on₂ hk => .pure ?_
    rintro _ ⟨⟩
    exact ⟨hk, on₂.value hm⟩
  · refine .gets_bind ?_
    split
    · next d found =>
      refine .pure ?_
      rintro _ ⟨⟩
      exact ⟨on₁.valid.mention found (by simp [Ty.mentions]),
        on₁.valid.mention found (by simp [Ty.mentions])⟩
    · exact .pure (by rintro _ ⟨⟩)

theorem walks_dict : Walks (w.dict scope entries) s State.Value := by
  have pairs : Walks (entries.mapM (w.entry scope)) s fun s' found => ∀ e ∈ found, Entry s' e :=
    .mapM (fun _ _ _ on known pair found =>
      ⟨on.value (known pair found).1, on.value (known pair found).2⟩)
      fun e _ _ on => walks_entry sound
  refine pairs.bind fun found s₁ _ known => ?_
  have keys : s₁.Values ((found.filterMap id).map (·.1)) := by
    intro v member
    obtain ⟨pair, there, rfl⟩ := List.mem_map.mp member
    exact (known (some pair) (by simpa using there) pair rfl).1
  have values : s₁.Values ((found.filterMap id).map (·.2)) := by
    intro v member
    obtain ⟨pair, there, rfl⟩ := List.mem_map.mp member
    exact (known (some pair) (by simpa using there) pair rfl).2
  refine (walks_unionAll keys).bind fun key _ on₂ hk => ?_
  refine (walks_unionAll (on₂.values values)).bind fun value _ on₃ hv => ?_
  exact walks_newDict (on₃.value hk) hv

theorem walks_clause {scope : ScopeId} {span : Span} {c : Clause Expr} :
    Walks (w.clause scope span c) s Anything := by
  refine (sound.expr scope c.iter).bind fun iter _ _ hi => ?_
  refine (sound.element span hi).bind fun element _ _ he => ?_
  refine (sound.assign scope c.target he).bind fun _ _ _ _ => ?_
  exact walks_exprs sound

theorem walks_comprehension {scope : ScopeId} {node : Node} {kind : ComprehensionKind}
    {element : Expr} {value : Option Expr} {clauses : List (Clause Expr)} :
    Walks (w.comprehension scope node kind element value clauses) s State.Value := by
  refine walks_comprehensionScope.bind fun inner s₁ _ _ => ?_
  have walked : Walks (clauses.forM (w.clause inner node.span)) s₁ Anything :=
    .forM fun c _ _ on => walks_clause sound
  refine walked.bind fun _ _ _ _ => ?_
  refine (sound.expr inner element).bind fun e _ on₃ he => ?_
  split
  · exact walks_newListOf he
  · exact walks_newListOf he
  · exact .get_bind (.pure on₃.valid.builtins.setInstance)
  · split
    · refine (sound.expr inner _).bind fun v _ on₄ hv => ?_
      exact walks_newDict (on₄.value he) hv
    · exact walks_newDict he on₃.valid.unknown

omit sound in
theorem walks_memberOf (ho : s.Value object) :
    Walks (memberOf object name node) s State.Optional := by
  refine .assume fun valid => ?_
  refine .gets_bind (.foldlM s.optional_none fun alternative member _ acc on₁ known => ?_)
  have ha := on₁.value (valid.alternatives ho alternative member)
  refine .get_bind ?_
  split
  · refine (walks_unionOpt known on₁.valid.unknown).bind fun u s₂ on₂ hu => ?_
    exact .pure (State.optional_some hu)
  · refine (walks_attribute? ha).bind fun found s₂ on₂ hm => ?_
    split
    · next bindings value =>
      refine walks_addRefs.bind fun _ _ on₃ _ => ?_
      refine (walks_unionOpt (on₃.optional (on₂.optional known))
        (on₃.value (hm _ rfl))).bind fun u _ _ hu => ?_
      exact .pure (State.optional_some hu)
    · exact .pure (on₂.optional known)

theorem walks_member : Walks (w.member scope e object name nameSpan) s State.Value := by
  refine (sound.expr scope object).bind fun object _ _ ho => ?_
  refine (walks_memberOf ho).bind fun found _ _ known => ?_
  split
  · exact .pure (known _ rfl)
  · refine .gets_bind (walks_report.bind fun _ _ on₃ _ => ?_)
    exact .pure on₃.valid.unknown

omit sound in
theorem walks_sliceOf {id : TypeId} (hv : s.Value id) : Walks (sliceOf id) s State.Value := by
  refine .assume fun valid => ?_
  refine .gets_bind ?_
  split <;> first | exact .pure hv | exact .pure valid.unknown

theorem walks_itemOf {index : TypeId} {id : TypeId}
    (hi : s.Value index) (hv : s.Value id) :
    Walks (w.itemOf index literal span id) s State.Value := by
  refine .assume fun valid => ?_
  refine .gets_bind ?_
  split
  · next found => exact .pure (valid.mention found (by simp [Ty.mentions]))
  · next d found =>
    have elements : s.Values d.elements := fun v member => valid.mention found member
    split
    · next element there =>
      obtain ⟨i, _, there⟩ := Option.bind_eq_some_iff.mp there
      exact .pure (elements element (List.mem_of_getElem? there))
    · exact walks_unionAll elements
  · next found => exact .pure (valid.mention found (by simp [Ty.mentions]))
  · exact .pure (valid.simple (by decide))
  · exact walks_resultOf sound hv
      (CallArgs.valid_of (by simpa [State.Values] using hi))
  · exact .pure valid.unknown

theorem walks_subscript : Walks (w.subscript scope node object i) s State.Value := by
  refine (sound.expr scope object).bind fun object _ _ ho => ?_
  refine (walks_index sound).bind fun index _ on₂ hi => ?_
  have alternatives := on₂.valid.alternatives (on₂.value ho)
  split
  · exact .gets_bind (walks_unionOver fun x member _ on =>
      walks_sliceOf (on.value (alternatives x member)))
  · exact .gets_bind (walks_unionOver fun x member _ on =>
      walks_itemOf sound (on.value hi) (on.value (alternatives x member)))

theorem walks_valueOf : Walks (w.valueOf scope e) s State.Value := by
  refine .assume fun valid => ?_
  cases e with
  | none => exact .pure (valid.simple (by decide))
  | some e => exact sound.expr scope e

theorem walks_yielded (hv : s.Value value) : Walks (w.yielded value isFrom span) s State.Value := by
  unfold yielded
  split
  · exact sound.element span hv
  · exact .pure hv

theorem walks_yieldExpr : Walks (w.yieldExpr scope node value isFrom) s State.Value := by
  refine (walks_valueOf sound).bind fun v _ _ hv => ?_
  refine (walks_yielded sound hv).bind fun y _ _ hy => ?_
  refine (walks_yieldValue hy).bind fun _ _ on₃ _ => ?_
  exact .pure on₃.valid.unknown

omit sound in
theorem numberType_simple : (numberType kind).index < 10 ∧ numberType kind ≠ .cont := by
  cases kind <;> decide

omit sound in
theorem constantType_simple : (constantType c).index < 10 ∧ constantType c ≠ .cont := by
  cases c <;> decide

theorem walks_infer {scope : ScopeId} {e : Expr} : Walks (w.infer scope e) s State.Value := by
  refine .assume fun valid => ?_
  have types : ∀ {s : State} (es : List Expr), s.Valid →
      Walks (es.mapM (w.expr scope)) s State.Values := fun es valid =>
    walks_mapM_values fun e _ _ on => sound.expr scope e
  cases e with
  | number _ kind _ => exact .pure (valid.simple numberType_simple)
  | string _ _ => exact .pure (valid.simple (by decide))
  | constant _ value => exact .pure (valid.simple constantType_simple)
  | name n name => exact walks_readName
  | list _ elements =>
    refine (types elements valid).bind fun ids s₁ on₁ hi => ?_
    refine (walks_unionAll hi).bind fun u s₂ on₂ hu => ?_
    exact walks_newList hu (on₂.values hi)
  | tuple _ elements =>
    refine (types elements valid).bind fun ids s₁ on₁ hi => ?_
    exact walks_newTuple hi
  | set _ elements =>
    refine (walks_exprs sound).bind fun _ s₁ on₁ _ => .get_bind ?_
    exact .pure on₁.valid.builtins.setInstance
  | dict _ entries => exact walks_dict sound
  | comprehension n kind element value clauses =>
    exact walks_comprehension sound
  | member _ object name nameSpan => exact walks_member sound
  | subscript n object index => exact walks_subscript sound
  | slice _ lower upper step =>
    refine (walks_slice sound).bind fun _ s₁ on₁ _ => ?_
    exact .pure on₁.valid.unknown
  | call n callee arguments => exact walks_callExpr sound
  | unary n op operand =>
    refine (sound.expr scope operand).bind fun v s₁ on₁ hv => ?_
    exact walks_unary sound hv
  | binary n op left right =>
    refine (sound.expr scope left).bind fun l s₁ on₁ hl => ?_
    refine (sound.expr scope right).bind fun r s₂ on₂ hr => ?_
    exact walks_binary sound (on₂.value hl) hr
  | conditional _ condition body otherwise =>
    refine (sound.expr scope condition).discard.bind fun _ s₁ on₁ _ => ?_
    refine (sound.expr scope body).bind fun a s₂ on₂ ha => ?_
    refine (sound.expr scope otherwise).bind fun b _ on₃ hb => ?_
    exact walks_union (on₃.value ha) hb
  | lambda n parameters body => exact walks_lambda sound
  | yield n value isFrom => exact walks_yieldExpr sound
  | await _ value | starred _ value => exact sound.expr scope value

theorem walks_exprStep (scope : ScopeId) (e : Expr) : Walks (w.exprStep scope e) s State.Value := by
  refine (walks_infer sound).bind fun type _ _ ht => ?_
  refine (walks_recordType e.id ht).bind fun _ _ on₂ _ => ?_
  exact .pure (on₂.value ht)

end
end Walker
end FlowTypes
