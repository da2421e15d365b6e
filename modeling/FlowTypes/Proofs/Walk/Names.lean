import FlowTypes.Proofs.Walk.Logic

/-! Values, names and attributes in a walk. -/
namespace FlowTypes

open TypeStore Analysis

variable {s : State}

/-! ### Values -/

theorem State.Valid.simple (valid : s.Valid) {id : TypeId} (h : id.index < 10 ∧ id ≠ .cont) :
    s.Value id :=
  valid.heap.sound.simple id h.1 h.2

theorem State.Valid.unknown (valid : s.Valid) : s.Value .unknown := valid.heap.sound.unknown

theorem State.Valid.alternatives (valid : s.Valid) {id : TypeId} (h : s.Value id) :
    s.Values (s.types.alternatives id) :=
  valid.heap.sound.alternatives h

theorem State.Valid.mention (valid : s.Valid) {id : TypeId} (found : s.types.get id = t)
    (member : m ∈ t.mentions) : s.Value m :=
  valid.heap.sound.mention found member

/-- A value that is no module. -/
structure State.Plain (s : State) (id : TypeId) : Prop where
  value : s.Value id
  other : ∀ d, s.types.get id ≠ .module d

theorem Onward.plain {id : TypeId} (on : Onward s s') (plain : s.Plain id) : s'.Plain id where
  value := on.value plain.value
  other := fun d module =>
    plain.other d ((on.kept.stays plain.value.has).module_iff.mp module)

theorem State.Valid.str (valid : s.Valid) : s.Plain .str where
  value := valid.simple (by decide)
  other := fun d module => by
    have there : TypeStore.initial.Has .str := by decide
    have stays := valid.heap.first.stays there
    cases stays.module_iff.mp module

theorem State.Plain.qualified {id : TypeId} (plain : s.Plain id) :
    s.heap.qualified table name id = s.scopes.qualify table name := by
  unfold Heap.qualified
  split
  · next d module => exact absurd module (plain.other d)
  · rfl

theorem walks_onTypes {Q : State → α → Prop} {f : TypeStore → α × TypeStore}
    (move : s.heap.Move { s.heap with types := (f s.types).2 })
    (h : Q { s with heap.types := (f s.types).2 } (f s.types).1) : Walks (onTypes f) s Q :=
  .onHeap move h

theorem walks_modifyTypes (move : s.heap.Move { s.heap with types := f s.types }) :
    Walks (modifyTypes f) s Anything :=
  walks_onTypes move trivial

theorem walks_union (ha : s.Value a) (hb : s.Value b) : Walks (union a b) s State.Value :=
  .assume fun valid => walks_onTypes (.union ha.has hb.has) (valid.heap.sound.union ha hb).refers

theorem walks_union_flow (ha : s.Has a) (hb : s.Has b) : Walks (union a b) s State.Has :=
  .assume fun valid => walks_onTypes (.union ha hb) (valid.heap.sound.union_flow ha hb).2

theorem walks_unionOpt (ha : s.Optional a) (hb : s.Value b) :
    Walks (unionOpt a b) s State.Value := by
  cases a with
  | none => exact .pure hb
  | some a => exact walks_union (ha a rfl) hb

theorem walks_unionOpt_flow (ha : ∀ v, a = some v → s.Has v) (hb : s.Has b) :
    Walks (unionOpt a b) s State.Has := by
  cases a with
  | none => exact .pure hb
  | some a => exact walks_union_flow (ha a rfl) hb

theorem unionFrom_eq : onTypes (·.unionFrom a ids) = ids.foldlM union a := by
  induction ids generalizing a with
  | nil => rfl
  | cons b ids ih =>
    rw [List.foldlM_cons]
    simp only [← ih]
    rfl

theorem walks_unionAll (h : s.Values ids) : Walks (unionAll ids) s State.Value := by
  refine .assume fun valid => ?_
  cases ids with
  | nil => exact .pure valid.unknown
  | cons a ids =>
    have folds : Walks (ids.foldlM union a) s State.Value :=
      .foldlM (h a List.mem_cons_self) fun b member s' acc on known =>
        walks_union known (on.value (h b (List.mem_cons_of_mem a member)))
    rw [← unionFrom_eq] at folds
    exact folds

theorem walks_unionOver (each : ∀ x ∈ xs, ∀ s', Onward s s' → Walks (f x) s' State.Value) :
    Walks (unionOver xs f) s State.Value := by
  refine Walks.bind (Q := State.Optional) ?_ fun result s₁ on known =>
    .pure (known.getD on.valid.unknown)
  refine .foldlM s.optional_none fun x member s' acc on known => ?_
  refine (each x member s' on).bind fun v s₁ on₁ hv => ?_
  refine (walks_unionOpt (on₁.optional known) hv).bind fun u _ _ hu => ?_
  exact .pure (State.optional_some hu)

theorem walks_mapM_values {α : Type} {xs : List α} {f : α → Analysis TypeId}
    (each : ∀ x ∈ xs, ∀ s', Onward s s' → Walks (f x) s' State.Value) :
    Walks (xs.mapM f) s State.Values :=
  .mapM (fun _ _ _ on value => on.value value) each

theorem walks_newList (he : s.Value element)
    (hp : s.Values positional) : Walks (newList element positional strings) s State.Value :=
  .get_bind (.onHeap (.newList _ strings he hp)
    (Heap.gives_newList s.builtins.bases strings he hp).refers)

theorem walks_newListOf (he : s.Value element) : Walks (newListOf element) s State.Value :=
  walks_newList he (by simp [State.Values])

theorem walks_plainDict (hk : s.Value key) (hv : s.Value value) :
    Walks (newDict key value) s State.Plain := by
  refine .get_bind (.onHeap (.newDict _ hk hv)
    ⟨(Heap.gives_newDict s.builtins.bases hk hv).refers, fun d module => ?_⟩)
  simp only [State.types, Heap.newDict, Heap.types_inheritTable, Heap.allocWithTable] at module
  cases (get_alloc_new _ _).symm.trans module

theorem walks_newDict (hk : s.Value key) (hv : s.Value value) :
    Walks (newDict key value) s State.Value :=
  (walks_plainDict hk hv).mono fun _ _ _ plain => plain.value

theorem walks_plainTuple (he : s.Values elements) : Walks (newTuple elements) s State.Plain := by
  refine .get_bind (.onHeap (.newTuple _ he)
    ⟨(Heap.gives_newTuple s.builtins.bases he).refers, fun d module => ?_⟩)
  simp only [State.types, Heap.newTuple, Heap.types_inheritTable, Heap.allocWithTable] at module
  cases (get_alloc_new _ _).symm.trans module

theorem walks_newTuple (he : s.Values elements) : Walks (newTuple elements) s State.Value :=
  (walks_plainTuple he).mono fun _ _ _ plain => plain.value

theorem walks_canonicalInstance : Walks (canonicalInstance classId) s State.Value :=
  .assume fun valid => .onHeap (.instanceOf classId) (Heap.gives_instanceOf classId valid.heap.sound).refers

theorem walks_addBase : Walks (addBase classId base) s Anything :=
  .onHeap (.addBase classId base) trivial

theorem walks_widenList (hv : s.Value value) : Walks (widenList list value) s Anything :=
  walks_modifyTypes (.widenList list hv)

/-! ### Notes -/

theorem walks_debug : Walks (debug text) s Anything :=
  .modify (.step (.log _))

theorem walks_recordType (node : NodeId) (hv : s.Value type) :
    Walks (recordType node type) s Anything :=
  .modify (f := fun s => { s with
    heap.types := (s.types.unionOpt (s.nodeTypes.get? node) type).2
    nodeTypes := s.nodeTypes.insert node (s.types.unionOpt (s.nodeTypes.get? node) type).1 })
    (.step (.recordType node hv))

theorem walks_report : Walks (report category span message) s Anything := by
  refine .get_bind ?_
  split
  · exact .pure trivial
  · next new =>
    have logged : Walks (debug (Diagnostic.text ⟨category, span, message⟩)) s
        fun s' _ => s'.diagnostics = s.diagnostics := .modifyGet (.step (.log _)) rfl
    refine logged.bind fun _ _ on same => .modify (.step (.report ?_))
    rw [same]
    simpa using new

/-! ### Names -/

theorem walks_addRefs : Walks (addRefs bindings node) s Anything :=
  .modify (.step (.refer bindings node))

theorem walks_unionOfBindings : Walks (unionOfBindings bindings) s State.Value := by
  refine .assume fun valid => ?_
  refine .get_bind (walks_unionAll fun v member => ?_)
  obtain ⟨id, _, rfl⟩ := List.mem_map.mp member
  exact valid.typeOf

theorem walks_defineSynthetic
    (hv : s.Value type) (named : qualified = s.heap.qualified table name type) :
    Walks (defineSynthetic table name type kind qualified) s Anything :=
  .modify (.step (.bind (b := {
    name, kind, node := ⟨0, name, .null⟩, type, qualified, isSynthetic := true }) table hv rfl rfl
    named))

theorem walks_defineImplicit
    (plain : s.Plain type) : Walks (defineImplicit table name type kind) s Anything :=
  .get_bind (walks_defineSynthetic plain.value
    plain.qualified.symm)

theorem walks_variableKind : Walks (variableKind scope) s Anything := by
  refine .get_bind ?_
  split <;> exact .pure trivial

theorem walks_takeForward : Walks (takeForward scope name) s Anything := by
  refine .modifyGet ?_ trivial
  split
  · exact .step (.takeForward (scope, name))
  · exact .refl s

theorem walks_extendBinding {node : NodeRef} {id : BindingId} (hv : s.Value type) :
    Walks (extendBinding node type id) s Anything :=
  .modify (f := fun s => { s with
    heap.types := (s.types.union (s.bindings.typeOf id) type).2
    bindings := s.bindings.modify id fun b => Binding.refer
      { b with type := (s.types.union (s.bindings.typeOf id) type).1 } node })
    (.step (.extendBinding node id hv))

theorem walks_defineIn
    (hv : s.Value type) : Walks (defineIn table name node type kind) s Anything := by
  refine .get_bind ?_
  split
  · refine Walks.bind (Q := Anything) (.forM fun id _ s' on => ?_) fun _ _ on _ =>
      .pure trivial
    exact walks_extendBinding (on.value hv)
  · exact .modifyGet (.step (.bind (b := { name, kind, node, type, qualified := _ }) table hv
      rfl rfl rfl)) trivial

theorem walks_bindName
    (hv : s.Value type) : Walks (bindName scope name node type kind) s Anything := by
  refine .get_bind ?_
  refine walks_takeForward.bind fun early _ on₁ _ => ?_
  refine (walks_defineIn (on₁.value hv)).bind fun ids _ _ _ => ?_
  refine Walks.bind (Q := Anything) (.forM fun node _ s' on => ?_) fun _ _ on _ =>
    .pure trivial
  exact walks_addRefs

theorem walks_declareForward
    (hv : s.Value type) : Walks (declareForward module name type) s Anything :=
  .modify (.step (.forward (f := { type }) (module, name) hv))

theorem walks_readForward : Walks (readForward scope name node) s State.Optional := by
  intro valid a s' ran
  simp only [readForward, StateT.run_modifyGet] at ran
  split at ran
  · cases ran
    exact ⟨.refl valid, State.optional_none _⟩
  · next m f found =>
    cases ran
    obtain ⟨_, _, there⟩ := Option.bind_eq_some_iff.mp found
    obtain ⟨_, there, ⟨⟩⟩ := Option.map_eq_some_iff.mp there
    have value := valid.forward f (InsertionMap.mem_values_of_get? there)
    exact ⟨.of_walked (.step (.forward (f := { f with refs := f.refs ++ [node] }) (m, name) value))
      valid, State.optional_some value⟩

theorem walks_readName : Walks (readName scope name node) s State.Value := by
  refine .get_bind ?_
  split
  · next bindings found =>
    refine walks_addRefs.bind fun _ s₁ on _ => ?_
    exact walks_unionOfBindings
  · refine walks_readForward.bind fun type s₁ on known => ?_
    split
    · exact .pure (known _ rfl)
    · refine walks_report.bind fun _ _ on₂ _ => ?_
      exact .pure on₂.valid.unknown

theorem walks_referDeclared : Walks (referDeclared scope name node) s Anything := by
  refine .get_bind ?_
  split
  · exact walks_addRefs
  · exact .pure trivial

theorem walks_fileOf : Walks (fileOf scope) s Anything := by
  refine .get_bind ?_
  split
  · split <;> exact .pure trivial
  · exact .pure trivial

/-! ### Attributes -/

theorem walks_bindMethod (hf : s.Value fn) (hr : s.Value receiver) :
    Walks (bindMethod fn receiver) s State.Value := by
  refine .assume fun valid => ?_
  refine .get_bind ?_
  dsimp only
  split
  · next bound found =>
    exact .pure (valid.boundMethods bound (InsertionMap.mem_values_of_get? found))
  · have source : s.Value (s.types.originOf fn) := valid.heap.sound.originOf hf
    exact .modifyGet (f := fun s => ((s.heap.bindMethod (s.types.originOf fn) receiver).1, { s with
      heap := (s.heap.bindMethod (s.types.originOf fn) receiver).2
      boundMethods := s.boundMethods.insert (s.types.originOf fn, receiver)
        (s.heap.bindMethod (s.types.originOf fn) receiver).1 }))
      (.step (.bindMethod source hr))
      (Heap.gives_bindMethod valid.heap.sound source hr).refers

theorem walks_bindTo (ho : s.Value object) (hv : s.Value value) :
    Walks (bindTo object value) s State.Value := by
  refine .assume fun valid => ?_
  refine .get_bind ?_
  dsimp only
  split
  · exact .pure hv
  · exact .pure hv
  · exact walks_bindMethod hv ho
  · exact walks_bindMethod hv ho
  · next d found => exact walks_bindMethod hv (valid.mention found (by simp [Ty.mentions]))
  · exact .pure hv

/-- What is known of an attribute that was found. -/
def State.Attribute (s : State) (found : Option (List BindingId × TypeId)) : Prop :=
  ∀ r, found = some r → s.Value r.2

theorem walks_attribute? (ho : s.Value object) :
    Walks (attribute? object name) s State.Attribute := by
  refine .get_bind ?_
  split
  · exact .pure (by rintro _ ⟨⟩)
  · next bindings found =>
    refine walks_unionOfBindings.bind fun raw s₁ on₁ hr => .gets_bind ?_
    have each : ∀ x ∈ s₁.types.alternatives raw, ∀ s', Onward s₁ s' →
        Walks (bindTo object x) s' State.Value := fun x member s' on =>
      walks_bindTo (on.value (on₁.value ho))
        (on.value (on₁.valid.alternatives hr x member))
    refine (walks_mapM_values each).bind fun values _ _ hv => ?_
    refine (walks_unionAll hv).bind fun u _ _ hu => ?_
    exact .pure (by rintro _ ⟨⟩; exact hu)

theorem walks_attributeTarget (ho : s.Value object) :
    Walks (attributeTarget object) s State.Value := by
  refine .get_bind ?_
  split
  · split
    · exact walks_canonicalInstance
    · exact .pure ho
  · exact .pure ho

theorem walks_setAttribute (ho : s.Value object)
    (hv : s.Value value) : Walks (setAttribute object name node value) s Anything := by
  refine .assume fun valid => ?_
  refine .gets_bind (.forM fun alternative member _ on₁ => ?_)
  have ha := on₁.value (valid.alternatives ho alternative member)
  refine (walks_attributeTarget ha).bind fun target _ on₂ _ => .gets_bind ?_
  split
  · exact (walks_bindName (on₂.value (on₁.value hv))).discard
  · exact .pure trivial

end FlowTypes
