import FlowTypes.Proofs.Walk.Files

/-! Statements and blocks in a walk, and the walk as a whole. -/
namespace FlowTypes

open TypeStore Analysis

variable {s s' : State} {w : Walker}

theorem Analysis.walks_instanceWithin (n : Nat) {id : TypeId}
    (hv : s.Value id) : Walks (instanceWithin n id) s State.Value := by
  induction n generalizing s id with
  | zero => exact .throw
  | succ n ih =>
    refine .gets_bind (walks_unionOver fun alternative member _ on₁ => .gets_bind ?_)
    split
    · refine .get_bind ?_
      split
      · next simple found =>
        exact .pure
          (on₁.valid.builtins.simple (alternative, simple) (InsertionMap.mem_of_lookup found))
      · exact walks_canonicalInstance
    · next d found =>
      refine (walks_mapM_values fun v member s' on =>
        ih (on.value (on₁.valid.mention found member))).bind fun ids _ _ hi => ?_
      exact walks_unionAll hi
    · exact .pure on₁.valid.unknown

theorem Analysis.walks_instanceOf {id : TypeId} (hv : s.Value id) :
    Walks (instanceOf id) s State.Value :=
  walks_instanceWithin _ hv

theorem State.has_cont (valid : s.Valid) : s.Has .cont :=
  has_of_get (by simp [valid.heap.sound.cont])

namespace Walker

section

variable (sound : w.Sound)

include sound

theorem walks_eval : Walks (w.eval scope e) s Anything :=
  (sound.expr scope e).discard

omit sound in
theorem walks_bindException {exception : TypeId}
    (he : s.Value exception) : Walks (bindException scope h exception) s Anything := by
  unfold bindException
  split
  · next name _ =>
    refine walks_variableKind.bind fun kind _ on₁ _ => ?_
    exact (walks_bindName (on₁.value he)).discard
  · exact .pure trivial

theorem walks_exception : Walks (w.exception scope h) s State.Value := by
  refine .assume fun valid => ?_
  unfold exception
  split
  · refine (sound.expr scope _).bind fun v _ _ hv => ?_
    exact walks_instanceOf hv
  · exact .pure valid.unknown

theorem walks_enter : Walks (w.enter scope p) s Anything := by
  cases p with
  | plain body => exact .pure trivial
  | handler h =>
    refine (walks_exception sound).bind fun exception _ _ he => ?_
    exact walks_bindException he

theorem walks_part (p : Part) : Walks (w.part scope p) s State.Has := by
  refine (walks_enter sound).bind fun _ _ _ _ => ?_
  exact sound.block scope p.body

theorem walks_anyOf : Walks (w.anyOf scope parts) s State.Has := by
  refine Walks.bind (Q := fun s acc => ∀ v, acc = some v → s.Has v)
    (.foldlM (by simp) fun p _ s₁ acc on₁ known => ?_) fun acc s₁ on₁ known => ?_
  · refine (walks_part sound p).bind fun flow _ on₂ hf => ?_
    refine (walks_unionOpt_flow (fun v found => on₂.has (known v found)) hf).bind
      fun u _ _ hu => ?_
    exact .pure (by rintro _ ⟨⟩; exact hu)
  · cases acc with
    | none => exact .pure on₁.valid.unknown.has
    | some flow => exact .pure (known flow rfl)

theorem walks_tryBlock : Walks (w.tryBlock scope parts final) s State.Has := by
  refine (walks_anyOf sound).bind fun flow _ _ hf => ?_
  split
  · exact .pure hf
  · refine (sound.block scope final).bind fun last _ on₂ hl => .gets_bind ?_
    split
    · exact .pure (on₂.has hf)
    · exact .pure hl

theorem walks_withItem : Walks (w.withItem scope span item) s Anything := by
  refine (sound.expr scope item.context).bind fun context s₁ _ hc => ?_
  split
  · exact .pure trivial
  · refine (walks_callMethod sound hc CallArgs.valid_none).bind
      fun entered _ on₂ known => ?_
    exact sound.assign scope _ (known.getD (on₂.value hc))

omit sound in
theorem walks_modifyScopes (move : s.heap.Move { s.heap with scopes := f s.heap.scopes }) :
    Walks (modifyScopes f) s Anything :=
  .onHeap move trivial

theorem walks_delete : Walks (w.delete scope target) s Anything := by
  refine (walks_eval sound).bind fun _ _ _ _ => ?_
  split
  · exact walks_modifyScopes
      (.rename scope (fun _ => ⟨rfl, rfl⟩) fun _ => List.filter_sublist)
  · exact .pure trivial

omit sound in
theorem walks_declareNames
    (moves : ∀ (h : Heap) name, h.Move { h with scopes := declare h.scopes scope name }) :
    Walks (declareNames scope node names declare) s Anything := by
  refine .forM fun name _ s₁ _ => ?_
  refine (walks_modifyScopes (moves s₁.heap name)).bind fun _ _ _ _ => ?_
  exact walks_referDeclared

theorem walks_declared (hh : s.Value hint) : Walks (w.declared scope hint value) s State.Value := by
  cases value with
  | none => exact walks_instanceOf hh
  | some value => exact sound.expr scope value

theorem walks_evals {scope : ScopeId} {es : List Expr} :
    Walks (es.forM (w.eval scope)) s Anything :=
  .forM fun _ _ _ _ => walks_eval sound

theorem walks_simple {scope : ScopeId} {statement : Stmt} :
    Walks (w.simple scope statement) s Anything := by
  unfold simple
  split
  · exact walks_eval sound
  · refine (sound.expr scope _).bind fun v s₁ on₁ hv => ?_
    exact .forM fun target _ _ on => sound.assign scope target (on.value hv)
  · refine (sound.expr scope _).bind fun current s₁ on₁ hc => ?_
    refine (sound.expr scope _).bind fun v s₂ on₂ hv => ?_
    refine (walks_binary sound (on₂.value hc) hv).bind fun result _ _ hr => ?_
    exact sound.assign scope _ hr
  · refine (sound.expr scope _).bind fun hint s₁ on₁ hh => ?_
    refine (walks_declared sound hh).bind fun v s₂ on₂ hv => ?_
    exact sound.assign scope _ hv
  · exact walks_function sound
  · exact walks_classDef sound
  · exact walks_evals sound
  · exact walks_evals sound
  · exact .forM fun target _ _ on => walks_delete sound
  · exact walks_declareNames fun h name =>
      .rename scope (fun _ => ⟨rfl, rfl⟩) fun _ => .refl _
  · exact walks_declareNames fun h name =>
      .rename scope (fun _ => ⟨rfl, rfl⟩) fun _ => .refl _
  · exact walks_imports sound
  · exact walks_importFrom sound
  · exact walks_evals sound
  · exact .pure trivial

theorem walks_stmt (statement : Stmt) : Walks (w.stmt scope statement) s State.Has := by
  unfold stmt
  split
  · exact (walks_valueOf sound).mono fun _ _ _ hv => hv.has
  · refine (walks_eval sound).bind fun _ s₁ on₁ _ => ?_
    exact walks_anyOf sound
  · refine (walks_eval sound).bind fun _ s₁ on₁ _ => ?_
    exact walks_anyOf sound
  · refine (sound.expr scope _).bind fun iter s₁ on₁ hi => ?_
    refine (sound.element _ hi).bind fun element _ _ he => ?_
    refine (sound.assign scope _ he).bind fun _ _ _ _ => ?_
    exact walks_anyOf sound
  · exact walks_tryBlock sound
  · have items : ∀ xs : List WithItem, ∀ span, Walks (xs.forM (w.withItem scope span)) s Anything :=
      fun xs span => .forM fun item _ _ on => walks_withItem sound
    refine (items _ _).bind fun _ s₁ on₁ _ => ?_
    exact sound.block scope _
  · refine (walks_simple sound).bind fun _ s₁ on₁ _ => ?_
    exact .pure (State.has_cont on₁.valid)

/-! ### Blocks -/

/-- What a block has returned so far is a value; one that has ended has returned something. -/
structure Flow.Valid (s : State) (f : Flow) : Prop where
  returned : s.Optional f.returned
  ended : f.ended = true → f.returned.isSome = true

omit sound in
theorem walks_add {f : Flow} (hf : f.Valid s) (hv : s.Has flow) :
    Walks (f.add flow) s Flow.Valid := by
  refine .assume fun valid => ?_
  unfold Flow.add
  split
  · exact .pure hf
  · refine .gets_bind ?_
    split
    · refine (walks_remove_cont hv).bind fun rest s₁ on₁ known => ?_
      split
      · next value =>
        refine (walks_unionOpt (on₁.optional hf.returned) (known value rfl)).bind
          fun u _ _ hu => ?_
        exact .pure ⟨State.optional_some hu, fun _ => rfl⟩
      · exact .pure ⟨on₁.optional hf.returned, hf.ended⟩
    · next ends =>
      have value : s.Value flow :=
        valid.heap.sound.value_of_contains hv (by simpa [State.types] using ends)
      refine (walks_unionOpt hf.returned value).bind fun u s₁ on₁ hu => ?_
      exact .pure ⟨State.optional_some hu, fun _ => rfl⟩

omit sound in
theorem walks_type {f : Flow} (hf : f.Valid s) : Walks f.type s State.Has := by
  refine .assume fun valid => ?_
  unfold Flow.type
  split
  · next ended =>
    obtain ⟨v, found⟩ := Option.isSome_iff_exists.mp (hf.ended ended)
    rw [found]
    exact .pure (hf.returned v found).has
  · exact walks_unionOpt_flow (fun v found => (hf.returned v found).has) (State.has_cont valid)

theorem walks_blockStep (scope : ScopeId) (body : List Stmt) :
    Walks (w.blockStep scope body) s State.Has := by
  refine Walks.bind (Q := fun s (f : Flow) => f.Valid s) (.foldlM ?_ ?_) ?_
  · exact ⟨s.optional_none, fun ended => by cases ended⟩
  · intro statement _ s₁ f on₁ hf
    refine (walks_stmt sound statement).bind fun flow _ on₂ hv => ?_
    exact walks_add ⟨on₂.optional hf.returned, hf.ended⟩ hv
  · exact fun f s₁ on₁ hf => walks_type hf

end
end Walker

/-- The walk is sound at every number of levels, by induction on it. -/
theorem walker_sound (n : Nat) : (walker files limits n).Sound := by
  induction n with
  | zero =>
    exact {
      level := ⟨files, limits, 0, rfl⟩
      expr := fun _ _ => .throw
      block := fun _ _ => .throw
      assign := fun _ _ _ _ => .throw
      element := fun _ _ => .throw
      call := fun _ _ _ => .throw
      load := fun _ => .throw }
  | succ n ih =>
    exact {
      level := ⟨files, limits, n + 1, rfl⟩
      expr := Walker.walks_exprStep ih
      block := Walker.walks_blockStep ih
      assign := fun scope target _ => Walker.walks_assignStep ih
      element := Walker.walks_elementStep ih
      call := Walker.walks_callStep ih
      load := Walker.walks_loadStep ih }

end FlowTypes
