import FlowTypes.Proofs.Watch.Discipline

/-! Calls under watch. Iterating over a value and calling it yield nothing in the frame they happen in,
because a body that is walked for them has a frame of its own. -/
namespace FlowTypes

open Analysis

/-- An activity that makes no scopes. -/
def SameScopes {α : Type} (m : Analysis α) : Prop :=
  ∀ s a s', m.run s = .ok (a, s') → s'.scopeKinds = s.scopeKinds

namespace SameScopes

variable {α β : Type} {m : Analysis α} {f : α → Analysis β}

theorem pure : SameScopes (Pure.pure a : Analysis α) := by
  rintro s _ _ ⟨⟩
  rfl

theorem bind (first : SameScopes m) (next : ∀ a, SameScopes (f a)) : SameScopes (m >>= f) := by
  intro s b s'' ran
  obtain ⟨a, s', half, rest⟩ := Walks.run_bind ran
  exact (next a s' b s'' rest).trans (first s a s' half)

theorem modifyGet {f : State → α × State} (same : ∀ s, (f s).2.scopeKinds = s.scopeKinds) :
    SameScopes (modifyGet f) := by
  intro s a s' ran
  have result : f s = (a, s') := Except.ok.inj ran
  have kept := same s
  rwa [result] at kept

theorem get : SameScopes get := by
  rintro s _ _ ⟨⟩
  rfl

theorem forM {xs : List α} {f : α → Analysis Unit} (each : ∀ x, SameScopes (f x)) :
    SameScopes (xs.forM f) := by
  induction xs with
  | nil => exact .pure
  | cons x xs ih => exact (each x).bind fun _ => ih

end SameScopes

theorem sameScopes_defineIn : SameScopes (defineIn table name node type kind) := by
  refine SameScopes.get.bind fun s => ?_
  split
  · refine (SameScopes.forM fun id => ?_).bind fun _ => .pure
    refine SameScopes.get.bind fun s => .bind (.modifyGet fun _ => rfl) fun merged => ?_
    exact .modifyGet fun _ => rfl
  · refine .modifyGet fun s => Array.ext_getElem? fun i => ?_
    simp only [State.scopeKinds, State.scopes, ScopeStore.define, ScopeStore.modify,
      Array.getElem?_map, Array.getElem?_modify]
    split
    · cases s.heap.scopes.scopes[i]? <;> rfl
    · rfl

theorem sameScopes_bindLocals : SameScopes (bindLocals scope parameters types) := by
  refine .forM fun parameter => .bind ?_ fun _ => .pure
  refine SameScopes.get.bind fun s => .bind (.modifyGet fun s => ?_) fun early => ?_
  · split <;> rfl
  · refine sameScopes_defineIn.bind fun bindings => ?_
    exact (SameScopes.forM fun node => .modifyGet fun _ => rfl).bind fun _ => .pure

namespace Watch

variable {W : Watch} {D : Realm} {loud : Bool} {s : State}

section

variable (holds : W.Holds)

include holds

theorem tracks_ask : W.Tracks D loud fun v => v.ask p answer := by
  intro s inv
  refine .of_same (by simp only [Walker.ask, holds.files]) fun a s' ran => ?_
  simp only [Walker.ask] at ran
  split at ran
  · cases ran
    exact ⟨inv, .refl⟩
  · cases ran

theorem Holds.calling : (W.trait loud).Calling :=
  { W.composed loud with
    element := fun _ _ => holds.element _ _
    call := fun _ _ => holds.call _ _ _ }

theorem Holds.below (scope : ScopeId) : (W.trait true).Below scope :=
  { holds.calling with
    ask := fun _ _ => tracks_ask holds
    noted := trait_of_quiet (.of Quiet.composed.recordType)
    expr := fun _ allows => holds.expr _ (allows _ List.mem_cons_self)
    block := fun _ allows => holds.block scope fun _ member => allows _ (List.mem_map_of_mem member)
    assign := fun _ allows => holds.assign _ _ (allows _ List.mem_cons_self)
    load := fun _ _ => holds.load _
    undefine := trait_of_quiet .undefine }

/-! ### Applications -/

theorem tracks_body (has : D.has d.phrase) : W.Tracks D true fun v => v.body scope d := by
  cases d with
  | function d =>
    refine (holds.block scope fun t member => D.stmts has member).bind fun flow => ?_
    exact .quiet (Quiet.of Quiet.composed.returnOfFlow)
  | lambda node parameters body => exact holds.expr scope (D.expr has List.mem_cons_self)

theorem tracks_bodyWith (has : D.has d.phrase) : W.Tracks D true fun v => v.bodyWith f d types := by
  refine .bind (.quiet (Quiet.of Quiet.composed.newLocals)) fun scope => ?_
  refine .bind (.quiet (Quiet.of Quiet.composed.bindLocals)) fun _ => ?_
  exact tracks_body holds has

omit holds in
theorem hasLocals_bindLocals {f : FunctionType} {parameters : List (Parameter Expr)}
    {types : List TypeId} {scope : ScopeId} {s₁ s₂ : State}
    (made : (newLocals f).run s = .ok (scope, s₁))
    (bound : (bindLocals scope parameters types).run s₁ = .ok ((), s₂)) : s₂.hasLocals = true := by
  have kinds := sameScopes_bindLocals s₁ () s₂ bound
  have new : s₁.scopeKinds.back? = some .function := by
    obtain rfl := (Prod.mk.inj (Except.ok.inj made)).2
    simp [State.scopeKinds, State.scopes]
  exact decide_eq_true (kinds ▸ new)

/-- The watch stops at a body in a state that it does not like. -/
theorem refuses_body
    (refused : W.rule.check s = some W.rule.stop) :
    (W.watched.body scope d).run s = .error W.rule.stop := by
  cases d with
  | function d =>
    show (W.watched.block scope d.body >>= fun flow =>
      returnOfFlow flow d.name d.nameSpan).run s = _
    rw [StateT.run_bind, holds.refusesBlock scope d.body refused]
    rfl
  | lambda node parameters body => exact holds.refusesExpr scope body refused

theorem refuses_bodyWith
    (stops : W.rule.Stops)
    (refused : ∀ s', s.Quietly s' → s'.hasLocals = true → W.rule.check s' = some W.rule.stop) :
    W.TracksAt true P s fun v => v.bodyWith f d types := by
  refine .bind (.of_quiet (Quiet.of Quiet.composed.newLocals) fun _ quietly => quietly)
    fun scope s₁ made moved _ => ?_
  refine .bind (.of_quiet (Quiet.of Quiet.composed.bindLocals) fun _ quietly => quietly)
    fun _ s₂ bound moved' _ => .inr ⟨stops, refuses_body holds ?_⟩
  exact refused s₂ (moved.trans moved') (hasLocals_bindLocals made bound)

theorem tracks_recordArrow (left : W.rule.Left g D s) :
    W.TracksAt loud (W.rule.Inv D) s fun v => recordArrow g arguments result name v.limits := by
  refine .get_bind (.quiet_bind (.onHeap fun h => ?_) fun arguments s₁ moved => ?_)
  · exact (h.edits_canonicalArguments.spares : h.Spares ⟨0⟩ _).calm
  · have inv := W.rule.recorded ⟨arguments, result⟩ W.plain.limits (W.rule.left_quiet left moved)
    refine .bind (P := W.rule.Inv D) (.of_same (by simp only [holds.limits]) ?_)
      fun outcome s₂ _ inv _ => ?_
    · rintro _ _ ⟨⟩
      refine ⟨inv, .of_frames rfl (fun id l known => ?_) (fun _ held => held) ?_⟩
      · exact (TypeStore.lineage?_insertArrow _ _ _ _ id).trans known
      · refine .of_same rfl rfl rfl fun id known => ?_
        have agrees : TypeStore.Agrees (fun t => some t.isClass) s₁.types
            (s₁.types.insertArrow g ⟨arguments, result⟩ W.plain.limits).2 :=
          TypeStore.agrees_insertArrow (fun _ _ => rfl)
        exact (Option.some.inj (agrees id)).trans known
    · refine .of_quiet ((Quiet.of Quiet.composed.noteOutcome).bind fun _ => ?_)
        fun _ quietly => W.rule.quiet inv quietly
      split
      · exact quiet_debug
      · exact .pure

theorem tracks_applyAnew
    (taken : W.rule.Taken g d D s) (new : s.isApplied g = false)
    (unknown : s.types.resultFor? g arguments = none) :
    W.TracksAt loud (W.rule.Inv D) s fun v => v.applyAnew g f d arguments types := by
  have walked : W.TracksAt loud (W.rule.Left g D) s fun v =>
      inFrame g (v.bodyWith f d types) := by
    rcases W.rule.entered taken new unknown with ⟨D', has, inv, left⟩ | ⟨stops, refused⟩
    · obtain ⟨files, limits, n, plain⟩ := holds.level
      refine .inFrame (tracks_bodyWith holds has _ inv).ran ?_
      rintro s' ⟨inv', result, ran⟩ later
      exact left s' inv' later ⟨files, limits, n, f, types, result, plain ▸ ran⟩
    · exact .inFrame (P := fun _ => False) (refuses_bodyWith holds stops refused)
        fun _ impossible => impossible.elim
  refine walked.bind fun result s₁ _ left _ => ?_
  refine .quiet_bind (Quiet.of Quiet.composed.resultOfBody) fun value s₂ moved => ?_
  refine (tracks_recordArrow holds (W.rule.left_quiet left moved)).bind
    fun _ s₃ _ inv _ => ?_
  exact .pure inv value

theorem tracks_applyDefined
    (taken : W.rule.Taken g d D (s.uncall g)) :
    W.TracksAt loud (W.rule.Inv D) s fun v => v.applyDefined g f d args := by
  refine .modify_bind (.of_frames rfl (fun _ _ known => known) (fun _ held => held)
    (.of_same rfl rfl rfl fun _ known => known)) ?_
  refine .quiet_bind (Quiet.of Quiet.composed.parameterTypes) fun types s₁ moved => ?_
  refine .quiet_bind (Quiet.of Quiet.composed.newTuple) fun arguments s₂ moved' => ?_
  have taken := W.rule.taken_quiet taken (moved.trans moved')
  refine .get_bind ?_
  show W.TracksAt loud (W.rule.Inv D) s₂ fun v => if s₂.isApplied g = true then _ else _
  split
  · next applied =>
    have answer : s₂.isApplied g = true ∨ (s₂.types.resultFor? g arguments).isSome = true :=
      .inl applied
    have inv := W.rule.answered taken answer
    refine .quiet_bind quiet_debug fun _ s₃ moved => ?_
    exact .get_bind (.pure (W.rule.quiet inv moved) _)
  · next new =>
    refine .get_bind ?_
    split
    · next known =>
      exact .pure (W.rule.answered taken (.inr (by rw [known]; rfl))) _
    · next unknown =>
      exact tracks_applyAnew holds taken (by simpa using new) unknown

theorem tracks_apply : W.Tracks D loud fun v => v.apply fn args span := by
  intro s inv
  refine .get_bind ?_
  split
  · exact .pure inv _
  · next f found =>
    split
    · exact tracks holds.calling.native s inv
    · next d unknown defined =>
      exact tracks_applyDefined holds (W.rule.taken inv found unknown defined)
    · exact .pure inv _

theorem tracks_applyUncalled : W.Tracks D loud fun v => v.applyUncalled fn := by
  refine .get_bind fun s => ?_
  split
  · exact .pure
  · next f _ =>
    split
    · exact .pure
    · refine .bind (.quiet (Quiet.of Quiet.composed.receiverFor)) fun receiver => ?_
      refine .bind (.quiet quiet_debug) fun _ => ?_
      split
      · next receiver =>
        refine .bind (.quiet quiet_bindMethod) fun bound => ?_
        exact (tracks_apply holds).discard
      · exact (tracks_apply holds).discard

end
end Watch
end FlowTypes
