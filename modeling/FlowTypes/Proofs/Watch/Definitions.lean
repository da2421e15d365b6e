import FlowTypes.Proofs.Watch.Calls

/-! Definitions under watch. -/
namespace FlowTypes.Watch

open Analysis

variable {W : Watch} {D : Realm} {loud : Bool} {s s' : State}

theorem facts?_newFunctionWith (h : Heap) (bases : Bases) (name path : String) (env : ScopeId)
    (complete : FunctionType → FunctionType) (id : TypeId) :
    (h.newFunctionWith bases name path env complete).2.types.facts? id =
      if id = ⟨h.types.size⟩ then
        (Ty.function (complete { name, env, table := ⟨h.scopes.size⟩ })).facts?
      else h.types.facts? id := by
  simp only [Heap.newFunctionWith, TypeStore.facts?, Heap.types_inheritTable]
  split
  · next new =>
    subst new
    exact congrArg Ty.facts? (TypeStore.get_alloc_new _ _)
  · next other =>
    rcases h.types.get_alloc_cases
      (.function (complete { name, env, table := ⟨h.scopes.size⟩ })) id with same | ⟨new, _⟩
    · exact congrArg Ty.facts? same
    · exact absurd new other

theorem run_defineValue_new
    (kept : ∀ outer f, (complete outer f).lineage = f.lineage ∧ (complete outer f).arrows = f.arrows)
    (new : s.functions.get? d.node.id = none)
    (ran : (defineValue scope d complete).run s = .ok (fn, s')) :
    fn = ⟨s.types.size⟩ ∧ s.Meets d fn s' := by
  obtain ⟨_, _, ⟨⟩, ran⟩ := Walks.run_bind ran
  rw [new] at ran
  obtain ⟨_, _, ⟨⟩, ran⟩ := Walks.run_bind ran
  obtain ⟨fn', s₁, made, ran⟩ := Walks.run_bind ran
  have facts := facts?_newFunctionWith s.heap s.builtins.bases d.name
    (s.scopes.qualify scope d.name) scope
    (fun f => complete (s.scopes.get scope) { f with definition := some d })
  have made := Prod.mk.inj (Except.ok.inj made)
  obtain rfl : (⟨s.types.size⟩ : TypeId) = fn' := made.1
  obtain rfl := made.2
  obtain ⟨rfl, rfl⟩ := Prod.mk.inj (Except.ok.inj ran)
  have outside : s.types.facts? ⟨s.types.size⟩ = none :=
    congrArg Ty.facts? (TypeStore.get_of_le (Nat.le_refl _))
  refine ⟨rfl, new, outside, rfl, rfl, rfl, rfl, rfl, ?_, fun id other => ?_⟩
  · refine (facts _).trans ((if_pos rfl).trans ?_)
    exact congrArg₂ (fun l a => some (l, a)) (kept _ _).1 (kept _ _).2
  · exact (facts id).trans (if_neg other)

theorem grows_defineValue_new (new : s.functions.get? d.node.id = none)
    (ran : (defineValue scope d complete).run s = .ok (fn, s')) : s.Grows s' := by
  obtain ⟨_, _, ⟨⟩, ran⟩ := Walks.run_bind ran
  rw [new] at ran
  obtain ⟨_, _, ⟨⟩, ran⟩ := Walks.run_bind ran
  obtain ⟨fn', s₁, made, ran⟩ := Walks.run_bind ran
  obtain ⟨rfl, rfl⟩ := Prod.mk.inj (Except.ok.inj made)
  obtain ⟨rfl, rfl⟩ := Prod.mk.inj (Except.ok.inj ran)
  constructor
  · exact fun _ known => known
  · intro node fn known
    rw [InsertionMap.get?_insert, if_neg]
    · exact known
    · rintro rfl
      rw [new] at known
      cases known
  · intro classed
    apply classed.mono
    · rfl
    · intro id known
      simp only [State.types, Heap.types_inheritTable]
      exact TypeStore.isClass_alloc_of_known _ known

theorem tracks_defineValue
    (kept : ∀ outer f, (complete outer f).lineage = f.lineage ∧ (complete outer f).arrows = f.arrows)
    (has : D.has d.phrase) : W.Tracks D loud fun _ => defineValue scope d complete := by
  intro s inv
  cases known : s.functions.get? d.node.id with
  | none =>
    refine .of_same rfl fun fn s' ran => ?_
    obtain ⟨_, meets⟩ := run_defineValue_new kept known ran
    have grows := grows_defineValue_new known ran
    exact ⟨W.rule.meets inv has meets grows, meets.later grows⟩
  | some fn =>
    have reopened : W.Tracks D loud fun _ => (modifyTypes (·.modifyFunction fn fun f =>
        { f with env := scope }) >>= fun _ => pure fn : Analysis TypeId) :=
      .bind (.quiet (quiet_modifyFunction fun _ => rfl)) fun _ => .pure
    refine .get_bind ?_
    rw [known]
    exact reopened s inv

theorem tracks_defineFunction (has : D.has (.stmt (.function d))) :
    W.Tracks D loud fun _ => defineFunction scope d :=
  tracks_defineValue (fun _ _ => ⟨rfl, rfl⟩) has

theorem tracks_yieldValue : W.Tracks D true fun _ => yieldValue value := by
  intro s inv
  refine .get_bind ?_
  split
  · exact .pure inv ()
  · next frame frames innermost =>
    refine .quiet_bind (Quiet.of Quiet.composed.unionOpt) fun merged s₁ moved => ?_
    have innermost : s₁.frames = frame :: frames := moved.frames.trans innermost
    refine .of_same rfl ?_
    rintro _ _ ⟨⟩
    refine ⟨W.rule.yields (some merged) (W.rule.quiet inv moved) innermost, ?_, ?_, ?_, ?_⟩
    · simp [innermost]
    · exact fun id l known => known
    · exact fun _ held => held
    · exact .of_same rfl rfl rfl fun _ known => known

theorem holds_declareDefinitions :
    (W.trait loud).holds (body.map .stmt) fun _ => declareDefinitions scope body := by
  have c := W.composed loud
  rw [List.map_eq_flatMap]
  refine c.forM fun t _ => ?_
  split
  · exact c.before (fun _ allows => tracks_defineFunction (allows _ List.mem_cons_self))
      fun _ => c.declareForward
  · exact c.before (trait_of_quiet quiet_defineClass) fun _ => c.declareForward
  · exact fun _ _ => .pure

/-- What a walk does keeps to the discipline if it does so one level further down. -/
theorem Holds.hereditary (holds : W.Holds) (scope : ScopeId) : (W.trait true).Hereditary scope := by
  have defaulted : ∀ {fn defaults}, (W.trait true).holds [] fun _ => Walker.setDefaults fn defaults :=
    trait_of_quiet quiet_setDefaults
  refine { holds.below scope with
    yieldValue := fun _ _ => tracks_yieldValue
    apply := fun _ _ => tracks_apply holds
    function := ?_
    lambda := ?_
    classDef := fun {d} R allows => ?_ }
  · refine (holds.below scope).function defaulted fun _ allows => ?_
    exact tracks_defineFunction (allows _ List.mem_cons_self)
  · refine (holds.below scope).lambda defaulted fun _ allows => ?_
    exact tracks_defineValue (fun _ _ => ⟨rfl, rfl⟩) (allows _ List.mem_cons_self)
  · have has : R.has (.stmt (.classDef d)) := allows _ List.mem_cons_self
    refine Trait.classDef holds.below (fun _ _ _ => .pure)
      (trait_of_quiet quiet_defineClass) R (List.forall_mem_append.mpr ⟨?_, ?_⟩)
    · exact List.forall_mem_map.mpr fun _ member => R.exprs has member
    · exact List.forall_mem_map.mpr fun _ member => R.stmts has member

end FlowTypes.Watch
