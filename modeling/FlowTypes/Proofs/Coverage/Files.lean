import FlowTypes.Proofs.Coverage.Visits
import FlowTypes.Proofs.NodeIdentities

/-! Files. A file that has been read was put together as the grammar has it, and when a call has ended
the walk has been to all of its statements. -/
namespace FlowTypes

/-! ### Growth -/

theorem Ty.Stays.isClass {t : Ty} (stays : t.Stays u) : u.isClass = t.isClass := by
  cases stays <;> rfl

theorem TypeStore.Kept.isClass {id : TypeId} (kept : Kept s s') (known : (s.get id).isClass = true) :
    (s'.get id).isClass = true := by
  have has : s.Has id := by
    apply has_of_get
    intro unknown
    rw [unknown] at known
    cases known
  rw [(kept.stays has).isClass]
  exact known

namespace State

variable {s s' s'' : State}

theorem Step.grows (step : Step s s') (valid : s.Valid) : s.Grows s' := by
  have kept := (step.evolves valid).changes.kept
  have classes : ∀ id, (s.types.get id).isClass = true → (s'.types.get id).isClass = true :=
    fun _ known => kept.isClass known
  cases step with
  | recordType node value =>
    constructor
    · intro other known
      rw [InsertionMap.get?_insert]
      split
      · rfl
      · exact known
    · exact fun _ _ known => known
    · exact fun classed => classed.mono rfl classes
  | @define node fn new value =>
    constructor
    · exact fun _ known => known
    · intro other g known
      rw [InsertionMap.get?_insert, if_neg]
      · exact known
      · rintro rfl
        rw [new] at known
        cases known
    · exact fun classed => classed.mono rfl classes
  | defineClass new value isClass =>
    constructor
    · exact fun _ known => known
    · exact fun _ _ known => known
    · intro classed node c known
      rw [InsertionMap.get?_insert] at known
      split at known
      · cases known
        exact isClass
      · exact classed node c known
  | _ => exact .of_same rfl rfl rfl classes

/-- Nothing is taken back, and the walk has been to all statements of the files that were read on the
way from one state to another. -/
structure Completes (s s' : State) : Prop where
  grows : s.Grows s'
  files : ∀ {p tree}, s'.tree? p = some tree → s.tree? p = some tree ∨
    tree.IsRegular ∧ ∀ t ∈ tree.body, s'.Visited (.stmt t)

theorem Completes.of_same (grows : s.Grows s') (trees : ∀ p, s'.tree? p = s.tree? p) :
    s.Completes s' := by
  constructor
  · exact grows
  · intro p tree found
    exact .inl ((trees p).symm.trans found)

theorem Completes.trans (first : s.Completes s') (second : s'.Completes s'') : s.Completes s'' := by
  constructor
  · exact first.grows.trans second.grows
  · intro p tree found
    rcases second.files found with known | new
    · rcases first.files known with known | ⟨regular, visited⟩
      · exact .inl known
      · exact .inr ⟨regular, fun t member => (visited t member).mono second.grows⟩
    · exact .inr new

theorem Completes.load (regular : tree.IsRegular)
    (walked : (s.setStatus p (.loaded .parsed value tree)).Completes s')
    (visited : ∀ t ∈ tree.body, s'.Visited (.stmt t)) : s.Completes s' := by
  constructor
  · have held : s.Grows (s.setStatus p (.loaded .parsed value tree)) :=
      .of_same rfl rfl rfl fun _ known => known
    exact held.trans walked.grows
  · intro q u found
    rcases walked.files found with known | new
    · rw [tree?_setStatus] at known
      split at known
      · cases known
        exact .inr ⟨regular, visited⟩
      · exact .inl known
    · exact .inr new

theorem Walked.completes (walked : Walked s s') (valid : s.Valid) (classed : s.Classed) :
    s.Completes s' := by
  have still : ∀ {t t' : State}, t'.nodeTypes = t.nodeTypes → t'.functions = t.functions →
      t'.classes = t.classes → t'.types = t.types → t.Grows t' := by
    intro t t' nodeTypes functions classes types
    apply Grows.of_same nodeTypes functions classes
    intro id known
    rwa [types]
  induction walked with
  | refl s => exact .of_same .refl fun _ => rfl
  | step step =>
    apply Completes.of_same (step.grows valid)
    intro p
    rw [tree?, tree?, status?, status?, step.modules]
  | trans first _ ih ih' =>
    have completes := ih valid classed
    exact completes.trans (ih' (first.evolves valid).1 (completes.grows.classed classed))
  | @application s s' fn _ _ ih =>
    have entered : s.Completes (s.enter fn) := .of_same (still rfl rfl rfl rfl) fun _ => rfl
    have left : s'.Completes s'.leave := .of_same (still rfl rfl rfl rfl) fun _ => rfl
    exact (entered.trans (ih valid.enter classed)).trans left
  | @failure s p record new =>
    exact .of_same (still rfl rfl rfl rfl) (tree?_fail new)
  | @load s s₁ s₂ s₃ p value tree next new read parsing hv binding inferring body ih ih₁ ih₂ =>
    obtain ⟨source, read⟩ := read
    have advanced : ∀ {t : State} {stage : Stage}, t.Completes (t.advance p stage) :=
      .of_same (still rfl rfl rfl rfl) fun q => tree?_advance _
    have parsed : s.Completes { s.setStatus p .unparsed with nextNode := next } :=
      .of_same (still rfl rfl rfl rfl) fun _ => tree?_setStatus_of_vacant (tree?_of_new new) rfl
    have valid₀ : State.Valid { s.setStatus p .unparsed with nextNode := next } :=
      { valid.setStatus p unparsed_valid with }
    have first := ih valid₀ (parsed.grows.classed classed)
    have valid₁ : (s₁.setStatus p (.loaded .parsed value tree)).Valid :=
      (parsing.evolves valid₀).1.setStatus p (by rintro _ ⟨⟩; exact hv.value)
    have classed₁ : (s₁.setStatus p (.loaded .parsed value tree)).Classed :=
      (parsed.trans first).grows.classed classed
    have second := ih₁ valid₁ classed₁
    have valid₂ := (binding.evolves valid₁).1.advance p .bound
    have classed₂ : (s₂.advance p .bound).Classed := second.grows.classed classed₁
    have third := ih₂ valid₂ classed₂
    obtain ⟨files, limits, n, scope, flow, ran⟩ := body
    obtain ⟨_, visited⟩ := (visits_walker scope).block _ _ _ classed₂ ran
    have walked : s₁.Completes s₃ := .load (Module.isRegular_parse read)
      (second.trans (advanced.trans third)) fun t member => visited _ (List.mem_map_of_mem member)
    exact ((parsed.trans first).trans walked).trans advanced

theorem Called.completes (called : Called s s') (valid : s.Valid) (classed : s.Classed) :
    s.Completes s' := by
  induction called with
  | walked walked => exact walked.completes valid classed
  | trans first _ ih ih' =>
    have completes := ih valid classed
    exact completes.trans (ih' (first.valid valid) (completes.grows.classed classed))
  | root | taken =>
    exact .of_same (.of_same rfl rfl rfl fun _ known => known) fun _ => rfl
  | finished => exact .of_same (.of_same rfl rfl rfl fun _ known => known) (tree?_finish _)

end State

theorem Session.files (session : Session s) (held : s.tree? p = some tree) :
    tree.IsRegular ∧ ∀ t ∈ tree.body, s.Visited (.stmt t) := by
  have classed : State.initial.Classed := by rintro _ _ ⟨⟩
  have completes := session.called.completes State.initial_valid classed
  apply (completes.files held).resolve_left
  rintro ⟨⟩

end FlowTypes
