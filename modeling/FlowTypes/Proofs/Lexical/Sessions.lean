import FlowTypes.Proofs.Lexical.Walk

/-! Functions stand where their definitions do after any calls of a session, and what is bound stays as it
is. -/
namespace FlowTypes

open Analysis

/-- The value of a module comes with a new table. -/
structure State.BringsModule (s : State) (value : TypeId) (s' : State) : Prop where
  modules : s'.modules = s.modules
  nextNode : s'.nextNode = s.nextNode
  isModule : s'.heap.IsModule s.global value ⟨s.scopes.size⟩

namespace Upholds

variable {s : State} {w : Walker} {p : Path} {tree : Module}
  (below : ∀ scope, (trait w scope).Below scope)

/-! ### Files -/

theorem introduceModule : Upholds own s (Analysis.introduceModule p tree) s.BringsModule := by
  refine bind (Q := s.BringsModule) (look (onHeap s.heap.edits_newModule.spares ?_)) fun value s₁ _ known =>
    bind (Q := fun _ => s.BringsModule value) ?_ fun _ s₂ _ known => pure known
  · exact ⟨rfl, rfl, Heap.isModule_newModule⟩
  · refine leaves ⟨.refl, fun _ => rfl, Nat.le_refl _, rfl, rfl⟩ ?_
    exact ⟨known.modules, known.nextNode, known.isModule⟩

theorem declareDefinitions (w : Walker) (comes : ∀ t ∈ body, s.Comes scope t) :
    Upholds own s (Analysis.declareDefinitions scope body) Whatever := by
  refine forM fun t member s₁ persists => ?_
  have comes := persists.comes (comes t member)
  cases t with
  | function d =>
    obtain ⟨o, locates, fits⟩ := comes
    refine bind (defineFunction locates fits) fun fn s₂ _ _ => ?_
    exact aside (composed w _).declareForward
  | classDef d =>
    refine bind (defineClass w) fun c s₂ _ _ => ?_
    exact aside (composed w _).declareForward
  | _ => exact pure trivial

theorem advanceTo : Upholds own s (Analysis.advanceTo p stage) Whatever :=
  leaves ⟨.refl, fun _ => s.tree?_advance, Nat.le_refl _, rfl, rfl⟩ trivial

include below in
theorem walkBody (comes : ∀ t ∈ tree.body, s.Comes table t) :
    Upholds table s (w.walkBody p tree table) Whatever := by
  have b := below table
  refine bind (Q := Whatever) ?_ fun _ s₁ first _ => ?_
  · refine bind (aside b.defineImplicit) fun _ s₁ first _ => ?_
    refine bind (aside b.defineImplicit) fun _ s₂ second _ => ?_
    exact declareDefinitions w fun t member => second.comes (first.comes (comes t member))
  refine bind advanceTo fun _ s₂ second _ => ?_
  have comes : ∀ t ∈ tree.body, s₂.Comes table t := fun t member =>
    second.comes (first.comes (comes t member))
  refine bind (b.discard b.block s₂ (List.forall_mem_map.mpr comes)) fun _ s₃ _ _ => ?_
  exact bind advanceTo fun _ _ _ _ => debug

include below in
theorem walkModule (vacant : s.tree? p = none) (distinct : tree.ids.Nodup)
    (given : ∀ i ∈ tree.ids, i < s.nextNode)
    (others : ∀ {q t}, s.tree? q = some t → t.ids.Disjoint tree.ids) :
    Upholds own s (w.walkModule p tree) Whatever := by
  refine inside_new (bind introduceModule ?_)
  rintro value s₁ _ ⟨modules, next, isModule⟩
  have trees : ∀ q, s₁.tree? q = s.tree? q := fun q => by
    rw [State.tree?, State.tree?, State.status?, State.status?, modules]
  refine bind (Q := fun _ s₂ => s₂.tree? p = some tree ∧ s₂.heap = s₁.heap) ?_ ?_
  · refine modifyGet (fun lexical => lexical.hold ((trees p).trans vacant) distinct ?_ ?_) ⟨?_, rfl⟩
    · exact next ▸ given
    · exact fun held => others ((trees _).symm.trans held)
    · exact s₁.tree?_setStatus.trans (if_pos rfl)
  · rintro _ s₂ persists ⟨held, heap⟩
    have table : s₂.types.tableOf value = some ⟨s.scopes.size⟩ :=
      (congrArg (fun heap : Heap => heap.types.tableOf value) heap).trans isModule.tableOf
    have kind : (s₁.scopes.get ⟨s.scopes.size⟩).kind = .module := isModule.kind
    have fits : s₁.Fits ⟨s.scopes.size⟩ none :=
      ⟨ScopeStore.has_of_kind (by simp [kind]), by simp [kind]⟩
    refine look ?_
    dsimp only
    rw [table]
    refine bind (walkBody below fun t member => ?_) fun _ _ _ _ => pure trivial
    exact ⟨none, ⟨p, tree, held, tree.mem_placed_of_mem_body member⟩, persists.fits fits⟩

theorem fail (vacant : s.tree? p = none) : Upholds own s (Analysis.fail p message) Whatever := by
  refine bind (Q := fun _ s₁ => s₁.tree? p = none) ?_ fun _ s₁ _ vacant => ?_
  · exact leaves ⟨.refl, fun _ => rfl, Nat.le_refl _, rfl, rfl⟩ vacant
  · refine leaves ⟨.refl, fun q => ?_, Nat.le_refl _, rfl, rfl⟩ trivial
    exact State.tree?_setStatus_of_vacant vacant rfl

include below in
theorem loadStep : Upholds own s (w.loadStep p) Whatever := by
  refine assume fun lexical => look ?_
  split
  · exact pure trivial
  · next new =>
    have unparsed : ∀ q, (s.setStatus p .unparsed).tree? q = s.tree? q := fun q =>
      State.tree?_setStatus_of_vacant (State.tree?_of_new new) rfl
    have vacant := (unparsed p).trans (State.tree?_of_new new)
    refine bind (Q := fun _ s₁ => s₁ = s.setStatus p .unparsed) ?_ ?_
    · exact leaves ⟨.refl, unparsed, Nat.le_refl _, rfl, rfl⟩ rfl
    rintro _ _ _ rfl
    refine ask fun text => ?_
    split
    · exact bind (fail vacant) fun _ _ _ _ => pure trivial
    refine look ?_
    split
    · exact bind (fail vacant) fun _ _ _ _ => pure trivial
    · next tree next parsed =>
      obtain ⟨distinct, free, given⟩ := Module.ids_parse parsed
      refine bind (Q := fun _ s₁ => s₁ = { s.setStatus p .unparsed with nextNode := next }) ?_ ?_
      · exact leaves ⟨.refl, fun _ => rfl, free, rfl, rfl⟩ rfl
      rintro _ _ _ rfl
      refine bind (Q := fun _ s₁ => s₁.nextNode = next ∧ ∀ q, s₁.tree? q = s.tree? q) ?_ ?_
      · exact leaves ⟨.refl, fun _ => rfl, Nat.le_refl _, rfl, rfl⟩ ⟨rfl, unparsed⟩
      rintro _ s₁ _ ⟨same, trees⟩
      refine bind (walkModule below ?_ distinct ?_ ?_) fun _ _ _ _ => pure trivial
      · exact (trees p).trans (State.tree?_of_new new)
      · exact fun i member => same ▸ (given i member).2
      · intro q t held i member member'
        have before := lexical.numbered.given ((trees q).symm.trans held) i member
        exact Nat.not_le_of_lt before (given i member').1

theorem below_walker (scope : ScopeId) : (trait (walker files limits n) scope).Below scope := by
  refine Trait.below_walker composed (fun s _ => ?_) (fun _ _ => onHeap .undefine trivial)
    (fun _ => hereditary)
    (fun _ level _ _ _ _ => loadStep fun scope => (level scope).toBelow) n scope
  exact aside (composed (walker files limits n) _).recordType

/-! ### Calls of a session -/

theorem receiverFor (w : Walker) : Upholds own s (Walker.receiverFor f)
    fun receiver _ => receiver.isSome = true → f.classId.isSome = true := by
  unfold Walker.receiverFor
  split
  · next c member _ =>
    refine bind (aside (composed w _).canonicalInstance) fun _ _ _ _ => pure fun _ => ?_
    rw [member]
    rfl
  · next c member _ =>
    refine pure fun _ => ?_
    rw [member]
    rfl
  · exact pure fun none => nomatch none

include below in
theorem applyUncalled : Upholds own s (w.applyUncalled fn) Whatever := by
  refine look ?_
  split
  · exact pure trivial
  · next f found =>
    split
    · exact pure trivial
    · refine bind (receiverFor w) fun receiver s₁ first method => ?_
      refine bind debug fun _ s₂ second _ => ?_
      split
      · have found := TypeStore.function?_eq_some.mp found
        obtain ⟨f', found', retouched, _⟩ := (first.trans second).function found
        have member : f'.classId.isSome = true := by
          rw [retouched]
          exact method rfl
        refine bind (bindMethod found' member) fun bound s₃ _ _ => ?_
        exact bind (apply below) fun _ _ _ _ => pure trivial
      · exact bind (apply below) fun _ _ _ _ => pure trivial

include below in
theorem applyAll (n : Nat) : Upholds own s (w.applyAll n) Whatever := by
  induction n generalizing s with
  | zero => exact throw
  | succ n ih =>
    refine look ?_
    split
    · exact pure trivial
    · refine bind (Q := Whatever) ?_ fun _ _ _ _ => bind (applyUncalled below) fun _ _ _ _ => ih
      exact leaves ⟨.refl, fun _ => rfl, Nat.le_refl _, rfl, rfl⟩ trivial

include below in
theorem finish : Upholds own s w.finish Whatever := by
  refine bind (applyAll below _) fun _ s₁ _ _ => ?_
  exact leaves ⟨.refl, s₁.tree?_finish, Nat.le_refl _, rfl, rfl⟩ trivial

theorem analyze (loads : ∀ {s : State} (p : Path), Upholds own s (w.load p) Whatever) :
    Upholds own s (w.analyze path) Whatever := by
  refine bind (Q := Whatever) ?_ fun request s₁ _ _ => ?_
  · intro lexical request s₁ asked
    obtain ⟨rfl, _⟩ := (Walker.asks_request path).again asked
    exact ⟨lexical, .refl, trivial⟩
  · split
    · exact pure trivial
    · refine bind (Q := Whatever) (bind (Q := Whatever) ?_ fun _ s₂ _ _ => ?_) fun _ _ _ _ => pure trivial
      · exact leaves ⟨.refl, fun _ => rfl, Nat.le_refl _, rfl, rfl⟩ trivial
      · exact forM fun p _ s₃ _ => bind (loads p) fun _ _ _ _ => pure trivial

end Upholds

theorem Call.upholds (call : Call) (own : ScopeId) :
    Upholds own s (call.run (Walker.of files limits)) Whatever := by
  obtain ⟨n, levels⟩ : ∃ n, files.allowance = n + 1 :=
    Nat.exists_eq_add_one.mpr (by simp [FileSystem.allowance])
  rw [Walker.of, levels]
  cases call with
  | analyze path =>
    exact .analyze (fun _ => .loadStep Upholds.below_walker)
  | finish =>
    exact .bind (.finish Upholds.below_walker) fun _ _ _ _ => .pure trivial

theorem State.initial_lexical : State.initial.Lexical where
  numbered := initial_numbered
  classes := by rintro _ _ ⟨⟩
  functions := by rintro _ _ ⟨⟩
  defined := fun found definition => nomatch (initial_function found).1.symm.trans definition
  defaults := fun found definition => nomatch (initial_function found).1.symm.trans definition
  unbound := fun found _ => (initial_function found).2.2.1
  bound := fun found origin => nomatch (initial_function found).2.1.symm.trans origin

theorem Session.lexical (session : Session s) : s.Lexical := by
  induction session with
  | start => exact State.initial_lexical
  | @call s s' files limits call answer _ ran ih => exact (call.upholds ⟨0⟩ ih answer s' ran).1

end FlowTypes
