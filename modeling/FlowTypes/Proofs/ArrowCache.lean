import FlowTypes.Proofs.HeapInvariant
import FlowTypes.Proofs.SignatureTable

/-! Recorded arrows and later calls. An arrow is recorded under a tuple in which the receiver of an
instance method has been replaced by the value for all instances, and it is looked up with the tuple of
the call. The two agree if the receiver of the call is such a value. -/
namespace FlowTypes

namespace TypeStore

variable {s : TypeStore} {a b c fn arguments : TypeId} {arrow : Arrow} {limits : Limits}

/-- Tuples that differ in the first element only. -/
theorem equal_tuple_head (left : s.get a = .tuple d) (right : s.get b = .tuple e)
    (first : d.elements = x :: others) (second : e.elements = y :: others) (different : a ≠ b) :
    s.equal a b = true ↔ s.equal x y = true := by
  have same : ∀ p ∈ others.zip others, s.equal p.1 p.2 = true := by
    intro p member
    rw [List.zip_eq_zipWith, List.zipWith_self] at member
    obtain ⟨z, _, rfl⟩ := List.mem_map.mp member
    exact equal_refl z
  rw [equal_iff_compare, or_iff_right different]
  simp only [compare, left, right, first, second, List.length_cons, if_true, Comparison.Holds,
    List.zip_cons_cons, List.forall_mem_cons]
  exact and_iff_left same

theorem Grows.tuple (grows : s.Grows s') (found : s.get a = .tuple d) : s'.get a = .tuple d := by
  have has : s.Has a := has_of_get (by simp [found])
  have shape := grows.shape has
  rw [found] at shape
  exact shape

/-- An arrow that is recorded though nothing covers it comes last. -/
theorem insertArrow_uncovered (found : s.get (s.originOf fn) = .function f)
    (recorded : (s.insertArrow fn arrow limits).1 = .recorded)
    (uncovered : ∀ old ∈ f.arrows, s.subsumed arrow.arguments old.arguments = false) :
    (s.insertArrow fn arrow limits).2 =
      s.setArrows (s.originOf fn) (s.compress f.arrows ++ [arrow]) := by
  have new : ∀ old ∈ f.arrows, s.equal old.arguments arrow.arguments = false := by
    intro old member
    by_contra known
    have covers := subsumed_of_equal (equal_symm ((Bool.not_eq_false _).mp known))
    rw [uncovered old member] at covers
    cases covers
  have kept : ¬(f.arrows.any fun old => decide (arrow.arguments ≠ old.arguments) &&
      s.subsumed arrow.arguments old.arguments) = true := by
    simp only [List.any_eq_true, not_exists, not_and, Bool.not_eq_true]
    intro old member
    rw [uncovered old member, Bool.and_false]
  have table : s.compress (s.withArrow f.arrows arrow) = s.compress f.arrows ++ [arrow] := by
    rw [withArrow_new new, compress_append, if_neg kept]
  revert recorded
  unfold insertArrow
  simp only [function?_eq_some.mpr found, table]
  split
  · simp
  · split
    · simp
    · split <;> simp

theorem WellFormed.setClass (wf : s.WellFormed) (a : TypeId) (hc : s.Has c) :
    Additions Has s (s.modifyFunction a fun f => { f with classId := some c }) := by
  refine modifyFunction_additions (fun f found => ?_) (fun _ => rfl) (fun _ => rfl) fun _ => rfl
  obtain ⟨arrows, _, others⟩ := wf.function found
  refine FunctionType.forall_mentions.mpr ⟨arrows, ?_, others⟩
  rintro _ ⟨⟩
  exact hc

theorem resultFor?_eq (s : TypeStore) : s.resultFor? fn arguments =
    ((s.signature (s.originOf fn)).find? fun known => s.equal known.arguments arguments).map
      (·.result) := by
  unfold resultFor? signature
  cases s.function? (s.originOf fn) <;> rfl

/-- After such an arrow was recorded, a call is answered by the older arrows and then by the new
one. -/
theorem resultFor?_insertArrow (wf : s.WellFormed) (hf : s.Has fn) (hk : s.Has arrow.arguments)
    (hr : s.Has arrow.result) (ha : s.Has arguments) (found : s.get (s.originOf fn) = .function f)
    (recorded : (s.insertArrow fn arrow limits).1 = .recorded)
    (uncovered : ∀ old ∈ f.arrows, s.subsumed arrow.arguments old.arguments = false) :
    (s.insertArrow fn arrow limits).2.resultFor? fn arguments =
      ((s.compress f.arrows ++ [arrow]).find? fun known => s.equal known.arguments arguments).map
        (·.result) := by
  have grows := (wf.insertArrow fn hk hr limits).grows
  have has : ∀ known ∈ s.compress f.arrows ++ [arrow], s.Has known.arguments := by
    intro known member
    rcases List.mem_append.mp member with member | member
    · exact (wf.arrow found (mem_compress member)).1
    · exact List.mem_singleton.mp member ▸ hk
  have same : ∀ known ∈ s.compress f.arrows ++ [arrow],
      (s.insertArrow fn arrow limits).2.equal known.arguments arguments =
        s.equal known.arguments arguments :=
    fun known member => grows.equal wf (has known member) ha
  have table : (s.insertArrow fn arrow limits).2.signature (s.originOf fn) =
      s.compress f.arrows ++ [arrow] := by
    rw [insertArrow_uncovered found recorded uncovered, signature_setArrows found]
  rw [resultFor?_eq, grows.originOf wf hf, table]
  rw [← List.head?_filter, ← List.head?_filter, List.filter_congr same]

end TypeStore

namespace Heap

open TypeStore

variable {h : Heap} {bases : Bases} {a fn arguments result classId first : TypeId}
  {others : List TypeId} {f : FunctionType} {limits : Limits}

/-! ### The tuple that an arrow is recorded under -/

theorem function_allocWithTable (found : h.types.get a = .function f) {kind : ScopeKind}
    {parent : Option ScopeId} {path : String} {make : ScopeId → Ty} :
    (h.allocWithTable kind parent path make).2.types.get a = .function f := by
  have has : h.types.Has a := has_of_get (by simp [found])
  exact (get_alloc has).trans found

theorem function_modifyClass {s : TypeStore} (found : s.get a = .function f) {id : TypeId}
    {change : ClassType → ClassType} : (s.modifyClass id change).get a = .function f := by
  unfold modifyClass
  split
  · next c isClass =>
    have other : a ≠ id := by
      rintro rfl
      simp [found] at isClass
    rw [get_set_of_ne other, found]
  · exact found

theorem function_instanceOf (classId : TypeId) (found : h.types.get a = .function f) :
    (h.instanceOf classId).2.types.get a = .function f := by
  refine instanceWithin_keeps (I := fun h => h.types.get a = .function f)
    (fun h classId c found _ _ => ?_) (fun h id base found => ?_) _ classId found
  · simp only [makeInstance, types_inheritTable]
    exact function_modifyClass (function_allocWithTable found)
  · rwa [types_inheritTable]

/-- The function takes an instance of its class, and the tuple begins with some receiver. -/
def TakesReceiver (h : Heap) (fn arguments classId first : TypeId) (others : List TypeId) : Prop :=
  ((h.types.function? (h.types.originOf fn)).filter (·.isInstanceMethod)).bind (·.classId) =
      some classId ∧
    ∃ d, h.types.get arguments = .tuple d ∧ d.elements = first :: others

theorem canonicalArguments_receiver
    (takes : h.TakesReceiver fn arguments classId first others) :
    h.canonicalArguments bases fn arguments =
      if first = (h.instanceOf classId).1 then (arguments, (h.instanceOf classId).2)
      else (h.instanceOf classId).2.newTuple bases ((h.instanceOf classId).1 :: others) := by
  obtain ⟨owner, d, found, elements⟩ := takes
  simp only [canonicalArguments, owner, found, elements]

theorem canonicalArguments_plain
    (plain : ∀ classId first others, ¬h.TakesReceiver fn arguments classId first others) :
    h.canonicalArguments bases fn arguments = (arguments, h) := by
  unfold canonicalArguments
  dsimp only
  split
  · next classId d owner found =>
    split
    · next first others elements => exact absurd ⟨owner, d, found, elements⟩ (plain _ _ _)
    · rfl
  · rfl

theorem function_canonicalArguments (bases : Bases) (fn arguments : TypeId)
    (found : h.types.get a = .function f) :
    (h.canonicalArguments bases fn arguments).2.types.get a = .function f := by
  by_cases takes : ∃ classId first others, h.TakesReceiver fn arguments classId first others
  · obtain ⟨classId, first, others, takes⟩ := takes
    have made := function_instanceOf classId found
    rw [canonicalArguments_receiver takes]
    split
    · exact made
    · simp only [newTuple, types_inheritTable]
      exact function_allocWithTable made
  · simp only [not_exists] at takes
    rw [canonicalArguments_plain takes]
    exact found

/-- A receiver in the tuple is equal to the value for all instances of the method's class. -/
def SharesReceiver (h : Heap) (fn arguments : TypeId) : Prop :=
  ∀ classId first others, h.TakesReceiver fn arguments classId first others →
    (h.instanceOf classId).2.types.equal (h.instanceOf classId).1 first = true

theorem TakesReceiver.shares (takes : h.TakesReceiver fn arguments classId first others) :
    h.SharesReceiver fn arguments ↔
      (h.instanceOf classId).2.types.equal (h.instanceOf classId).1 first = true := by
  refine ⟨fun shares => shares classId first others takes, fun equal classId' first' others' h' => ?_⟩
  obtain ⟨owner, d, found, elements⟩ := takes
  obtain ⟨owner', d', found', elements'⟩ := h'
  simp_all

/-- An arrow is recorded under the tuple of the call exactly if the receiver is shared. -/
theorem equal_canonicalArguments (bases : Bases) (fn : TypeId) (wf : h.types.WellFormed)
    (ha : h.types.Has arguments) :
    (h.canonicalArguments bases fn arguments).2.types.equal
      (h.canonicalArguments bases fn arguments).1 arguments = true ↔
        h.SharesReceiver fn arguments := by
  by_cases takes : ∃ classId first others, h.TakesReceiver fn arguments classId first others
  · obtain ⟨classId, first, others, takes⟩ := takes
    rw [takes.shares, canonicalArguments_receiver takes]
    split
    · next same => simp [same]
    · next different =>
      obtain ⟨owner, d, found, elements⟩ := takes
      have made := gives_instanceOf classId wf
      have wf' := made.changes.sound wf
      have has : h.types.Has first := wf.mention found (by simp [Ty.mentions, elements])
      generalize h.instanceOf classId = receiver at different made wf' ⊢
      have found' := made.additions.grows.tuple found
      have older : receiver.2.types.Has arguments := made.changes.kept.has ha
      have newer : ⟨receiver.2.types.size⟩ ≠ arguments := by
        rintro rfl
        exact Nat.lt_irrefl _ older
      simp only [newTuple, types_inheritTable, allocWithTable]
      generalize (receiver.2.scopes.alloc .plain none "").1 = table
      have new := get_alloc_new receiver.2.types (.tuple { elements := receiver.1 :: others, table })
      have grown := grows_alloc receiver.2.types (.tuple { elements := receiver.1 :: others, table })
      refine (equal_tuple_head new (grown.tuple found') rfl elements newer).trans ?_
      rw [grown.equal wf' made.has (made.changes.kept.has has)]
  · simp only [not_exists] at takes
    rw [canonicalArguments_plain takes, equal_refl]
    simpa [SharesReceiver] using fun classId first others h => absurd h (takes classId first others)

/-! ### Looking up what was recorded -/

theorem recorded_function
    (recorded : (h.recordArrow bases fn arguments result limits).1 = .recorded) :
    ∃ f, h.types.get (h.types.originOf fn) = .function f := by
  cases found : h.types.function? (h.types.originOf fn) with
  | some f => exact ⟨f, function?_eq_some.mp found⟩
  | none =>
    have plain : ∀ classId first others, ¬h.TakesReceiver fn arguments classId first others := by
      simp [TakesReceiver, found]
    simp [recordArrow, canonicalArguments_plain plain, insertArrow, found] at recorded

/-- After an arrow was recorded under a tuple that no other arrow covers, the call is answered by it
if its receiver is shared. If it is not, a call that had no answer still has none. -/
theorem recorded_arrow_answers (wf : h.types.WellFormed) (hf : h.types.Has fn)
    (ha : h.types.Has arguments) (hr : h.types.Has result)
    (recorded : (h.recordArrow bases fn arguments result limits).1 = .recorded)
    (uncovered : ∀ old ∈ h.types.signature (h.types.originOf fn),
      (h.canonicalArguments bases fn arguments).2.types.subsumed
        (h.canonicalArguments bases fn arguments).1 old.arguments = false) :
    let after := (h.recordArrow bases fn arguments result limits).2.types
    (h.SharesReceiver fn arguments → after.resultFor? fn arguments = some result) ∧
      (¬h.SharesReceiver fn arguments → h.types.resultFor? fn arguments = none →
        after.resultFor? fn arguments = none) := by
  have made := gives_canonicalArguments bases fn wf ha
  have wf' := made.changes.sound wf
  have kept := made.changes.kept
  have origin := made.additions.grows.originOf wf hf
  have shared := equal_canonicalArguments bases fn wf ha
  obtain ⟨f, found⟩ := recorded_function recorded
  have found' := function_canonicalArguments bases fn arguments found
  rw [signature_eq found] at uncovered
  dsimp only [recordArrow] at recorded ⊢
  rw [resultFor?_eq h.types, signature_eq found, ← shared]
  have same : ∀ old ∈ f.arrows, (h.canonicalArguments bases fn arguments).2.types.equal
      old.arguments arguments = h.types.equal old.arguments arguments := fun old member =>
    made.additions.grows.equal wf (wf.arrow found member).1 ha
  generalize h.canonicalArguments bases fn arguments = key at *
  rw [resultFor?_insertArrow wf' (kept.has hf) made.has (kept.has hr) (kept.has ha)
    (origin ▸ found') recorded uncovered, List.find?_append]
  constructor
  · intro shared
    have older : ∀ old ∈ key.2.types.compress f.arrows,
        ¬key.2.types.equal old.arguments arguments = true := by
      intro old member equal
      have covers := subsumed_of_equal (wf'.equal_trans shared (equal_symm equal))
      rw [uncovered old (mem_compress member)] at covers
      cases covers
    rw [List.find?_eq_none.mpr older]
    simp [shared]
  · intro foreign unanswered
    have older : ∀ old ∈ key.2.types.compress f.arrows,
        ¬key.2.types.equal old.arguments arguments = true := by
      intro old member
      have unequal := List.find?_eq_none.mp (Option.map_eq_none_iff.mp unanswered)
      rw [same old (mem_compress member)]
      exact unequal old (mem_compress member)
    rw [List.find?_eq_none.mpr older]
    simp [foreign]

def noBases : Bases := ⟨.unknown, .unknown, .unknown, .unknown, .unknown⟩

/-- A class, one derived from it, and a method of the first. -/
def baseMethod : Heap :=
  let h : Heap := (Heap.newClass {} "B" "B" ⟨0⟩).2
  let h := (h.newClass "D" "D" ⟨0⟩).2
  let h := ((h.addBase ⟨11⟩ ⟨10⟩).newFunction noBases "m" "m" ⟨0⟩).2
  { h with types := h.types.modifyFunction ⟨12⟩ fun f => { f with classId := some ⟨10⟩ } }

theorem baseMethod_wellFormed : baseMethod.types.WellFormed := by
  have start : Heap.Reachable {} := ⟨{}, .refl⟩
  have classes := (start.step (.newClass "B" "B" ⟨0⟩)).step (.newClass "D" "D" ⟨0⟩)
  have method := (classes.step (.addBase ⟨11⟩ ⟨10⟩)).step (.newFunction noBases "m" "m" ⟨0⟩)
  have noted := method.wellFormed.setClass (c := ⟨10⟩) ⟨12⟩ (by decide +kernel)
  exact noted.changes.sound method.wellFormed

/-- Argument tuples that begin with an instance of the derived class and with one of the base. -/
def receivers : Heap :=
  let h := (baseMethod.instanceOf ⟨11⟩).2
  let h := (h.newTuple noBases [⟨13⟩, .int]).2
  (h.newTuple noBases [⟨14⟩, .int]).2

theorem wellFormed_instanceOf (wf : h.types.WellFormed) (classId : TypeId) :
    (h.instanceOf classId).2.types.WellFormed :=
  (gives_instanceOf classId wf).changes.sound wf

theorem wellFormed_arguments {id : TypeId} (wf : h.types.WellFormed) (has : h.types.Has id)
    (int : h.types.Has .int) : (h.newTuple noBases [id, .int]).2.types.WellFormed := by
  refine (gives_newTuple noBases fun e member => ?_).changes.sound wf
  rcases List.mem_pair.mp member with rfl | rfl
  · exact has
  · exact int

theorem receivers_wellFormed : receivers.types.WellFormed := by
  have wf := baseMethod_wellFormed
  have values := wellFormed_instanceOf wf ⟨11⟩
  have first : (baseMethod.instanceOf ⟨11⟩).2.types.Has ⟨13⟩ := by decide +kernel
  have int : (baseMethod.instanceOf ⟨11⟩).2.types.Has .int := by decide +kernel
  have tuple := wellFormed_arguments values first int
  unfold receivers
  exact wellFormed_arguments tuple (by decide +kernel) (by decide +kernel)

/-- A call with the value for all instances of the method's own class is answered. -/
theorem own_receiver_answered : receivers.types.WellFormed ∧
    (receivers.recordArrow noBases ⟨12⟩ ⟨16⟩ .int {}).1 = .recorded ∧
    receivers.SharesReceiver ⟨12⟩ ⟨16⟩ ∧
    (receivers.recordArrow noBases ⟨12⟩ ⟨16⟩ .int {}).2.types.resultFor? ⟨12⟩ ⟨16⟩ =
      some .int := by
  have recorded : (receivers.recordArrow noBases ⟨12⟩ ⟨16⟩ .int {}).1 = .recorded := by
    decide +kernel
  have empty : receivers.types.signature (receivers.types.originOf ⟨12⟩) = [] := by
    decide +kernel
  have own : receivers.TakesReceiver ⟨12⟩ ⟨16⟩ ⟨10⟩ ⟨14⟩ [.int] :=
    ⟨by decide +kernel, { elements := [⟨14⟩, .int], table := ⟨6⟩ }, rfl, rfl⟩
  have shares : receivers.SharesReceiver ⟨12⟩ ⟨16⟩ := own.shares.mpr (by decide +kernel)
  have answers := recorded_arrow_answers receivers_wellFormed (by decide +kernel)
    (by decide +kernel) (by decide +kernel) recorded (by simp [empty])
  exact ⟨receivers_wellFormed, recorded, shares, answers.1 shares⟩

/-- A call with an instance of the derived class is not answered, though what it returned has just
been recorded and no other arrow is known. -/
theorem inherited_receiver_unanswered : receivers.types.signature ⟨12⟩ = [] ∧
    (receivers.recordArrow noBases ⟨12⟩ ⟨15⟩ .int {}).1 = .recorded ∧
    (receivers.recordArrow noBases ⟨12⟩ ⟨15⟩ .int {}).2.types.resultFor? ⟨12⟩ ⟨15⟩ = none := by
  decide +kernel

end Heap
end FlowTypes
