import FlowTypes.Proofs.Growth
import FlowTypes.Proofs.HeapInvariant

/-! What a union covers. Alternatives of a union can become equal when the lists and dicts among
them are widened in place. An operand is taken for the union if the number of alternatives is right,
and a new alternative can make up for one that repeats another. -/
namespace FlowTypes

namespace TypeStore

variable {s s' : TypeStore} {a b x : TypeId} {ids old new : List TypeId}

/-! ### Counting -/

/-- How many of the types equal an earlier one. -/
def repeats (s : TypeStore) (ids : List TypeId) : Nat := ids.length - (s.distinct ids).length

/-- How many types the second list has that the first does not cover, equal ones counted once. -/
def fresh (s : TypeStore) (old new : List TypeId) : Nat :=
  (s.distinct (new.filter fun x => !s.covered old x)).length

theorem fresh_eq_zero : s.fresh old new = 0 ↔ ∀ x ∈ new, s.covered old x = true := by
  rw [fresh, List.length_eq_zero_iff, distinct_eq_nil, List.filter_eq_nil_iff]
  simp

section Transitive

variable (trans : ∀ {x y z}, s.equal x y = true → s.equal y z = true → s.equal x z = true)

include trans

theorem covered_trans (inner : ∀ y ∈ old, s.covered new y = true) (h : s.covered old x = true) :
    s.covered new x = true := by
  obtain ⟨y, member, same⟩ := covered_iff.mp h
  obtain ⟨z, member, same'⟩ := covered_iff.mp (inner y member)
  exact covered_iff.mpr ⟨z, member, trans same' same⟩

theorem covered_distinct_eq : s.covered (s.distinct ids) x = s.covered ids x := by
  rw [Bool.eq_iff_iff]
  constructor
  · exact covered_trans trans fun y member => covered_of_mem (mem_of_mem_distinct member)
  · exact covered_trans trans fun y member => covered_distinct member

theorem length_distinct_append (old new : List TypeId) :
    (s.distinct (old ++ new)).length = (s.distinct old).length + s.fresh old new := by
  rw [distinct_append, List.length_append, fresh]
  simp only [covered_distinct_eq trans]

/-- Of pairwise unequal types there are no more than types that cover them. -/
theorem length_le_of_covered (unequal : old.Pairwise fun x y => s.equal x y = false)
    (cover : ∀ x ∈ old, s.covered new x = true) : old.length ≤ new.length := by
  choose! f member same using fun x h => covered_iff.mp (cover x h)
  have nodup : (old.map f).Nodup := by
    rw [List.Nodup, List.pairwise_map]
    refine unequal.imp_of_mem fun {x y} hx hy different equal => ?_
    have joined := trans (equal_symm (same x hx)) (equal ▸ same y hy)
    simp [different] at joined
  have subset : old.map f ⊆ new := by
    intro y hy
    obtain ⟨x, hx, rfl⟩ := List.mem_map.mp hy
    exact member x hx
  simpa using (List.subperm_of_subset nodup subset).length_le

theorem length_distinct_comm :
    (s.distinct (old ++ new)).length = (s.distinct (new ++ old)).length := by
  have half : ∀ l r : List TypeId,
      (s.distinct (l ++ r)).length ≤ (s.distinct (r ++ l)).length := by
    intro l r
    refine length_le_of_covered trans s.pairwise_distinct fun x member => ?_
    exact covered_distinct <|
      List.mem_append.mpr (List.mem_append.mp (mem_of_mem_distinct member)).symm
  exact Nat.le_antisymm (half old new) (half new old)

end Transitive

/-! ### What a union covers -/

/-- A union is given back for the union with another type: it has as many alternatives that repeat
an earlier one as the other type has alternatives that it does not cover. -/
def Stands (s : TypeStore) (a b : TypeId) : Prop :=
  s.isUnion a = true ∧
    s.repeats (s.alternatives a) = s.fresh (s.alternatives a) (s.alternatives b)

/-- An operand is given back although the other one has an alternative that it does not cover. -/
def Loses (s : TypeStore) (a b : TypeId) : Prop :=
  (s.Stands a b ∧ 0 < s.fresh (s.alternatives a) (s.alternatives b)) ∨
    (¬s.Stands a b ∧ s.Stands b a ∧ 0 < s.fresh (s.alternatives b) (s.alternatives a))

instance (s : TypeStore) (a b : TypeId) : Decidable (s.Stands a b) :=
  inferInstanceAs (Decidable (_ ∧ _))

instance (s : TypeStore) (a b : TypeId) : Decidable (s.Loses a b) :=
  inferInstanceAs (Decidable (_ ∨ _))

section Coverage

variable (wf : s.WellFormed)

include wf

theorem stands_iff : s.Stands a b ↔ s.isUnion a = true ∧
    (s.distinct (s.alternatives a ++ s.alternatives b)).length = (s.alternatives a).length := by
  have counted := length_distinct_append (equal_trans wf.finiteOrigins wf.carriesDefinitions)
    (s.alternatives a) (s.alternatives b)
  have fewer := s.length_distinct_le (s.alternatives a)
  unfold Stands repeats
  apply and_congr_right
  intro _
  omega

theorem stands_iff_right : s.Stands b a ↔ s.isUnion b = true ∧
    (s.distinct (s.alternatives a ++ s.alternatives b)).length = (s.alternatives b).length := by
  rw [length_distinct_comm (equal_trans wf.finiteOrigins wf.carriesDefinitions)]
  exact stands_iff wf

omit wf in
theorem Related.isUnion (h : s.Related R a b) : s.isUnion a = s.isUnion b := by
  unfold Related at h
  unfold TypeStore.isUnion
  generalize s.get a = p, s.get b = q at h ⊢
  cases p <;> cases q <;> try rfl
  -- What is left are a union and something else, which are never related.
  all_goals cases h

omit wf in
theorem covered_of_equal (finite : s.FiniteOrigins) (h : s.equal a b = true) :
    ∀ x ∈ s.alternatives b, s.covered (s.alternatives a) x = true := by
  intro x member
  rcases equal_related finite h with rfl | related
  · exact covered_of_mem member
  · cases union : s.isUnion b with
    | false =>
      rw [alternatives_of_not_union union, List.mem_singleton] at member
      rw [alternatives_of_not_union (related.isUnion.trans union), member]
      exact covered_iff.mpr ⟨a, List.mem_singleton_self a, h⟩
    | true =>
      obtain ⟨l, foundLeft⟩ := isUnion_eq_true.mp (related.isUnion.trans union)
      obtain ⟨r, foundRight⟩ := isUnion_eq_true.mp union
      simp only [Related, foundLeft, foundRight] at related
      rw [alternatives_of_union foundRight] at member
      rw [alternatives_of_union foundLeft]
      exact covered_iff.mpr (related.2 x member)

omit wf in
/-- One operand is given back: the union covers the alternatives of the other one exactly if there
is no new one among them. -/
theorem covers_given_back : (∀ x ∈ l ++ r, s.covered l x = true) ↔ s.fresh l r = 0 := by
  rw [fresh_eq_zero]
  constructor
  · exact fun h x member => h x (List.mem_append_right l member)
  · intro h x member
    rcases List.mem_append.mp member with member | member
    · exact covered_of_mem member
    · exact h x member

theorem Stands.two_alternatives (stands : s.Stands a b)
    (new : 0 < s.fresh (s.alternatives a) (s.alternatives b)) :
    1 < (s.distinct (s.alternatives a ++ s.alternatives b)).length := by
  rw [length_distinct_append (equal_trans wf.finiteOrigins wf.carriesDefinitions)]
  have some : s.alternatives a ≠ [] := by
    intro none
    have := stands.2
    simp only [repeats, none, List.length_nil] at this new
    omega
  have kept : 0 < (s.distinct (s.alternatives a)).length :=
    List.length_pos_iff.mpr (mt distinct_eq_nil.mp some)
  omega

theorem WellFormed.covers_iff (ha : s.Has a) (hb : s.Has b) :
    (∀ x ∈ s.alternatives a ++ s.alternatives b,
      (s.union a b).2.contains (s.union a b).1 x = true) ↔ ¬s.Loses a b := by
  have joins := s.union_joins a b
  generalize s.union a b = result at joins ⊢
  cases joins with
  | same equal =>
    have none := fresh_eq_zero.mpr (covered_of_equal wf.finiteOrigins equal)
    have none' := fresh_eq_zero.mpr (covered_of_equal wf.finiteOrigins (equal_symm equal))
    refine iff_of_true (covers_given_back.mpr none) ?_
    simp [Loses, none, none']
  | @single t different types =>
    have alternative : t ∈ s.alternatives a ++ s.alternatives b :=
      mem_of_mem_distinct (s := s) (by simp [types])
    have plain : s.isUnion t = false := by
      rcases List.mem_append.mp alternative with member | member
      · exact (wf.flat ha t member).2
      · exact (wf.flat hb t member).2
    refine iff_of_true (fun x member => ?_) ?_
    · rw [contains_eq_covered, alternatives_of_not_union plain, ← types]
      exact covered_distinct member
    · rintro (⟨stands, new⟩ | ⟨_, stands, new⟩)
      · have two := stands.two_alternatives wf new
        simp only [types, List.length_singleton, Nat.lt_irrefl] at two
      · have two := stands.two_alternatives wf new
        rw [length_distinct_comm (equal_trans wf.finiteOrigins wf.carriesDefinitions)] at two
        simp only [types, List.length_singleton, Nat.lt_irrefl] at two
  | first different union count =>
    have stands := (stands_iff wf).mpr ⟨union, count⟩
    simp only [contains_eq_covered, covers_given_back, Loses, stands]
    simp [Nat.pos_iff_ne_zero]
  | second different grown union count =>
    have moves := mt (stands_iff wf).mp grown
    have stands := (stands_iff_right wf).mpr ⟨union, count⟩
    have turned : (∀ x ∈ s.alternatives a ++ s.alternatives b, s.contains b x = true) ↔
        ∀ x ∈ s.alternatives b ++ s.alternatives a, s.covered (s.alternatives b) x = true := by
      simp only [List.mem_append, or_comm, contains_eq_covered]
    rw [turned, covers_given_back]
    simp [Loses, moves, stands, Nat.pos_iff_ne_zero]
  | fresh different grown grown' =>
    have moves := mt (stands_iff wf).mp grown
    have moves' := mt (stands_iff_right wf).mp grown'
    refine iff_of_true (fun x member => ?_) (by simp [Loses, moves, moves'])
    have has : ∀ y ∈ s.alternatives a ++ s.alternatives b, s.Has y := by
      intro y member
      rcases List.mem_append.mp member with member | member
      · exact (wf.flat ha y member).1
      · exact (wf.flat hb y member).1
    obtain ⟨y, kept, same⟩ := covered_iff.mp (covered_distinct (s := s) member)
    rw [contains_eq_covered]
    refine covered_iff.mpr ⟨y, ?_, ?_⟩
    · exact (alternatives_of_union (get_alloc_new s _)).symm ▸ kept
    · rw [(grows_alloc s _).equal wf (has y (mem_of_mem_distinct kept)) (has x member)]
      exact same

end Coverage

end TypeStore

/-- In every run a union covers all alternatives of its operands, unless an operand is given back
for it whose repeated alternatives are as many as the new ones of the other operand. -/
theorem union_covers_iff {h : Heap} {a b : TypeId} (reachable : h.Reachable)
    (ha : h.types.Has a) (hb : h.types.Has b) :
    (∀ x ∈ h.types.alternatives a ++ h.types.alternatives b,
      (h.types.union a b).2.contains (h.types.union a b).1 x = true) ↔ ¬h.types.Loses a b :=
  reachable.wellFormed.covers_iff ha hb

/-! ### A union that loses an alternative -/

namespace Heap

/-- The tables of new values inherit from nothing but the first class. -/
def oneBase : Bases := ⟨⟨10⟩, ⟨10⟩, ⟨10⟩, ⟨10⟩, ⟨10⟩⟩

/-- A list of integers, a list of strings, and the union of both. -/
def twoLists : Heap :=
  let h : Heap := (Heap.newClass {} "list" "list" ⟨0⟩).2
  let h := (h.newListOf oneBase .int).2
  let h := (h.newListOf oneBase .str).2
  { h with types := (h.types.union ⟨11⟩ ⟨12⟩).2 }

/-- Each list gets an element of the other's type, after which they are equal. -/
def mixedLists : Heap :=
  let h := { twoLists with types := twoLists.types.widenList ⟨11⟩ .str }
  { h with types := h.types.widenList ⟨12⟩ .int }

theorem newListOf_reachable {h : Heap} (reachable : h.Reachable) (bases : Bases)
    (element : TypeId) (he : h.types.Has element) : (h.newListOf bases element).2.Reachable :=
  reachable.step (.newList bases [] he (by simp))

theorem twoLists_reachable : twoLists.Reachable := by
  have start : Heap.Reachable {} := ⟨{}, .refl⟩
  have made := start.step (.newClass "list" "list" ⟨0⟩)
  have first := newListOf_reachable made oneBase .int (by decide)
  have second := newListOf_reachable first oneBase .str (by decide)
  exact second.step (.union (by decide) (by decide))

theorem mixedLists_reachable : mixedLists.Reachable := by
  have first : Heap.Reachable { twoLists with types := twoLists.types.widenList ⟨11⟩ .str } :=
    twoLists_reachable.step (.widenList ⟨11⟩ (by decide +kernel))
  exact first.step (.widenList ⟨12⟩ (by decide +kernel))

end Heap

open Heap in
theorem union_covers_twoLists : twoLists.Reachable ∧ twoLists.types.Has ⟨13⟩ ∧
    twoLists.types.Has .float ∧
    ∀ x ∈ twoLists.types.alternatives ⟨13⟩ ++ twoLists.types.alternatives .float,
      (twoLists.types.union ⟨13⟩ .float).2.contains (twoLists.types.union ⟨13⟩ .float).1 x =
        true :=
  ⟨twoLists_reachable, by decide +kernel, by decide +kernel,
    (union_covers_iff twoLists_reachable (by decide +kernel) (by decide +kernel)).mpr
      (by decide +kernel)⟩

open Heap in
/-- The lists have become equal, so the union with a third type still has two alternatives. -/
theorem union_loses_float : mixedLists.Reachable ∧ mixedLists.types.Has ⟨13⟩ ∧
    mixedLists.types.Has .float ∧ .float ∈ mixedLists.types.alternatives .float ∧
    (mixedLists.types.union ⟨13⟩ .float).2.contains (mixedLists.types.union ⟨13⟩ .float).1
      .float = false :=
  ⟨mixedLists_reachable, by decide +kernel, by decide +kernel, by decide +kernel,
    by decide +kernel⟩

end FlowTypes
