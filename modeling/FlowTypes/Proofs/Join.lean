import FlowTypes.Proofs.UnionCoverage
import FlowTypes.Proofs.Views

/-! Unions as joins. A union is determined, up to equality, by the alternatives of its operands, however
they were put together; so it does not matter in which order and how often types are united. This
takes a store in which the alternatives of every union are told apart. Main statement: in such a store
the operations on unions are those on finite sets of types, and they leave such a store. -/
namespace FlowTypes

namespace TypeStore

variable {s s' : TypeStore} {a b c t u v x : TypeId} {l m r : List TypeId}

/-! ### Lists that stand for one another -/

/-- Every type of either list equals one of the other list. -/
def Same (s : TypeStore) (l r : List TypeId) : Prop :=
  (∀ x ∈ l, s.covered r x = true) ∧ ∀ x ∈ r, s.covered l x = true

theorem Same.symm (h : s.Same l r) : s.Same r l := ⟨h.2, h.1⟩

theorem same_of_mem_iff (members : ∀ x, x ∈ l ↔ x ∈ r) : s.Same l r :=
  ⟨fun x member => covered_of_mem ((members x).mp member),
    fun x member => covered_of_mem ((members x).mpr member)⟩

theorem same_distinct : s.Same (s.distinct ids) ids :=
  ⟨fun _ member => covered_of_mem (mem_of_mem_distinct member), fun _ => covered_distinct⟩

theorem covered_append : s.covered (l ++ r) x = true ↔
    s.covered l x = true ∨ s.covered r x = true := by
  simp [covered]

theorem Same.append (h : s.Same l r) (h' : s.Same l' r') : s.Same (l ++ l') (r ++ r') := by
  refine ⟨fun x member => covered_append.mpr ?_, fun x member => covered_append.mpr ?_⟩
  · exact (List.mem_append.mp member).imp (h.1 x) (h'.1 x)
  · exact (List.mem_append.mp member).imp (h.2 x) (h'.2 x)

/-- One of two lists stands for both if it covers the other one. -/
theorem same_append (cover : ∀ x ∈ r, s.covered l x = true) : s.Same l (l ++ r) := by
  refine ⟨fun x member => covered_of_mem (List.mem_append_left r member), fun x member => ?_⟩
  exact (List.mem_append.mp member).elim covered_of_mem (cover x)

theorem distinct_of_pairwise (unequal : l.Pairwise fun x y => s.equal x y = false) :
    s.distinct l = l := by
  induction l with
  | nil => rfl
  | cons y ys ih =>
    obtain ⟨first, rest⟩ := List.pairwise_cons.mp unequal
    have kept : (ys.filter fun x => !s.covered [y] x) = ys :=
      List.filter_eq_self.mpr fun x member => by simpa [covered] using first x member
    rw [distinct_cons, kept, ih rest]

/-- A single type, or a union of several alternatives of which no two are equal. -/
structure ToldApart (s : TypeStore) (a : TypeId) : Prop where
  several : s.isUnion a = true → 2 ≤ (s.alternatives a).length
  unequal : (s.alternatives a).Pairwise fun x y => s.equal x y = false

theorem same_of_equal (finite : s.FiniteOrigins) (equal : s.equal a b = true) :
    s.Same (s.alternatives a) (s.alternatives b) :=
  ⟨covered_of_equal finite (equal_symm equal), covered_of_equal finite equal⟩

section

variable (chain : ∀ {x y z}, s.equal x y = true → s.equal y z = true → s.equal x z = true)

include chain

theorem Same.trans (first : s.Same l m) (second : s.Same m r) : s.Same l r :=
  ⟨fun x member => covered_trans chain second.1 (first.1 x member),
    fun x member => covered_trans chain first.2 (second.2 x member)⟩

/-- A union has alternatives that differ, so no single type covers all of them. -/
theorem ToldApart.not_union_of_covered (apart : s.ToldApart b) (single : s.isUnion a = false)
    (cover : ∀ x ∈ s.alternatives b, s.covered (s.alternatives a) x = true) :
    s.isUnion b = false := by
  have fewer := length_le_of_covered chain apart.unequal cover
  rw [alternatives_of_not_union single, List.length_singleton] at fewer
  refine Bool.eq_false_iff.mpr fun union => ?_
  have two := apart.several union
  omega

theorem ToldApart.equal_of_same (left : s.ToldApart a) (right : s.ToldApart b)
    (same : s.Same (s.alternatives a) (s.alternatives b)) : s.equal a b = true := by
  cases union : s.isUnion a with
  | false =>
    have union' := right.not_union_of_covered chain union same.2
    obtain ⟨y, member, equal⟩ := covered_iff.mp
      (same.2 b (by simp [alternatives_of_not_union union']))
    rw [alternatives_of_not_union union, List.mem_singleton] at member
    exact member ▸ equal
  | true =>
    have union' : s.isUnion b = true := by
      rw [← Bool.not_eq_false]
      intro single
      simp [left.not_union_of_covered chain single same.1] at union
    obtain ⟨types, found⟩ := isUnion_eq_true.mp union
    obtain ⟨types', found'⟩ := isUnion_eq_true.mp union'
    rw [alternatives_of_union found, alternatives_of_union found'] at same
    refine equal_iff_compare.mpr (.inr ?_)
    simp only [compare, found, found', Comparison.Holds]
    refine ⟨fun x member => ?_, fun y member => covered_iff.mp (same.2 y member)⟩
    obtain ⟨y, member, equal⟩ := covered_iff.mp (same.1 x member)
    exact ⟨y, member, equal_symm equal⟩

end

/-! ### Stores whose unions are told apart -/

/-- A store in which every union has several alternatives, none of them a union and no two of them
equal, and every bound method the definition of its origin. -/
structure Proper (s : TypeStore) : Prop extends s.Closed where
  carries : s.CarriesDefinitions
  several : ∀ id types, s.get id = .union types → 2 ≤ types.length
  plain : ∀ id types, s.get id = .union types → ∀ x ∈ types, s.isUnion x = false
  unequal : ∀ id types, s.get id = .union types →
    types.Pairwise fun x y => s.equal x y = false

namespace Proper

variable (proper : s.Proper)

include proper

theorem trans (first : s.equal a b = true) (second : s.equal b c = true) : s.equal a c = true :=
  equal_trans proper.finite proper.carries first second

theorem alternatives_plain (ha : s.Has a) :
    ∀ x ∈ s.alternatives a, s.Has x ∧ s.isUnion x = false :=
  alternatives_flat ha fun types found x member =>
    ⟨proper.parts a x (by rwa [found]), proper.plain a types found x member⟩

theorem alternatives_unequal (a : TypeId) :
    (s.alternatives a).Pairwise fun x y => s.equal x y = false := by
  cases union : s.isUnion a with
  | false =>
    rw [alternatives_of_not_union union]
    exact List.pairwise_singleton _ _
  | true =>
    obtain ⟨types, found⟩ := isUnion_eq_true.mp union
    exact alternatives_of_union found ▸ proper.unequal a types found

theorem two_alternatives (union : s.isUnion a = true) : 2 ≤ (s.alternatives a).length := by
  obtain ⟨types, found⟩ := isUnion_eq_true.mp union
  exact alternatives_of_union found ▸ proper.several a types found

theorem alternatives_ne_nil : s.alternatives a ≠ [] := by
  cases union : s.isUnion a with
  | false => simp [alternatives_of_not_union union]
  | true =>
    have two := proper.two_alternatives union
    exact List.ne_nil_of_length_pos (by omega)

theorem toldApart (a : TypeId) : s.ToldApart a :=
  ⟨proper.two_alternatives, proper.alternatives_unequal a⟩

theorem equal_iff_same : s.equal a b = true ↔ s.Same (s.alternatives a) (s.alternatives b) :=
  ⟨same_of_equal proper.finite,
    (proper.toldApart a).equal_of_same proper.trans (proper.toldApart b)⟩

end Proper

/-! ### New unions -/

theorem Grows.alternatives (grows : s.Grows s') (ha : s.Has a) :
    s'.alternatives a = s.alternatives a := by
  unfold TypeStore.alternatives
  rcases Ty.sameShape_iff.mp (grows.shape ha) with same | ⟨f, g, old, new, _⟩ | ⟨c, d, old, new⟩
  · rw [same]
  · rw [old, new]
  · rw [old, new]

theorem Closed.covered (closed : s.Closed) (grows : s.Grows s') (inside : ∀ y ∈ l, s.Has y)
    (hx : s.Has x) : s'.covered l x = s.covered l x := by
  rw [Bool.eq_iff_iff, covered_iff, covered_iff]
  refine exists_congr fun y => and_congr_right fun member => ?_
  rw [closed.equal grows (inside y member) hx]

theorem Same.grows (same : s.Same l r) (closed : s.Closed) (grows : s.Grows s')
    (hl : ∀ x ∈ l, s.Has x) (hr : ∀ x ∈ r, s.Has x) : s'.Same l r :=
  ⟨fun x member => (closed.covered grows hr (hl x member)).trans (same.1 x member),
    fun x member => (closed.covered grows hl (hr x member)).trans (same.2 x member)⟩

theorem alternatives_alloc_union {s : TypeStore} {types : List TypeId} :
    (s.alloc (.union types)).2.alternatives (s.alloc (.union types)).1 = types :=
  alternatives_of_union (get_alloc_new s _)

theorem function?_alloc_union {types : List TypeId}
    (found : (s.alloc (.union types)).2.function? a = some f) :
    s.Has a ∧ s.function? a = some f := by
  rw [function?_eq_some] at found ⊢
  rcases s.get_alloc_cases (.union types) a with same | ⟨-, new⟩
  · rw [same] at found
    exact ⟨has_of_get (by simp [found]), found⟩
  · simp [new] at found

theorem Closed.alloc_union (closed : s.Closed) {types : List TypeId}
    (inside : ∀ x ∈ types, s.Has x) : (s.alloc (.union types)).2.Closed := by
  have grows := grows_alloc s (.union types)
  have origin : ∀ {a o}, (s.alloc (.union types)).2.origin? a = some o →
      s.Has a ∧ s.origin? a = some o := by
    intro a o bound
    obtain ⟨f, found, origin⟩ := Option.bind_eq_some_iff.mp bound
    obtain ⟨has, found⟩ := function?_alloc_union found
    exact ⟨has, Option.bind_eq_some_iff.mpr ⟨f, found, origin⟩⟩
  refine ⟨fun id m member => grows.has ?_, fun a o bound => ?_, fun a => ?_⟩
  · rcases s.get_alloc_cases (.union types) id with same | ⟨-, new⟩
    · exact closed.parts id m (same ▸ member)
    · rw [new] at member
      exact inside m member
  · exact grows.has (closed.origins a o (origin bound).2)
  · by_cases has : s.Has a
    · obtain ⟨n, o, leads⟩ := closed.finite a
      exact ⟨n, o, leads.mono grows closed has⟩
    · exact ⟨0, a, .own fun o bound => absurd (origin bound).1 has⟩

theorem Proper.alloc_union (proper : s.Proper) {types : List TypeId}
    (inside : ∀ x ∈ types, s.Has x ∧ s.isUnion x = false) (two : 2 ≤ types.length)
    (unequal : types.Pairwise fun x y => s.equal x y = false) :
    (s.alloc (.union types)).2.Proper := by
  have grows := grows_alloc s (.union types)
  have old : ∀ {x}, s.Has x ∧ s.isUnion x = false →
      (s.alloc (.union types)).2.isUnion x = false := by
    rintro x ⟨has, plain⟩
    rwa [kept_alloc.isUnion has]
  -- Nothing that was unequal becomes equal, among the new alternatives or the old ones.
  have apart : ∀ {ids : List TypeId}, (∀ x ∈ ids, s.Has x) →
      (ids.Pairwise fun x y => s.equal x y = false) →
      ids.Pairwise fun x y => (s.alloc (.union types)).2.equal x y = false := by
    intro ids inside unequal
    refine unequal.imp_of_mem fun {x y} hx hy different => ?_
    rw [proper.equal grows (inside x hx) (inside y hy), different]
  have unions : ∀ {id ids}, (s.alloc (.union types)).2.get id = .union ids →
      s.get id = .union ids ∨ ids = types := by
    intro id ids found
    rcases s.get_alloc_cases (.union types) id with same | ⟨-, new⟩
    · exact .inl (same ▸ found)
    · rw [new] at found
      exact .inr (Ty.union.inj found).symm
  refine { proper.toClosed.alloc_union fun x member => (inside x member).1 with
    carries := ?_, several := ?_, plain := ?_, unequal := ?_ }
  · intro a f o found origin
    obtain ⟨has, found⟩ := function?_alloc_union found
    have source : s.Has o := proper.origins a o (Option.bind_eq_some_iff.mpr ⟨f, found, origin⟩)
    rw [← proper.carries a f o found origin]
    simp only [function?, get_alloc source]
  · intro id ids found
    rcases unions found with found | rfl
    · exact proper.several id ids found
    · exact two
  · intro id ids found x member
    rcases unions found with found | rfl
    · exact old ⟨proper.parts id x (by rwa [found]), proper.plain id ids found x member⟩
    · exact old (inside x member)
  · intro id ids found
    rcases unions found with found | rfl
    · exact apart (fun x member => proper.parts id x (by rwa [found]))
        (proper.unequal id ids found)
    · exact apart (fun x member => (inside x member).1) unequal

/-! ### What a type amounts to -/

/-- A type whose alternatives stand for the types of a list. -/
structure Amounts (s : TypeStore) (u : TypeId) (l : List TypeId) : Prop where
  has : s.Has u
  inside : ∀ x ∈ l, s.Has x
  same : s.Same (s.alternatives u) l

theorem Proper.amounts (proper : s.Proper) (ha : s.Has a) : s.Amounts a (s.alternatives a) :=
  ⟨ha, fun x member => (proper.alternatives_plain ha x member).1, same_of_mem_iff fun _ => .rfl⟩

theorem Amounts.grows (amounts : s.Amounts u l) (proper : s.Proper) (grows : s.Grows s') :
    s'.Amounts u l := by
  refine ⟨grows.has amounts.has, fun x member => grows.has (amounts.inside x member), ?_⟩
  rw [grows.alternatives amounts.has]
  exact amounts.same.grows proper.toClosed grows
    (fun x member => (proper.alternatives_plain amounts.has x member).1) amounts.inside

theorem Proper.equal_of_amounts (proper : s.Proper) (first : s.Amounts u l)
    (second : s.Amounts v r) (members : ∀ x, x ∈ l ↔ x ∈ r) : s.equal u v = true := by
  rw [proper.equal_iff_same]
  exact (first.same.trans proper.trans (same_of_mem_iff members)).trans proper.trans second.same.symm

theorem Proper.contains_of_amounts (proper : s.Proper) (amounts : s.Amounts u l) (x : TypeId) :
    s.contains u x = s.covered l x := by
  rw [contains_eq_covered, Bool.eq_iff_iff]
  exact ⟨covered_trans proper.trans amounts.same.1, covered_trans proper.trans amounts.same.2⟩

/-- What an operation that unites types gives: a type that amounts to them, in a proper store that has
grown out of the old one. -/
structure Unites (s : TypeStore) (l : List TypeId) (result : TypeId × TypeStore) : Prop where
  proper : result.2.Proper
  grows : s.Grows result.2
  amounts : result.2.Amounts result.1 l

section

variable (proper : s.Proper)

include proper

/-- The types that are kept of the alternatives of two types are the first operand's and what is new in
the second. -/
theorem Proper.distinct_append : s.distinct (s.alternatives a ++ r) =
      s.alternatives a ++ s.distinct (r.filter fun x => !s.covered (s.alternatives a) x) := by
  rw [TypeStore.distinct_append, distinct_of_pairwise (proper.alternatives_unequal a)]

theorem Proper.covered_of_count
    (count : (s.distinct (s.alternatives a ++ r)).length = (s.alternatives a).length) :
    ∀ x ∈ r, s.covered (s.alternatives a) x = true := by
  rw [proper.distinct_append, List.length_append] at count
  exact fresh_eq_zero.mp (by unfold fresh; omega)

theorem Proper.unites_alternatives (ha : s.Has a) (hb : s.Has b) :
    s.Unites (s.alternatives a ++ s.alternatives b) (s.union a b) := by
  have inside : ∀ x ∈ s.alternatives a ++ s.alternatives b, s.Has x ∧ s.isUnion x = false := by
    intro x member
    exact (List.mem_append.mp member).elim (proper.alternatives_plain ha x)
      (proper.alternatives_plain hb x)
  have has := fun x member => (inside x member).1
  have joins := s.union_joins a b
  generalize s.union a b = result at joins ⊢
  cases joins with
  | same equal =>
    exact ⟨proper, .refl, ha, has, same_append (covered_of_equal proper.finite equal)⟩
  | @single t different types =>
    have member : t ∈ s.distinct (s.alternatives a ++ s.alternatives b) := by simp [types]
    obtain ⟨ht, plain⟩ := inside t (mem_of_mem_distinct member)
    refine ⟨proper, .refl, ht, has, ?_⟩
    rw [alternatives_of_not_union plain, ← types]
    exact same_distinct
  | first different union count =>
    exact ⟨proper, .refl, ha, has, same_append (proper.covered_of_count count)⟩
  | second different grown union count =>
    rw [length_distinct_comm proper.trans] at count
    refine ⟨proper, .refl, hb, has, ?_⟩
    refine (same_append (proper.covered_of_count count)).trans proper.trans ?_
    exact same_of_mem_iff fun x => by simp [or_comm]
  | fresh different grown grown' several =>
    have kept := fun x member => inside x (mem_of_mem_distinct (s := s) member)
    have some : s.distinct (s.alternatives a ++ s.alternatives b) ≠ [] := by
      simp [distinct_eq_nil, proper.alternatives_ne_nil]
    have grows := grows_alloc s (.union (s.distinct (s.alternatives a ++ s.alternatives b)))
    refine ⟨proper.alloc_union kept (two_le_length some several) s.pairwise_distinct, grows,
      by simp [Has, alloc, size], fun x member => grows.has (has x member), ?_⟩
    rw [alternatives_alloc_union]
    exact same_distinct.grows proper.toClosed grows (fun x member => (kept x member).1) has

theorem Proper.unites (first : s.Amounts u l) (second : s.Amounts v r) :
    s.Unites (l ++ r) (s.union u v) := by
  have united := proper.unites_alternatives first.has second.has
  refine ⟨united.proper, united.grows, united.amounts.has, fun x member => ?_, ?_⟩
  · exact united.grows.has ((List.mem_append.mp member).elim (first.inside x) (second.inside x))
  · have first' := (first.grows proper united.grows).same
    have second' := (second.grows proper united.grows).same
    rw [united.grows.alternatives first.has] at first'
    rw [united.grows.alternatives second.has] at second'
    exact united.amounts.same.trans united.proper.trans (first'.append second')

end

theorem Proper.unites_from (proper : s.Proper) (first : s.Amounts u l) (inside : ∀ b ∈ bs, s.Has b) :
    s.Unites (l ++ bs.flatMap s.alternatives) (s.unionFrom u bs) := by
  induction bs generalizing s u l with
  | nil => simpa using ⟨proper, .refl, first⟩
  | cons b bs ih =>
    obtain ⟨hb, inside⟩ := List.forall_mem_cons.mp inside
    have step := proper.unites first (proper.amounts hb)
    have rest := ih step.proper step.amounts fun b member => step.grows.has (inside b member)
    have same : bs.flatMap (s.union u b).2.alternatives = bs.flatMap s.alternatives :=
      List.flatMap_congr fun b member => step.grows.alternatives (inside b member)
    rw [same, List.append_assoc] at rest
    exact ⟨rest.proper, step.grows.trans rest.grows, rest.amounts⟩

theorem Proper.unites_all (proper : s.Proper) (some : l ≠ []) (inside : ∀ x ∈ l, s.Has x) :
    s.Unites (l.flatMap s.alternatives) (s.unionAll l) := by
  cases l with
  | nil => exact absurd rfl some
  | cons a bs =>
    obtain ⟨ha, inside⟩ := List.forall_mem_cons.mp inside
    exact proper.unites_from (proper.amounts ha) inside

/-! ### Types that are covered, and types that are taken out -/

theorem Proper.union_of_covered (proper : s.Proper)
    (cover : ∀ x ∈ s.alternatives b, s.contains a x = true) : s.union a b = (a, s) := by
  have none : (s.alternatives b).filter (fun x => !s.covered (s.alternatives a) x) = [] :=
    List.filter_eq_nil_iff.mpr fun x member => by simpa [contains_eq_covered] using cover x member
  have kept : s.distinct (s.alternatives a ++ s.alternatives b) = s.alternatives a := by
    rw [proper.distinct_append, none]
    exact List.append_nil _
  have joins := s.union_joins a b
  generalize s.union a b = result at joins ⊢
  cases union : s.isUnion a with
  | true =>
    have two := proper.two_alternatives union
    cases joins with
    | same | first => rfl
    | single _ types =>
      rw [kept] at types
      simp [types] at two
    | second _ grown | fresh _ grown => exact absurd ⟨union, by rw [kept]⟩ grown
  | false =>
    have other := (proper.toldApart b).not_union_of_covered proper.trans union cover
    rw [alternatives_of_not_union union] at kept
    cases joins with
    | same | first => rfl
    | single _ types =>
      rw [alternatives_of_not_union union, kept] at types
      rw [List.singleton_inj.mp types]
    | second _ _ isUnion => simp [other] at isUnion
    | fresh _ _ _ several =>
      rw [alternatives_of_not_union union, kept] at several
      exact absurd rfl (several a)

theorem Proper.covered_without (proper : s.Proper) :
    s.covered (s.without a t) x = (s.contains a x && !s.equal x t) := by
  rw [Bool.eq_iff_iff, Bool.and_eq_true, Bool.not_eq_true', contains_eq_covered, covered_iff,
    covered_iff]
  simp only [mem_without]
  constructor
  · rintro ⟨y, ⟨member, other⟩, same⟩
    refine ⟨⟨y, member, same⟩, Bool.eq_false_iff.mpr fun equal => ?_⟩
    simp [proper.trans same equal] at other
  · rintro ⟨⟨y, member, same⟩, other⟩
    refine ⟨y, ⟨member, Bool.eq_false_iff.mpr fun equal => ?_⟩, same⟩
    simp [proper.trans (equal_symm same) equal] at other

theorem Proper.removes (proper : s.Proper) (ha : s.Has a) :
    (s.remove a t).2.Proper ∧ s.Grows (s.remove a t).2 ∧
      ((s.remove a t).1 = none ↔ s.without a t = []) ∧
      ∀ u, (s.remove a t).1 = some u → (s.remove a t).2.Amounts u (s.without a t) := by
  have kept : ∀ x ∈ s.without a t, s.Has x ∧ s.isUnion x = false := fun x member =>
    proper.alternatives_plain ha x (mem_without.mp member).1
  have has := fun x member => (kept x member).1
  have removes := s.remove_removes a t
  generalize s.remove a t = result at removes ⊢
  cases removes with
  | nothing empty => exact ⟨proper, .refl, by simp [empty], by simp⟩
  | @single y one =>
    refine ⟨proper, .refl, by simp [one], ?_⟩
    rintro _ ⟨⟩
    obtain ⟨hy, plain⟩ := kept y (by simp [one])
    refine ⟨hy, has, ?_⟩
    rw [alternatives_of_not_union plain, one]
    exact same_of_mem_iff fun _ => .rfl
  | whole all =>
    refine ⟨proper, .refl, by simp [all, proper.alternatives_ne_nil], ?_⟩
    rintro _ ⟨⟩
    exact all ▸ proper.amounts ha
  | fresh several =>
    have grows := grows_alloc s (.union (s.without a t))
    have unequal := (proper.alternatives_unequal a).filter fun x => !s.equal x t
    have some : s.without a t ≠ [] := List.ne_nil_of_length_pos (by omega)
    refine ⟨proper.alloc_union kept several unequal, grows, by simp [some], ?_⟩
    rintro _ ⟨⟩
    refine ⟨by simp [Has, alloc, size], fun x member => grows.has (has x member), ?_⟩
    rw [alternatives_alloc_union]
    exact same_of_mem_iff fun _ => .rfl

/-! ### The laws -/

/-- The operations on unions are those on finite sets of types, up to equality. Of two results the
second one is computed in the store that the first one left. -/
structure JoinLaws (s : TypeStore) : Prop where
  /-- The union is proper again, old types compare as before, and it holds what either operand holds. -/
  join : ∀ a b, s.Has a → s.Has b → (s.union a b).2.Proper ∧
    (∀ x y, s.Has x → s.Has y → (s.union a b).2.equal x y = s.equal x y) ∧
    ∀ x, s.Has x → (s.union a b).2.contains (s.union a b).1 x = (s.contains a x || s.contains b x)
  comm : ∀ a b, s.Has a → s.Has b → ∀ ab s₁ ba s₂,
    s.union a b = (ab, s₁) → s₁.union b a = (ba, s₂) → s₂.equal ab ba = true
  assoc : ∀ a b c, s.Has a → s.Has b → s.Has c → ∀ ab s₁ left s₂ bc s₃ right s₄,
    s.union a b = (ab, s₁) → s₁.union ab c = (left, s₂) →
    s₂.union b c = (bc, s₃) → s₃.union a bc = (right, s₄) → s₄.equal left right = true
  idem : ∀ a, s.union a a = (a, s)
  /-- A type that covers another one is given back as it is, and nothing is allocated. -/
  absorb : ∀ u b, (∀ x ∈ s.alternatives b, s.contains u x = true) → s.union u b = (u, s)
  /-- Neither order nor repetition matters in a union of several types. -/
  all : ∀ l r, l ≠ [] → (∀ x ∈ l, s.Has x) → (∀ x, x ∈ l ↔ x ∈ r) → ∀ u s₁ v s₂,
    s.unionAll l = (u, s₁) → s₁.unionAll r = (v, s₂) → s₂.equal u v = true
  /-- What is left of a type holds what the type holds and does not equal the other one. -/
  remove : ∀ a t, s.Has a → (s.remove a t).2.Proper ∧
    ((s.remove a t).1 = none ↔ ∀ x ∈ s.alternatives a, s.equal x t = true) ∧
    ∀ x, s.Has x → ((s.remove a t).1.any fun u => (s.remove a t).2.contains u x) =
      (s.contains a x && !s.equal x t)

section

variable (proper : s.Proper)

include proper

theorem Proper.contains_union (ha : s.Has a) (hb : s.Has b) (hx : s.Has x) :
    (s.union a b).2.contains (s.union a b).1 x = (s.contains a x || s.contains b x) := by
  have united := proper.unites_alternatives ha hb
  have inside : ∀ y ∈ s.alternatives a ++ s.alternatives b, s.Has y := fun y member =>
    (List.mem_append.mp member).elim (fun h => (proper.alternatives_plain ha y h).1)
      fun h => (proper.alternatives_plain hb y h).1
  rw [united.proper.contains_of_amounts united.amounts,
    proper.toClosed.covered united.grows inside hx, covered, List.any_append]
  rfl

theorem Proper.union_comm (ha : s.Has a) (hb : s.Has b) (first : s.union a b = (ab, s₁))
    (second : s₁.union b a = (ba, s₂)) : s₂.equal ab ba = true := by
  have one := first ▸ proper.unites (proper.amounts ha) (proper.amounts hb)
  have two := second ▸ one.proper.unites ((proper.amounts hb).grows proper one.grows)
    ((proper.amounts ha).grows proper one.grows)
  exact two.proper.equal_of_amounts (one.amounts.grows one.proper two.grows) two.amounts
    fun x => by simp [or_comm]

theorem Proper.union_assoc (ha : s.Has a) (hb : s.Has b) (hc : s.Has c)
    (first : s.union a b = (ab, s₁)) (second : s₁.union ab c = (left, s₂))
    (third : s₂.union b c = (bc, s₃)) (fourth : s₃.union a bc = (right, s₄)) :
    s₄.equal left right = true := by
  have one := first ▸ proper.unites (proper.amounts ha) (proper.amounts hb)
  have two := second ▸ one.proper.unites one.amounts ((proper.amounts hc).grows proper one.grows)
  have upTo := one.grows.trans two.grows
  have three := third ▸ two.proper.unites ((proper.amounts hb).grows proper upTo)
    ((proper.amounts hc).grows proper upTo)
  have four := fourth ▸ three.proper.unites
    ((proper.amounts ha).grows proper (upTo.trans three.grows)) three.amounts
  exact four.proper.equal_of_amounts
    (two.amounts.grows two.proper (three.grows.trans four.grows)) four.amounts
    fun x => by simp

theorem Proper.unionAll_congr (some : l ≠ []) (inside : ∀ x ∈ l, s.Has x)
    (members : ∀ x, x ∈ l ↔ x ∈ r) (first : s.unionAll l = (u, s₁))
    (second : s₁.unionAll r = (v, s₂)) : s₂.equal u v = true := by
  obtain ⟨x, member⟩ := List.exists_mem_of_ne_nil l some
  have inside' : ∀ x ∈ r, s.Has x := fun x member => inside x ((members x).mpr member)
  have one := first ▸ proper.unites_all some inside
  have two := second ▸ one.proper.unites_all (List.ne_nil_of_mem ((members x).mp member))
    fun x member => one.grows.has (inside' x member)
  refine two.proper.equal_of_amounts (one.amounts.grows one.proper two.grows) two.amounts ?_
  intro y
  have same : r.flatMap s₁.alternatives = r.flatMap s.alternatives :=
    List.flatMap_congr fun x member => one.grows.alternatives (inside' x member)
  simp only [same, List.mem_flatMap, members]

theorem Proper.contains_remove (ha : s.Has a) (hx : s.Has x) :
    ((s.remove a t).1.any fun u => (s.remove a t).2.contains u x) =
      (s.contains a x && !s.equal x t) := by
  obtain ⟨proper', grows, none, amounts⟩ := proper.removes ha
  rw [← proper.covered_without]
  cases left : (s.remove a t).1 with
  | none => rw [none.mp left]; rfl
  | some u =>
    have inside : ∀ y ∈ s.without a t, s.Has y := fun y member =>
      (proper.alternatives_plain ha y (mem_without.mp member).1).1
    rw [Option.any_some, proper'.contains_of_amounts (amounts u left),
      proper.toClosed.covered grows inside hx]

end

/-- In a store whose unions are told apart, union is a join up to equality, and the removal of a type is
the difference of sets. -/
theorem joinLaws_of_proper (proper : s.Proper) : s.JoinLaws where
  join a b ha hb := by
    have united := proper.unites_alternatives ha hb
    exact ⟨united.proper, fun x y hx hy => proper.toClosed.equal united.grows hx hy,
      fun x hx => proper.contains_union ha hb hx⟩
  comm a b ha hb _ _ _ _ first second := proper.union_comm ha hb first second
  assoc a b c ha hb hc _ _ _ _ _ _ _ _ first second third fourth :=
    proper.union_assoc ha hb hc first second third fourth
  idem a := proper.union_of_covered fun x member => covered_of_mem member
  absorb u b cover := proper.union_of_covered cover
  all l r some inside members _ _ _ _ first second :=
    proper.unionAll_congr some inside members first second
  remove a t ha := by
    obtain ⟨proper', -, none, -⟩ := proper.removes ha
    refine ⟨proper', none.trans ?_, fun x hx => proper.contains_remove ha hx⟩
    simp [without, List.filter_eq_nil_iff]

/-- The unions that a run builds are proper as long as their alternatives stay apart. -/
theorem Sound.proper [Reference P] (sound : Sound P s)
    (apart : ∀ i < s.size, s.isUnion ⟨i⟩ = true → 2 ≤ (s.alternatives ⟨i⟩).length ∧
      (s.alternatives ⟨i⟩).Pairwise fun x y => s.equal x y = false) :
    s.Proper := by
  have unions : ∀ id types, s.get id = .union types → 2 ≤ types.length ∧
      types.Pairwise fun x y => s.equal x y = false := by
    intro id types found
    rw [← alternatives_of_union found]
    exact apart id.index (has_of_get (by simp [found])) (isUnion_eq_true.mpr ⟨types, found⟩)
  exact { sound.closed with
    carries := sound.carriesDefinitions
    several := fun id types found => (unions id types found).1
    plain := fun id types found x member => ((sound.fits id).flat types found x member).2
    unequal := fun id types found => (unions id types found).2 }

end TypeStore

namespace Heap

/-- Two lists and their union, a function, a method that is bound from it, and the union of the method
with one of the lists. -/
def listsAndMethod : Heap :=
  let h := (twoLists.newFunction oneBase "m" "m" ⟨0⟩).2
  let h := (h.bindMethod ⟨14⟩ .int).2
  { h with types := (h.types.union ⟨15⟩ ⟨11⟩).2 }

theorem listsAndMethod_reachable : listsAndMethod.Reachable := by
  have function := twoLists_reachable.step (.newFunction oneBase "m" "m" ⟨0⟩)
  have receiver : (twoLists.newFunction oneBase "m" "m" ⟨0⟩).2.types.Has .int := by decide +kernel
  have method := function.step (.bindMethod ⟨14⟩ receiver)
  exact method.step (.union (by decide +kernel) (by decide +kernel))

end Heap

open Heap in
/-- The method equals its function, so the union of the function with the list is the one that is
there. -/
theorem listsAndMethod_joinLaws : listsAndMethod.types.Proper ∧ listsAndMethod.types.JoinLaws ∧
    listsAndMethod.types.union ⟨16⟩ ⟨14⟩ = (⟨16⟩, listsAndMethod.types) := by
  have proper : listsAndMethod.types.Proper :=
    listsAndMethod_reachable.wellFormed.proper (by decide +kernel)
  have laws := TypeStore.joinLaws_of_proper proper
  exact ⟨proper, laws, laws.absorb ⟨16⟩ ⟨14⟩ (by decide +kernel)⟩

end FlowTypes
