import FlowTypes.Types.Equality
import Mathlib.Data.List.Forall2
import Mathlib.Data.List.Perm.Subperm
import Mathlib.Data.List.Zip
import Mathlib.Logic.Relation

/-! Equality of types is the greatest bisimulation. A comparison assumes the pairs on its stack; the
assumptions are discharged one by one, since a pair that holds under the assumption of itself holds
without it. -/
namespace FlowTypes

namespace Comparison

variable {R S : TypeId → TypeId → Prop} {c : Comparison}

/-- The comparison comes out positive once the related types count as the same. -/
def Holds (R : TypeId → TypeId → Prop) : Comparison → Prop
  | settled answer => answer = true
  | parts pairs => ∀ p ∈ pairs, R p.1 p.2
  | alternatives l r => (∀ x ∈ l, ∃ y ∈ r, R x y) ∧ ∀ y ∈ r, ∃ x ∈ l, R x y

/-- The comparison with its sides exchanged. -/
def swap : Comparison → Comparison
  | settled answer => settled answer
  | parts pairs => parts (pairs.map Prod.swap)
  | alternatives l r => alternatives r l

theorem Holds.mono (sub : ∀ x y, R x y → S x y) (h : c.Holds R) : c.Holds S := by
  cases c with
  | settled answer => exact h
  | parts pairs => exact fun p hp => sub _ _ (h p hp)
  | alternatives l r =>
    refine ⟨fun x hx => ?_, fun y hy => ?_⟩
    · obtain ⟨y, hy, related⟩ := h.1 x hx
      exact ⟨y, hy, sub _ _ related⟩
    · obtain ⟨x, hx, related⟩ := h.2 y hy
      exact ⟨x, hx, sub _ _ related⟩

theorem holds_swap : c.swap.Holds R ↔ c.Holds fun x y => R y x := by
  cases c with
  | settled answer => exact Iff.rfl
  | parts pairs =>
    constructor
    · exact fun h p hp => h p.swap (List.mem_map_of_mem hp)
    · intro h p hp
      obtain ⟨q, hq, rfl⟩ := List.mem_map.mp hp
      exact h q hq
  | alternatives l r => exact And.comm

end Comparison

namespace TypeStore

variable {s : TypeStore}

/-! ### Where bound methods come from -/

/-- The function that a bound method was made from. -/
def origin? (s : TypeStore) (a : TypeId) : Option TypeId := (s.function? a).bind (·.origin)

/-- A type leads back to another in so many steps from bound methods to their origins. -/
inductive Leads (s : TypeStore) : Nat → TypeId → TypeId → Prop
  | own {a : TypeId} (last : ∀ o, s.origin? a = some o → o = a) : Leads s 0 a a
  | bound {n : Nat} {a o r : TypeId} (step : s.origin? a = some o) (other : o ≠ a)
      (rest : Leads s n o r) : Leads s (n + 1) a r

/-- No type leads back without end. -/
def FiniteOrigins (s : TypeStore) : Prop := ∀ a, ∃ n o, s.Leads n a o

theorem Leads.unique (h : s.Leads m a o) (h' : s.Leads n a r) : m = n ∧ o = r := by
  induction h generalizing n with
  | own last =>
    cases h' with
    | own => exact ⟨rfl, rfl⟩
    | bound step other => exact absurd (last _ step) other
  | bound step other _ ih =>
    cases h' with
    | own last => exact absurd (last _ step) other
    | bound step' _ rest =>
      obtain rfl := Option.some.inj (step.symm.trans step')
      obtain ⟨rfl, rfl⟩ := ih rest
      exact ⟨rfl, rfl⟩

theorem origin?_inRange (h : s.origin? a = some o) : a.index < s.size := by
  apply Nat.lt_of_not_le
  intro outside
  simp [origin?, function?, get_of_le outside] at h

/-- The types on the way have different distances from the end, so they are different. -/
theorem Leads.way (h : s.Leads n a o) :
    ∃ way : List Nat, way.length = n ∧ way.Nodup ∧ (∀ i ∈ way, i < s.size) ∧
      ∀ i ∈ way, ∃ m ≤ n, 0 < m ∧ s.Leads m ⟨i⟩ o := by
  induction h with
  | own last => exact ⟨[], rfl, List.nodup_nil, by simp, by simp⟩
  | @bound n a o r step other rest ih =>
    obtain ⟨way, length, nodup, inRange, leads⟩ := ih
    refine ⟨a.index :: way, by simp [length], List.nodup_cons.mpr ⟨fun member => ?_, nodup⟩,
      ?_, ?_⟩
    · obtain ⟨m, bound, _, before⟩ := leads _ member
      have := (before.unique (.bound step other rest)).1
      omega
    · simpa using ⟨origin?_inRange step, inRange⟩
    · intro i member
      rcases List.mem_cons.mp member with rfl | member
      · exact ⟨n + 1, Nat.le_refl _, Nat.succ_pos n, .bound step other rest⟩
      · obtain ⟨m, bound, positive, before⟩ := leads i member
        exact ⟨m, by omega, positive, before⟩

theorem Leads.le_size (h : s.Leads n a o) : n ≤ s.size := by
  obtain ⟨way, length, nodup, inRange, _⟩ := h.way
  have subset : way ⊆ List.range s.size := fun i member => List.mem_range.mpr (inRange i member)
  have := (List.subperm_of_subset nodup subset).length_le
  simpa [length] using this

theorem Leads.originWithin (h : s.Leads n a o) (enough : n ≤ m) : s.originWithin m a = o := by
  induction h generalizing m with
  | @own a last =>
    cases m with
    | zero => rfl
    | succ m =>
      unfold TypeStore.originWithin
      split
      · rfl
      · rename_i o found
        rw [if_pos (last o found)]
  | @bound n a o r step other _ ih =>
    obtain ⟨m, rfl⟩ : ∃ k, m = k + 1 := ⟨m - 1, by omega⟩
    rw [TypeStore.originWithin, show (s.function? a).bind (·.origin) = some o from step]
    simp only [if_neg other]
    exact ih (by omega)

/-- The store is large enough for the search to come to the end of the way. -/
theorem Leads.originOf (h : s.Leads n a o) : s.originOf a = o :=
  h.originWithin h.le_size

theorem originOf_eq_iff (finite : s.FiniteOrigins) :
    s.originOf a = s.originOf b ↔ ∃ o m n, s.Leads m a o ∧ s.Leads n b o := by
  constructor
  · intro same
    obtain ⟨m, o, ha⟩ := finite a
    obtain ⟨n, r, hb⟩ := finite b
    rw [ha.originOf, hb.originOf] at same
    exact ⟨o, m, n, ha, same ▸ hb⟩
  · rintro ⟨o, m, n, ha, hb⟩
    rw [ha.originOf, hb.originOf]

/-! ### Bisimulations -/

/-- One function leads where the other does, or both come from one definition. -/
def SameSource (s : TypeStore) (a b : TypeId) (f g : FunctionType) : Prop :=
  (∃ o m n, s.Leads m a o ∧ s.Leads n b o) ∨
    ∃ d e, f.definition = some d ∧ g.definition = some e ∧ d.node.id = e.node.id

/-- Two types of the same kind whose parts are related. -/
def Related (s : TypeStore) (R : TypeId → TypeId → Prop) (a b : TypeId) : Prop :=
  match s.get a, s.get b with
  | .unknown, .unknown | .none, .none | .cont, .cont | .bool _, .bool _ | .int, .int
  | .float, .float | .complex, .complex | .str, .str => True
  | .list l, .list r => R l.element r.element
  | .dict l, .dict r => R l.key r.key ∧ R l.value r.value
  | .tuple l, .tuple r => List.Forall₂ R l.elements r.elements
  | .union l, .union r => (∀ x ∈ l, ∃ y ∈ r, R x y) ∧ ∀ y ∈ r, ∃ x ∈ l, R x y
  | .instanceOf l, .instanceOf r => l.classId = r.classId
  | .module l, .module r => l.file = r.file
  | .function l, .function r => s.SameSource a b l r
  -- Two classes are the same only if they are one.
  | _, _ => False

/-- A relation that holds only of types that are one or whose parts it relates. -/
def IsBisimulation (s : TypeStore) (R : TypeId → TypeId → Prop) : Prop :=
  ∀ x y, R x y → x = y ∨ s.Related R x y

theorem sameFunction_iff (finite : s.FiniteOrigins) :
    s.sameFunction a b f g = true ↔ s.SameSource a b f g := by
  simp only [sameFunction, SameSource, Bool.or_eq_true, decide_eq_true_eq, originOf_eq_iff finite]
  apply or_congr_right
  cases f.definition <;> cases g.definition <;> simp

theorem forall₂_iff_zip {l r : List TypeId} :
    List.Forall₂ R l r ↔ l.length = r.length ∧ ∀ p ∈ l.zip r, R p.1 p.2 := by
  rw [List.forall₂_iff_zip]
  simp

theorem related_iff_compare (finite : s.FiniteOrigins) :
    s.Related R a b ↔ (s.compare a b).Holds R := by
  unfold Related compare
  generalize s.get a = p, s.get b = q
  cases p <;> cases q
  case tuple.tuple l r =>
    by_cases same : l.elements.length = r.elements.length <;>
      simp [Comparison.Holds, same, forall₂_iff_zip]
  case function.function f g => exact (sameFunction_iff finite).symm
  all_goals simp [Comparison.Holds]

theorem sameFunction_comm : s.sameFunction b a g f = s.sameFunction a b f g := by
  unfold sameFunction
  cases f.definition <;> cases g.definition <;> simp [eq_comm]

theorem compare_swap : s.compare b a = (s.compare a b).swap := by
  unfold compare
  generalize s.get a = p, s.get b = q
  cases p <;> cases q
  case tuple.tuple l r =>
    by_cases same : l.elements.length = r.elements.length
    · simp [Comparison.swap, same, List.zip_swap]
    · simp [Comparison.swap, same, Ne.symm same]
  all_goals simp [Comparison.swap, sameFunction_comm, eq_comm]

theorem compare_open_swap (h : ∀ v, s.compare a b ≠ .settled v) :
    ∀ v, s.compare b a ≠ .settled v := by
  rw [compare_swap]
  cases hc : s.compare a b with
  | settled v => exact absurd hc (h v)
  | parts | alternatives => simp [Comparison.swap]

/-! ### Equality under assumptions -/

/-- A bisimulation that may fall back on assumptions. -/
def IsBisimulationUpTo (s : TypeStore) (A R : TypeId → TypeId → Prop) : Prop :=
  ∀ x y, R x y → x = y ∨ (s.compare x y).Holds fun u v => R u v ∨ A u v

def EqualUpTo (s : TypeStore) (A : TypeId → TypeId → Prop) (a b : TypeId) : Prop :=
  ∃ R, s.IsBisimulationUpTo A R ∧ R a b

section Assumptions

variable {A B : TypeId → TypeId → Prop} {a b : TypeId}

theorem EqualUpTo.mono (sub : ∀ x y, A x y → B x y) (h : s.EqualUpTo A a b) :
    s.EqualUpTo B a b := by
  obtain ⟨R, bisim, related⟩ := h
  refine ⟨R, fun x y hxy => ?_, related⟩
  exact (bisim x y hxy).imp_right (·.mono fun u v => Or.imp_right (sub u v))

theorem equalUpTo_iff : s.EqualUpTo A a b ↔
    a = b ∨ (s.compare a b).Holds fun u v => s.EqualUpTo A u v ∨ A u v := by
  constructor
  · rintro ⟨R, bisim, related⟩
    exact (bisim a b related).imp_right (·.mono fun u v => Or.imp_left fun h => ⟨R, bisim, h⟩)
  · intro h
    refine ⟨fun x y => s.EqualUpTo A x y ∨ (x = a ∧ y = b), ?_, .inr ⟨rfl, rfl⟩⟩
    rintro x y (⟨R, bisim, related⟩ | ⟨rfl, rfl⟩)
    · exact (bisim x y related).imp_right
        (·.mono fun u v => Or.imp_left fun h => .inl ⟨R, bisim, h⟩)
    · exact h.imp_right (·.mono fun u v => Or.imp_left .inl)

theorem EqualUpTo.symm (symmetric : ∀ x y, A x y → A y x) (h : s.EqualUpTo A a b) :
    s.EqualUpTo A b a := by
  obtain ⟨R, bisim, related⟩ := h
  refine ⟨fun x y => R y x, fun x y hxy => ?_, related⟩
  refine (bisim y x hxy).imp Eq.symm fun holds => ?_
  rw [compare_swap, Comparison.holds_swap]
  exact holds.mono fun u v => Or.imp_right (symmetric u v)

/-- A pair may be assumed while it is compared: what holds under the assumption of itself holds. -/
theorem EqualUpTo.discharge (symmetric : ∀ x y, A x y → A y x)
    (h : s.EqualUpTo (fun x y => A x y ∨ (x = a ∧ y = b) ∨ (x = b ∧ y = a)) a b) :
    s.EqualUpTo A a b := by
  have wider : ∀ x y, (A x y ∨ (x = a ∧ y = b) ∨ (x = b ∧ y = a)) →
      A y x ∨ (y = a ∧ x = b) ∨ (y = b ∧ x = a) := by
    rintro x y (assumed | ⟨rfl, rfl⟩ | ⟨rfl, rfl⟩)
    · exact .inl (symmetric x y assumed)
    · exact .inr (.inr ⟨rfl, rfl⟩)
    · exact .inr (.inl ⟨rfl, rfl⟩)
  refine ⟨_, fun x y hxy => ?_, h⟩
  refine (equalUpTo_iff.mp hxy).imp_right (·.mono ?_)
  rintro u v (equal | assumed | ⟨rfl, rfl⟩ | ⟨rfl, rfl⟩)
  · exact .inl equal
  · exact .inr assumed
  · exact .inl h
  · exact .inl (h.symm wider)

end Assumptions

/-! ### The comparison decides equality under the assumptions of its stack -/

/-- A pair of the stack. Only pairs whose parts are compared get there. -/
def Assumed (s : TypeStore) (stack : PairStack) (a b : TypeId) : Prop :=
  stack.contains a b = true ∧ ∀ v, s.compare a b ≠ .settled v

variable {stack : PairStack} {a b : TypeId}

theorem contains_comm : stack.contains b a = stack.contains a b := by
  simp only [PairStack.contains, Bool.or_comm]

theorem Assumed.symm (h : s.Assumed stack a b) : s.Assumed stack b a :=
  ⟨by rw [contains_comm]; exact h.1, compare_open_swap h.2⟩

theorem contains_push : (stack.push a b).contains x y = true ↔
    stack.contains x y = true ∨ (x = a ∧ y = b) ∨ (x = b ∧ y = a) := by
  simp only [PairStack.contains, PairStack.push, List.any_cons, Bool.or_eq_true, Bool.and_eq_true,
    decide_eq_true_eq]
  grind

theorem assumed_push (isOpen : ∀ v, s.compare a b ≠ .settled v) : s.Assumed (stack.push a b) x y ↔
      s.Assumed stack x y ∨ (x = a ∧ y = b) ∨ (x = b ∧ y = a) := by
  unfold Assumed
  rw [contains_push]
  constructor
  · rintro ⟨assumed | new, still⟩
    · exact .inl ⟨assumed, still⟩
    · exact .inr new
  · rintro (⟨assumed, still⟩ | ⟨rfl, rfl⟩ | ⟨rfl, rfl⟩)
    · exact ⟨.inl assumed, still⟩
    · exact ⟨.inr (.inl ⟨rfl, rfl⟩), isOpen⟩
    · exact ⟨.inr (.inr ⟨rfl, rfl⟩), compare_open_swap isOpen⟩

/-- Comparing the parts of a pair under the assumption of the pair decides the pair. -/
theorem equalUpTo_push (different : a ≠ b) (isOpen : ∀ v, s.compare a b ≠ .settled v) :
    s.EqualUpTo (s.Assumed stack) a b ↔ (s.compare a b).Holds fun u v =>
      s.EqualUpTo (s.Assumed (stack.push a b)) u v ∨ s.Assumed (stack.push a b) u v := by
  constructor
  · intro equal
    have wider := equal.mono (B := s.Assumed (stack.push a b)) fun x y assumed =>
      (assumed_push isOpen).mpr (.inl assumed)
    exact (equalUpTo_iff.mp wider).resolve_left different
  · intro holds
    have equal : s.EqualUpTo (s.Assumed (stack.push a b)) a b := equalUpTo_iff.mpr (.inr holds)
    exact (equal.mono fun x y => (assumed_push isOpen).mp).discharge fun x y => Assumed.symm

/-- The answer does not depend on which assumptions were on the stack, only on whether they hold. -/
theorem equalFrom_iff : s.equalFrom stack a b = true ↔
      s.EqualUpTo (s.Assumed stack) a b ∨ s.Assumed stack a b := by
  fun_induction equalFrom s stack a b with
  | case1 stack a => simpa using .inl (equalUpTo_iff.mpr (.inl rfl))
  | case2 stack a b different answer hc =>
    have notAssumed : ¬s.Assumed stack a b := fun h => h.2 answer hc
    rw [or_iff_left notAssumed, equalUpTo_iff, hc]
    exact (or_iff_right different).symm
  | case3 stack a b different pairs hc known =>
    simpa using .inr ⟨known, fun v => by simp [hc]⟩
  | case4 stack a b different pairs hc unknown ih =>
    have isOpen : ∀ v, s.compare a b ≠ .settled v := fun v => by simp [hc]
    rw [or_iff_left fun h : s.Assumed stack a b => unknown h.1, equalUpTo_push different isOpen, hc]
    simp only [Comparison.Holds, List.all_eq_true, ih]
  | case5 stack a b different l r hc known =>
    simpa using .inr ⟨known, fun v => by simp [hc]⟩
  | case6 stack a b different l r hc unknown ih =>
    have isOpen : ∀ v, s.compare a b ≠ .settled v := fun v => by simp [hc]
    rw [or_iff_left fun h : s.Assumed stack a b => unknown h.1, equalUpTo_push different isOpen, hc]
    -- The second half of the comparison asks for the pairs in the other order.
    have turned : ∀ x y, (s.EqualUpTo (s.Assumed (stack.push a b)) x y ∨
        s.Assumed (stack.push a b) x y) → s.EqualUpTo (s.Assumed (stack.push a b)) y x ∨
          s.Assumed (stack.push a b) y x := fun x y =>
      Or.imp (·.symm fun _ _ => Assumed.symm) Assumed.symm
    simp only [Comparison.Holds, Bool.and_eq_true, List.all_eq_true, List.any_eq_true, ih]
    refine and_congr_right fun _ => forall₂_congr fun y _ => exists_congr fun x => ?_
    exact and_congr_right fun _ => ⟨turned y x, turned x y⟩

theorem equal_iff_equalUpTo : s.equal a b = true ↔ s.EqualUpTo (fun _ _ => False) a b := by
  have none : s.Assumed {} = fun _ _ => False := by
    funext x y
    simp [Assumed, PairStack.contains]
  rw [equal, equalFrom_iff, none, or_false]

theorem equal_iff_exists_bisimulation (finite : s.FiniteOrigins) :
    s.equal a b = true ↔ ∃ R, s.IsBisimulation R ∧ R a b := by
  rw [equal_iff_equalUpTo]
  apply exists_congr
  intro R
  simp only [IsBisimulationUpTo, IsBisimulation, or_false, related_iff_compare finite]

@[simp] theorem equal_refl (a : TypeId) : s.equal a a = true :=
  equal_iff_equalUpTo.mpr (equalUpTo_iff.mpr (.inl rfl))

theorem equal_symm (h : s.equal a b = true) : s.equal b a = true :=
  equal_iff_equalUpTo.mpr ((equal_iff_equalUpTo.mp h).symm fun _ _ => id)

theorem equal_iff_compare : s.equal a b = true ↔
    a = b ∨ (s.compare a b).Holds fun x y => s.equal x y = true := by
  rw [equal_iff_equalUpTo, equalUpTo_iff]
  simp only [or_false, equal_iff_equalUpTo]

theorem equal_related (finite : s.FiniteOrigins) (h : s.equal a b = true) :
    a = b ∨ s.Related (fun x y => s.equal x y = true) a b := by
  simpa only [related_iff_compare finite] using equal_iff_compare.mp h

/-! ### Transitivity -/

/-- Every bound method carries the definition of the function it was made from. -/
def CarriesDefinitions (s : TypeStore) : Prop :=
  ∀ a f o, s.function? a = some f → f.origin = some o →
    (s.function? o).bind (·.definition) = f.definition

theorem Leads.definition (carries : s.CarriesDefinitions) (h : s.Leads n a o) :
    (s.function? a).bind (·.definition) = (s.function? o).bind (·.definition) := by
  induction h with
  | own => rfl
  | bound step _ _ ih =>
    obtain ⟨f, hf, origin⟩ := Option.bind_eq_some_iff.mp step
    rw [← ih, carries _ f _ hf origin, hf]
    rfl

theorem definition_of_leads (carries : s.CarriesDefinitions) (hf : s.get a = .function f)
    (hg : s.get b = .function g) (ha : s.Leads m a o) (hb : s.Leads n b o) :
    f.definition = g.definition := by
  have same := (ha.definition carries).trans (hb.definition carries).symm
  simpa only [function?, hf, hg, Option.bind_some] using same

theorem SameSource.trans (carries : s.CarriesDefinitions) (hf : s.get a = .function f)
    (hg : s.get b = .function g) (hh : s.get c = .function h) (hab : s.SameSource a b f g)
    (hbc : s.SameSource b c g h) : s.SameSource a c f h := by
  rcases hab with ⟨o, m, n, ha, hb⟩ | ⟨d, e, hd, he, same⟩
  · rcases hbc with ⟨o', n', k, hb', hc⟩ | ⟨e, d', he, hd', same⟩
    · obtain rfl := (hb.unique hb').2
      exact .inl ⟨o, m, k, ha, hc⟩
    · exact .inr ⟨e, d', (definition_of_leads carries hf hg ha hb).trans he, hd', same⟩
  · rcases hbc with ⟨o, n, k, hb, hc⟩ | ⟨e', d', he', hd', same'⟩
    · exact .inr ⟨d, e, hd, (definition_of_leads carries hg hh hb hc).symm.trans he, same⟩
    · obtain rfl := Option.some.inj (he.symm.trans he')
      exact .inr ⟨d, d', hd, hd', same.trans same'⟩

theorem forall₂_comp {l m r : List TypeId} (hlm : List.Forall₂ R l m) (hmr : List.Forall₂ S m r) :
    List.Forall₂ (Relation.Comp R S) l r := by
  induction hlm generalizing r with
  | nil => cases hmr; exact .nil
  | cons first _ ih =>
    cases hmr with
    | cons second rest => exact .cons ⟨_, first, second⟩ (ih rest)

/-- Parts of parts are related through the types in between. -/
theorem Related.comp (carries : s.CarriesDefinitions) (hab : s.Related R a b)
    (hbc : s.Related S b c) : s.Related (Relation.Comp R S) a c := by
  unfold Related at hab hbc ⊢
  cases ha : s.get a <;> cases hb : s.get b <;> simp only [ha, hb] at hab hbc ⊢
  all_goals cases hc : s.get c <;> simp only [hc] at hbc ⊢
  case list.list.list => exact ⟨_, hab, hbc⟩
  case dict.dict.dict => exact ⟨⟨_, hab.1, hbc.1⟩, ⟨_, hab.2, hbc.2⟩⟩
  case tuple.tuple.tuple => exact forall₂_comp hab hbc
  case instanceOf.instanceOf.instanceOf => exact hab.trans hbc
  case module.module.module => exact hab.trans hbc
  case function.function.function => exact hab.trans carries ha hb hc hbc
  case union.union.union =>
    refine ⟨fun x hx => ?_, fun z hz => ?_⟩
    · obtain ⟨y, hy, hxy⟩ := hab.1 x hx
      obtain ⟨z, hz, hyz⟩ := hbc.1 y hy
      exact ⟨z, hz, y, hxy, hyz⟩
    · obtain ⟨y, hy, hyz⟩ := hbc.2 z hz
      obtain ⟨x, hx, hxy⟩ := hab.2 y hy
      exact ⟨x, hx, y, hxy, hyz⟩

theorem Related.mono (finite : s.FiniteOrigins) (sub : ∀ x y, R x y → S x y) (h : s.Related R a b) :
    s.Related S a b :=
  (related_iff_compare finite).mpr (((related_iff_compare finite).mp h).mono sub)

theorem equal_trans (finite : s.FiniteOrigins) (carries : s.CarriesDefinitions)
    (hab : s.equal a b = true) (hbc : s.equal b c = true) : s.equal a c = true := by
  let E := fun x y => s.equal x y = true
  rw [equal_iff_exists_bisimulation finite]
  refine ⟨Relation.Comp E E, ?_, b, hab, hbc⟩
  rintro x z ⟨y, hxy, hyz⟩
  rcases equal_related finite hxy with rfl | first
  · refine (equal_related finite hyz).imp_right (·.mono finite fun u v huv => ?_)
    exact ⟨u, equal_refl u, huv⟩
  · rcases equal_related finite hyz with rfl | second
    · exact .inr (first.mono finite fun u v huv => ⟨v, huv, equal_refl v⟩)
    · exact .inr (first.comp carries second)

/-- The comparison, which ends on every store, tells exactly whether some bisimulation relates the
types. So it is reflexive and symmetric, and transitive unless a bound method has lost the
definition of its origin. -/
theorem equality_is_greatest_bisimulation (finite : s.FiniteOrigins) :
    (∀ a b, s.equal a b = true ↔ ∃ R, s.IsBisimulation R ∧ R a b) ∧
      (∀ a, s.equal a a = true) ∧
      (∀ a b, s.equal a b = true → s.equal b a = true) ∧
      (s.CarriesDefinitions → ∀ a b c,
        s.equal a b = true → s.equal b c = true → s.equal a c = true) :=
  ⟨fun _ _ => equal_iff_exists_bisimulation finite, equal_refl, fun _ _ => equal_symm,
    fun carries _ _ _ => equal_trans finite carries⟩

/-- Two lists that hold each other, a union of both, and a function with a method bound from it. -/
def knot : TypeStore :=
  ⟨#[.list ⟨⟨1⟩, [], [], ⟨0⟩⟩, .list ⟨⟨0⟩, [], [], ⟨1⟩⟩, .union [⟨0⟩, ⟨1⟩],
    .function { name := "f", table := ⟨2⟩, env := ⟨3⟩ },
    .function { name := "f", origin := some ⟨3⟩, table := ⟨2⟩, env := ⟨3⟩ }]⟩

theorem knot_finiteOrigins : knot.FiniteOrigins := by
  have unbound : ∀ a, knot.origin? a = none → ∃ n o, knot.Leads n a o := fun a h =>
    ⟨0, a, .own (by simp [h])⟩
  rintro ⟨_ | _ | _ | _ | _ | i⟩
  · exact unbound _ rfl
  · exact unbound _ rfl
  · exact unbound _ rfl
  · exact unbound _ rfl
  · exact ⟨1, ⟨3⟩, .bound rfl (by decide) (.own (by simp [show knot.origin? ⟨3⟩ = none from rfl]))⟩
  · exact unbound _ rfl

theorem knot_carriesDefinitions : knot.CarriesDefinitions := by
  rintro ⟨_ | _ | _ | _ | _ | i⟩ f o found origin
  case succ.succ.succ.succ.zero =>
    obtain rfl := Option.some.inj found
    obtain rfl := Option.some.inj origin
    rfl
  case succ.succ.succ.zero =>
    obtain rfl := Option.some.inj found
    cases origin
  all_goals cases found

theorem knot_equality : knot.FiniteOrigins ∧ knot.CarriesDefinitions ∧
    knot.equal ⟨0⟩ ⟨1⟩ = true ∧ knot.equal ⟨3⟩ ⟨4⟩ = true ∧ knot.equal ⟨0⟩ ⟨2⟩ ≠ true := by
  have spec := equality_is_greatest_bisimulation knot_finiteOrigins
  refine ⟨knot_finiteOrigins, knot_carriesDefinitions, ?_, ?_, ?_⟩
  · refine (spec.1 _ _).mpr ⟨fun x y => (x = ⟨0⟩ ∧ y = ⟨1⟩) ∨ (x = ⟨1⟩ ∧ y = ⟨0⟩), ?_,
      .inl ⟨rfl, rfl⟩⟩
    rintro x y (⟨rfl, rfl⟩ | ⟨rfl, rfl⟩)
    · exact .inr (.inr ⟨rfl, rfl⟩)
    · exact .inr (.inl ⟨rfl, rfl⟩)
  · refine (spec.1 _ _).mpr ⟨fun x y => x = ⟨3⟩ ∧ y = ⟨4⟩, ?_, rfl, rfl⟩
    rintro x y ⟨rfl, rfl⟩
    have own : knot.Leads 0 ⟨3⟩ ⟨3⟩ := .own (by simp [show knot.origin? ⟨3⟩ = none from rfl])
    exact .inr (.inl ⟨⟨3⟩, 0, 1, own, .bound rfl (by decide) own⟩)
  · rw [Ne, spec.1]
    rintro ⟨R, bisim, related⟩
    rcases bisim _ _ related with same | none
    · exact absurd same (by decide)
    · exact none

end TypeStore
end FlowTypes
