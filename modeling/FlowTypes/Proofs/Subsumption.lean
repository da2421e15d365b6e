import FlowTypes.Proofs.Growth

/-! Subsumption of argument shapes. It is symmetric, since equality is and the assumptions of a
comparison have no direction, and it does not change while the store grows. It is the greatest
relation that asks of two shapes only what one look at them shows. -/
namespace FlowTypes.TypeStore

variable {s s' : TypeStore} {a b : TypeId} {l r : List TypeId}

theorem equal_comm : s.equal b a = s.equal a b := by
  rw [Bool.eq_iff_iff]
  exact ⟨equal_symm, equal_symm⟩

theorem places?_swap : s.places? b a = (s.places? a b).map Prod.swap := by
  unfold places?
  cases s.get a <;> cases s.get b <;> rfl

theorem subsumedFrom_eq :
    s.subsumedFrom stack a b = (stack.contains a b || isVague a || isVague b || s.equal a b ||
      (s.places? a b).any fun places => decide (places.1.length = places.2.length) &&
        (places.1.zip places.2).all fun p => s.subsumedFrom (stack.push a b) p.1 p.2) := by
  rw [subsumedFrom]
  split
  · next known => simp [known]
  · split
    · next unknown vague =>
      simp only [Bool.or_eq_true] at vague
      rcases vague with (vague | vague) | vague <;> simp [vague]
    · next unknown precise =>
      simp only [Bool.or_eq_true, not_or, Bool.not_eq_true] at unknown precise
      split
      · next none => simp [unknown, precise, none]
      · next left right found =>
        split <;> simp [*]

/-- Every round that looks at places has one more pair under comparison. -/
@[elab_as_elim] theorem round_induction (s : TypeStore)
    {motive : PairStack → TypeId → TypeId → Prop}
    (round : ∀ stack a b, (∀ l r, stack.contains a b = false → s.places? a b = some (l, r) →
      l.length = r.length → ∀ x y, motive (stack.push a b) x y) → motive stack a b)
    (stack : PairStack) (a b : TypeId) : motive stack a b := by
  induction hn : s.unvisited stack using Nat.strong_induction_on generalizing stack a b with
  | _ n ih =>
    subst hn
    refine round stack a b fun l r unknown found same x y => ?_
    have fresh : ¬stack.contains a b = true := by simp [unknown]
    exact ih _ (unvisited_push_lt (compare_of_places found same) fresh) _ x y rfl

theorem all_zip_swap {p q : TypeId → TypeId → Bool} (h : ∀ x y, q y x = p x y)
    {l r : List TypeId} :
    ((r.zip l).all fun z => q z.1 z.2) = (l.zip r).all fun z => p z.1 z.2 := by
  rw [← List.zip_swap, List.all_map]
  exact List.all_congr rfl fun z => h z.1 z.2

theorem subsumedFrom_swap (s : TypeStore) (stack stack' : PairStack) (a b : TypeId)
    (same : ∀ x y, stack'.contains x y = stack.contains x y) :
    s.subsumedFrom stack' b a = s.subsumedFrom stack a b := by
  induction stack, a, b using round_induction s generalizing stack' with
  | round stack a b ih =>
    rw [subsumedFrom_eq, subsumedFrom_eq, same, contains_comm, equal_comm,
      Bool.or_right_comm (stack.contains a b), places?_swap]
    cases known : stack.contains a b with
    | true => simp
    | false =>
      cases found : s.places? a b with
      | none => rfl
      | some places =>
        obtain ⟨l, r⟩ := places
        by_cases length : l.length = r.length
        · have swapped : ∀ x y, s.subsumedFrom (stack'.push b a) y x =
              s.subsumedFrom (stack.push a b) x y := by
            intro x y
            refine ih l r known found length x y _ fun u v => ?_
            simp only [PairStack.contains, PairStack.push, List.any_cons] at same ⊢
            rw [same, Bool.or_comm (decide (b = u) && decide (a = v))]
            simp only [Bool.and_comm]
          simp [length, all_zip_swap swapped]
        · simp [length, Ne.symm length]

theorem subsumed_comm (s : TypeStore) : s.subsumed b a = s.subsumed a b :=
  s.subsumedFrom_swap {} {} a b fun _ _ => rfl

theorem subsumed_of_equal (h : s.equal a b = true) : s.subsumed a b = true := by
  rw [subsumed, subsumedFrom_eq, h]
  simp

/-! ### Growth -/

theorem places?_has (wf : s.WellFormed) (h : s.places? a b = some (l, r)) :
    (∀ x ∈ l, s.Has x) ∧ ∀ y ∈ r, s.Has y := by
  unfold places? at h
  split at h
  · next d e left right =>
    cases h
    exact ⟨fun x => wf.mention left, fun y => wf.mention right⟩
  · next d e left right =>
    cases h
    exact ⟨fun x member => wf.mention left (List.mem_cons_of_mem _ member),
      fun y member => wf.mention right (List.mem_cons_of_mem _ member)⟩
  · cases h

theorem Grows.places? (grows : s.Grows s') (ha : s.Has a) (hb : s.Has b) :
    s'.places? a b = s.places? a b := by
  unfold TypeStore.places?
  rcases Ty.sameShape_iff.mp (grows.shape ha) with same | ⟨f, g, old, new, _⟩ | ⟨c, c', old, new⟩
  · rcases Ty.sameShape_iff.mp (grows.shape hb) with same' | ⟨f, g, old, new, _⟩ |
      ⟨c, c', old, new⟩
    · rw [same, same']
    · rw [same, old, new]
      cases s.get a <;> rfl
    · rw [same, old, new]
      cases s.get a <;> rfl
  · rw [old, new]
  · rw [old, new]

theorem Grows.subsumedFrom (grows : s.Grows s') (wf : s.WellFormed)
    (ha : s.Has a) (hb : s.Has b) : s'.subsumedFrom stack a b = s.subsumedFrom stack a b := by
  induction stack, a, b using round_induction s with
  | round stack a b ih =>
    rw [subsumedFrom_eq, subsumedFrom_eq, grows.equal wf ha hb,
      grows.places? ha hb]
    cases known : stack.contains a b with
    | true => simp
    | false =>
      cases found : s.places? a b with
      | none => rfl
      | some places =>
        obtain ⟨l, r⟩ := places
        have has := places?_has wf found
        by_cases length : l.length = r.length
        · have same : ((l.zip r).all fun p => s'.subsumedFrom (stack.push a b) p.1 p.2) =
              (l.zip r).all fun p => s.subsumedFrom (stack.push a b) p.1 p.2 := by
            rw [Bool.eq_iff_iff, List.all_eq_true, List.all_eq_true]
            refine forall₂_congr fun p member => ?_
            have inside := List.of_mem_zip member
            rw [ih l r known found length p.1 p.2 (has.1 _ inside.1) (has.2 _ inside.2)]
          simp [length, same]
        · simp [length]

theorem Grows.subsumed (grows : s.Grows s') (wf : s.WellFormed) (ha : s.Has a) (hb : s.Has b) :
    s'.subsumed a b = s.subsumed a b :=
  grows.subsumedFrom wf ha hb

/-! ### The greatest relation -/

/-- Tuples of one arity, or lists from literals of one length, with related places. -/
def Placewise (s : TypeStore) (R : TypeId → TypeId → Prop) (a b : TypeId) : Prop :=
  match s.get a, s.get b with
  | .tuple l, .tuple r => List.Forall₂ R l.elements r.elements
  | .list l, .list r => List.Forall₂ R l.positional r.positional
  | _, _ => False

/-- One of the shapes is vague, they are equal, or their places are related. -/
def Alike (s : TypeStore) (R : TypeId → TypeId → Prop) (a b : TypeId) : Prop :=
  isVague a = true ∨ isVague b = true ∨ s.equal a b = true ∨ s.Placewise R a b

/-- A relation that holds only of shapes that are alike by it. -/
def IsSubsumption (s : TypeStore) (R : TypeId → TypeId → Prop) : Prop :=
  ∀ x y, R x y → s.Alike R x y

section Greatest

variable {R S : TypeId → TypeId → Prop} {stack assumed : PairStack}

theorem placewise_iff :
    s.Placewise R a b ↔ ∃ l r, s.places? a b = some (l, r) ∧ List.Forall₂ R l r := by
  unfold Placewise places?
  cases s.get a <;> cases s.get b <;> simp

/-- Related places may be related otherwise, where the places are known to be as many. -/
theorem Alike.mono (h : s.Alike R a b) (sub : ∀ l r, s.places? a b = some (l, r) →
    l.length = r.length → ∀ x y, R x y → S x y) : s.Alike S a b := by
  refine h.imp_right (Or.imp_right (Or.imp_right fun places => ?_))
  obtain ⟨l, r, found, related⟩ := placewise_iff.mp places
  exact placewise_iff.mpr ⟨l, r, found, related.imp (sub l r found related.length_eq)⟩

theorem subsumedFrom_iff : s.subsumedFrom stack a b = true ↔ stack.contains a b = true ∨
    s.Alike (fun x y => s.subsumedFrom (stack.push a b) x y = true) a b := by
  rw [subsumedFrom_eq, Alike, placewise_iff]
  simp only [Bool.or_eq_true, or_assoc, Option.any_eq_true, Prod.exists, Bool.and_eq_true,
    decide_eq_true_eq, List.all_eq_true, forall₂_iff_zip]

/-- Assumptions that hold are not needed. Below a pair that is compared there is one more assumption
on either side, and the others still hold. -/
theorem subsumedFrom_of_assumed (s : TypeStore) (stack : PairStack) (a b : TypeId)
    (holds : ∀ x y, assumed.contains x y = true → s.subsumedFrom stack x y = true)
    (h : s.subsumedFrom assumed a b = true) : s.subsumedFrom stack a b = true := by
  induction stack, a, b using round_induction s generalizing assumed with
  | round stack a b ih =>
    rcases subsumedFrom_iff.mp h with known | alike
    · exact holds a b known
    rw [subsumedFrom_iff]
    refine or_iff_not_imp_left.mpr fun unknown => alike.mono fun l r found same x y => ?_
    have below := ih l r (by simpa using unknown) found same
    have kept : ∀ u v, stack.contains u v = true → s.subsumedFrom (stack.push a b) u v = true :=
      fun u v known => subsumedFrom_iff.mpr (.inl (contains_push.mpr (.inl known)))
    refine below x y fun u v known => ?_
    rcases contains_push.mp known with known | same
    · exact below u v kept (holds u v known)
    · exact subsumedFrom_iff.mpr (.inl (contains_push.mpr (.inr same)))

theorem subsumed_isSubsumption : s.IsSubsumption fun a b => s.subsumed a b = true := by
  intro a b subsumed
  have alike := (subsumedFrom_iff.mp subsumed).resolve_left (by simp [PairStack.contains])
  refine alike.mono fun _ _ _ _ x y => s.subsumedFrom_of_assumed {} x y fun u v known => ?_
  -- The one assumption is the pair itself.
  rcases contains_push.mp known with none | ⟨rfl, rfl⟩ | ⟨rfl, rfl⟩
  · simp [PairStack.contains] at none
  · exact subsumed
  · exact s.subsumed_comm.trans subsumed

theorem IsSubsumption.subsumedFrom (relation : s.IsSubsumption R) (related : R a b) :
    s.subsumedFrom stack a b = true := by
  induction stack, a, b using round_induction s with
  | round stack a b ih =>
    rw [subsumedFrom_iff]
    refine or_iff_not_imp_left.mpr fun unknown =>
      (relation a b related).mono fun l r found same x y => ?_
    exact ih l r (by simpa using unknown) found same x y

/-- The comparison, which ends on every store, relates the shapes that some relation of this kind
relates, and is itself of this kind. So every shape covers itself, and of two shapes each covers the
other or none does. -/
theorem subsumption_is_greatest (s : TypeStore) :
    (s.IsSubsumption fun a b => s.subsumed a b = true) ∧
      (∀ a b, s.subsumed a b = true ↔ ∃ R, s.IsSubsumption R ∧ R a b) ∧
      (∀ a, s.subsumed a a = true) ∧ ∀ a b, s.subsumed a b = s.subsumed b a :=
  ⟨subsumed_isSubsumption,
    fun _ _ => ⟨fun subsumed => ⟨_, subsumed_isSubsumption, subsumed⟩,
      fun ⟨_, relation, related⟩ => relation.subsumedFrom related⟩,
    fun a => subsumed_of_equal (equal_refl a), fun _ _ => s.subsumed_comm⟩

end Greatest

end FlowTypes.TypeStore
