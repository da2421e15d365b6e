import FlowTypes.Proofs.StoreInvariant

/-! Values and flows. What a program can hold is never the mark that stands for the end of a block;
the flow of a block may be a union with the mark among its alternatives. -/
namespace FlowTypes

namespace TypeStore

variable {s s' : TypeStore} {a b id x : TypeId}

/-- A type none of whose alternatives is the mark of a block's end. -/
def Value (s : TypeStore) (id : TypeId) : Prop :=
  s.Has id ∧ ∀ x ∈ s.alternatives id, s.Has x ∧ s.get x ≠ .cont

theorem Value.has (h : s.Value id) : s.Has id := h.1

theorem Value.mono (kept : Kept s s') (h : s.Value id) : s'.Value id := by
  refine ⟨kept.has h.1, fun x member => ?_⟩
  rw [kept.alternatives h.1] at member
  obtain ⟨has, other⟩ := h.2 x member
  exact ⟨kept.has has, fun mark => other ((kept.stays has).cont_iff.mp mark)⟩

theorem value_of_plain (has : s.Has id) (plain : s.isUnion id = false) (other : s.get id ≠ .cont) :
    s.Value id := by
  refine ⟨has, fun x member => ?_⟩
  rw [alternatives_of_not_union plain, List.mem_singleton] at member
  subst member
  exact ⟨has, other⟩

theorem Value.ne_cont (h : s.Value id) : s.get id ≠ .cont := by
  cases union : s.isUnion id with
  | false =>
    have alternatives := alternatives_of_not_union union
    exact (h.2 id (by simp [alternatives])).2
  | true =>
    obtain ⟨types, found⟩ := isUnion_eq_true.mp union
    simp [found]

instance : Reference Value where
  has := Value.has
  kept := Value.mono
  plain := value_of_plain
  alternative := fun h member has plain => value_of_plain has plain (h.2 _ member).2
  union := fun {s id types} has found values => by
    refine ⟨has, fun x member => ?_⟩
    rw [alternatives_of_union found] at member
    exact ⟨(values x member).has, (values x member).ne_cont⟩

/-! ### Flows -/

variable {P : TypeStore → TypeId → Prop}

theorem Sound.union_flow (sound : Sound P s) (ha : s.Has a) (hb : s.Has b) :
    Additions P s (s.union a b).2 ∧ (s.union a b).2.Has (s.union a b).1 := by
  have plain := sound.distinct ha hb
  have joins := s.union_joins a b
  generalize s.union a b = result at joins ⊢
  cases joins with
  | same => exact ⟨.refl, ha⟩
  | single different types => exact ⟨.refl, (plain _ (by simp [types])).1⟩
  | first => exact ⟨.refl, ha⟩
  | second => exact ⟨.refl, hb⟩
  | fresh => exact ⟨.single (.alloc (fits_union plain)), by simp [Has, alloc, size]⟩

theorem Sound.equal_cont_iff (sound : Sound P s) : s.equal x .cont = true ↔ s.get x = .cont := by
  rw [equal_iff_compare]
  constructor
  · rintro (rfl | holds)
    · exact sound.cont
    · unfold compare at holds
      rw [sound.cont] at holds
      cases found : s.get x <;> simp [found, Comparison.Holds] at holds ⊢
  · intro found
    refine .inr ?_
    simp [compare, found, sound.cont, Comparison.Holds]

theorem Sound.value_of_contains (sound : Sound P s) (ha : s.Has a)
    (h : s.contains a .cont = false) : s.Value a := by
  refine ⟨ha, fun x member => ⟨(sound.flat ha x member).1, fun mark => ?_⟩⟩
  have covered : s.contains a .cont = true :=
    covered_iff.mpr ⟨x, member, sound.equal_cont_iff.mpr mark⟩
  simp [h] at covered

theorem Sound.remove_cont (sound : Sound P s) (ha : s.Has a) :
    ∀ r, (s.remove a .cont).1 = some r → (s.remove a .cont).2.Value r := by
  have value : ∀ x ∈ s.without a .cont, s.Value x := by
    intro x member
    obtain ⟨member, other⟩ := mem_without.mp member
    obtain ⟨has, plain⟩ := sound.flat ha x member
    refine value_of_plain has plain fun mark => ?_
    rw [sound.equal_cont_iff.mpr mark] at other
    cases other
  have removes := s.remove_removes a .cont
  generalize s.remove a .cont = result at removes ⊢
  rintro r rest
  cases removes with
  | nothing => cases rest
  | single one =>
    cases rest
    exact value _ (by simp [one])
  | whole all =>
    cases rest
    exact ⟨ha, fun x member => ⟨(sound.flat ha x member).1, (value x (all ▸ member)).ne_cont⟩⟩
  | fresh =>
    cases rest
    have plain : ∀ x ∈ s.without a .cont, s.Has x ∧ s.isUnion x = false := fun x member =>
      sound.flat ha x (mem_without.mp member).1
    exact (yields_alloc_union plain value).refers

end TypeStore
end FlowTypes
