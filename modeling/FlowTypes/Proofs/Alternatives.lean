import FlowTypes.Proofs.Bisimulation
import FlowTypes.Types.Union

/-! Alternatives of a type, the types of a list without their repetitions, and the ways in which a
union comes out. -/
namespace FlowTypes.TypeStore

variable {s : TypeStore} {a b x : TypeId} {ids : List TypeId}

theorem isUnion_eq_true : s.isUnion a = true ↔ ∃ types, s.get a = .union types := by
  unfold isUnion
  split <;> simp_all

theorem alternatives_of_union {types : List TypeId} (h : s.get a = .union types) :
    s.alternatives a = types := by
  simp [alternatives, h]

theorem alternatives_of_not_union (h : s.isUnion a = false) : s.alternatives a = [a] := by
  unfold alternatives
  split
  · simp_all [isUnion]
  · rfl

/-- Whether a type equals one of several. -/
def covered (s : TypeStore) (ids : List TypeId) (x : TypeId) : Bool := ids.any (s.equal · x)

theorem covered_iff : s.covered ids x = true ↔ ∃ y ∈ ids, s.equal y x = true := List.any_eq_true

theorem covered_of_mem (h : x ∈ ids) : s.covered ids x = true :=
  covered_iff.mpr ⟨x, h, equal_refl x⟩

theorem contains_eq_covered : s.contains a x = s.covered (s.alternatives a) x := rfl

/-! ### Types without their repetitions -/

def distinctFrom (s : TypeStore) (kept ids : List TypeId) : List TypeId :=
  ids.foldl (fun kept id => if s.covered kept id then kept else kept ++ [id]) kept

/-- The types that are kept next to others are those that the others do not cover. -/
theorem distinctFrom_eq (s : TypeStore) (kept ids : List TypeId) :
    s.distinctFrom kept ids = kept ++ s.distinct (ids.filter fun x => !s.covered kept x) := by
  induction hn : ids.length using Nat.strong_induction_on generalizing kept ids with
  | _ n ih =>
    cases ids with
    | nil => simp [distinctFrom, distinct]
    | cons y ys =>
      subst hn
      have shorter : ys.length < (y :: ys).length := by simp
      have unfolded : s.distinctFrom kept (y :: ys) =
          s.distinctFrom (if s.covered kept y then kept else kept ++ [y]) ys := rfl
      by_cases known : s.covered kept y = true
      · rw [unfolded, if_pos known, ih _ shorter _ _ rfl, List.filter_cons]
        simp [known]
      · have filtered : (ys.filter fun x => !s.covered kept x).length < (y :: ys).length :=
          Nat.lt_of_le_of_lt (List.length_filter_le _ _) shorter
        have rest : s.distinct (y :: ys.filter fun x => !s.covered kept x) =
            [y] ++ s.distinct ((ys.filter fun x => !s.covered kept x).filter fun x =>
              !s.covered [y] x) := ih _ filtered [y] _ rfl
        rw [unfolded, if_neg known, ih _ shorter _ _ rfl, List.filter_cons]
        simp only [known, Bool.not_false, if_true, rest, List.append_assoc, List.filter_filter]
        congr 3
        apply List.filter_congr
        intro x _
        simp [covered, Bool.and_comm]

theorem distinct_append : s.distinct (old ++ new) =
      s.distinct old ++ s.distinct (new.filter fun x => !s.covered (s.distinct old) x) := by
  rw [← distinctFrom_eq]
  exact List.foldl_append

theorem distinct_cons :
    s.distinct (y :: ids) = y :: s.distinct (ids.filter fun x => !s.covered [y] x) :=
  s.distinctFrom_eq [y] ids

/-- Induction along the types that are kept: each takes its repetitions out of the rest. -/
@[elab_as_elim] theorem distinct_induction (s : TypeStore) {motive : List TypeId → Prop}
    (nil : motive [])
    (cons : ∀ y ys, motive (ys.filter fun x => !s.covered [y] x) → motive (y :: ys))
    (ids : List TypeId) : motive ids := by
  induction hn : ids.length using Nat.strong_induction_on generalizing ids with
  | _ n ih =>
    cases ids with
    | nil => exact nil
    | cons y ys =>
      subst hn
      exact cons y ys (ih _ (Nat.lt_succ_of_le (List.length_filter_le _ _)) _ rfl)

theorem covered_distinct (h : x ∈ ids) : s.covered (s.distinct ids) x = true := by
  induction ids using distinct_induction s with
  | nil => cases h
  | cons y ys ih =>
    rw [distinct_cons, covered, List.any_cons, Bool.or_eq_true]
    by_cases same : s.equal y x = true
    · exact .inl same
    · have later : x ∈ ys := (List.mem_cons.mp h).resolve_left fun h => by simp [h] at same
      exact .inr (ih (List.mem_filter.mpr ⟨later, by simpa [covered] using same⟩))

theorem mem_of_mem_distinct (h : x ∈ s.distinct ids) : x ∈ ids := by
  induction ids using distinct_induction s with
  | nil => exact h
  | cons y ys ih =>
    rw [distinct_cons] at h
    rcases List.mem_cons.mp h with rfl | later
    · exact List.mem_cons_self
    · exact List.mem_cons_of_mem y (List.mem_filter.mp (ih later)).1

theorem pairwise_distinct (s : TypeStore) :
    (s.distinct ids).Pairwise fun x y => s.equal x y = false := by
  induction ids using distinct_induction s with
  | nil => exact .nil
  | cons y ys ih =>
    rw [distinct_cons]
    refine .cons (fun z member => ?_) ih
    have unequal := (List.mem_filter.mp (mem_of_mem_distinct member)).2
    simpa [covered] using unequal

theorem length_distinct_le (s : TypeStore) (ids : List TypeId) :
    (s.distinct ids).length ≤ ids.length := by
  induction ids using distinct_induction s with
  | nil => exact Nat.zero_le _
  | cons y ys ih =>
    rw [distinct_cons, List.length_cons, List.length_cons]
    exact Nat.succ_le_succ (Nat.le_trans ih (List.length_filter_le _ _))

theorem distinct_eq_nil : s.distinct ids = [] ↔ ids = [] := by
  cases ids with
  | nil => simp [distinct]
  | cons y ys => simp [distinct_cons]

/-! ### Unions -/

/-- The ways in which a union comes out. -/
inductive Joins (s : TypeStore) (a b : TypeId) : TypeId × TypeStore → Prop
  | same (equal : s.equal a b = true) : Joins s a b (a, s)
  | single {t : TypeId} (different : s.equal a b = false)
      (types : s.distinct (s.alternatives a ++ s.alternatives b) = [t]) : Joins s a b (t, s)
  | first (different : s.equal a b = false) (union : s.isUnion a = true)
      (count : (s.distinct (s.alternatives a ++ s.alternatives b)).length =
        (s.alternatives a).length) : Joins s a b (a, s)
  | second (different : s.equal a b = false)
      (grown : ¬(s.isUnion a = true ∧
        (s.distinct (s.alternatives a ++ s.alternatives b)).length = (s.alternatives a).length))
      (union : s.isUnion b = true)
      (count : (s.distinct (s.alternatives a ++ s.alternatives b)).length =
        (s.alternatives b).length) : Joins s a b (b, s)
  | fresh (different : s.equal a b = false)
      (grown : ¬(s.isUnion a = true ∧
        (s.distinct (s.alternatives a ++ s.alternatives b)).length = (s.alternatives a).length))
      (grown' : ¬(s.isUnion b = true ∧
        (s.distinct (s.alternatives a ++ s.alternatives b)).length = (s.alternatives b).length))
      (several : ∀ t, s.distinct (s.alternatives a ++ s.alternatives b) ≠ [t]) :
      Joins s a b (s.alloc (.union (s.distinct (s.alternatives a ++ s.alternatives b))))

theorem union_joins (s : TypeStore) (a b : TypeId) : s.Joins a b (s.union a b) := by
  unfold union
  split
  · exact .same ‹_›
  · have different : s.equal a b = false := Bool.eq_false_iff.mpr ‹_›
    dsimp only
    split
    · exact .single different ‹_›
    · next several =>
      split
      · next h =>
        simp only [Bool.and_eq_true, decide_eq_true_eq] at h
        exact .first different h.1 h.2
      · next h =>
        simp only [Bool.and_eq_true, decide_eq_true_eq] at h
        split
        · next h' =>
          simp only [Bool.and_eq_true, decide_eq_true_eq] at h'
          exact .second different h h'.1 h'.2
        · next h' =>
          simp only [Bool.and_eq_true, decide_eq_true_eq] at h'
          exact .fresh different h h' several

/-- The alternatives of a type that are not equal to another type. -/
def without (s : TypeStore) (a t : TypeId) : List TypeId :=
  (s.alternatives a).filter fun x => !s.equal x t

theorem mem_without : x ∈ s.without a t ↔ x ∈ s.alternatives a ∧ s.equal x t = false := by
  simp [without, List.mem_filter]

theorem two_le_length {types : List TypeId} (empty : types ≠ []) (one : ∀ t, types ≠ [t]) :
    2 ≤ types.length := by
  rcases types with _ | ⟨t, _ | ⟨u, types⟩⟩
  · exact absurd rfl empty
  · exact absurd rfl (one t)
  · simp

/-- The ways in which an alternative is taken out of a type. -/
inductive Removes (s : TypeStore) (a t : TypeId) : Option TypeId × TypeStore → Prop
  | nothing (empty : s.without a t = []) : Removes s a t (none, s)
  | single {x : TypeId} (one : s.without a t = [x]) : Removes s a t (some x, s)
  | whole (all : s.without a t = s.alternatives a) : Removes s a t (some a, s)
  | fresh (several : 2 ≤ (s.without a t).length) : Removes s a t (some (s.alloc (.union (s.without a t))).1,
      (s.alloc (.union (s.without a t))).2)

theorem remove_removes (s : TypeStore) (a t : TypeId) : s.Removes a t (s.remove a t) := by
  unfold remove
  split
  · dsimp only
    split
    · exact .nothing ‹_›
    · exact .single ‹_›
    · next empty one =>
      split
      · next same => exact .whole (List.filter_eq_self.mpr (List.length_filter_eq_length_iff.mp same))
      · exact .fresh (two_le_length empty one)
  · next plain =>
    have alternatives := alternatives_of_not_union ((Bool.not_eq_true _).mp plain)
    split
    · next equal => exact .nothing (by simp [without, alternatives, equal])
    · next different => exact .single (by simp [without, alternatives, different])

end FlowTypes.TypeStore
