import FlowTypes.Proofs.Join
import FlowTypes.Proofs.SignatureTable

/-! Shapes without a vague part. Such a shape is covered by another one only if the two are equal, as
long as the lists in them hold what their literals held: lists are covered by the places of the
literals they were made from, and equal by what they may hold. A list that was made otherwise, or that
has got other elements since, is covered by lists that hold something else. -/
namespace FlowTypes.TypeStore

variable {s : TypeStore} {a b u v x y : TypeId} {l r : List TypeId} {table : List Arrow}

/-- The types that stand inside of a list, a dict, a tuple or a union. -/
def inside (s : TypeStore) (id : TypeId) : List TypeId :=
  match s.get id with
  | .list d => d.element :: d.positional
  | .dict d => [d.key, d.value]
  | .tuple d => d.elements
  | .union types => types
  | _ => []

/-- Neither the unknown type nor the type of no value stands anywhere inside. -/
def Precise (s : TypeStore) (a : TypeId) : Prop :=
  ∀ x, Relation.ReflTransGen (fun x y => y ∈ s.inside x) a x → isVague x = false

/-- The places of a tuple, and of a list the types of the literal it was made from. -/
def placesOf (s : TypeStore) (id : TypeId) : List TypeId :=
  match s.get id with
  | .tuple d => d.elements
  | .list d => d.positional
  | _ => []

/-- A type is the union of a list of types: it has their alternatives, told apart. -/
structure UnionOf (s : TypeStore) (u : TypeId) (l : List TypeId) : Prop extends s.ToldApart u where
  same : s.Same (s.alternatives u) (l.flatMap s.alternatives)

/-- Each list among the places, and the places of those, holds what the literal it was made from
holds, and has not got anything else since. -/
inductive Literal (s : TypeStore) : TypeId → Prop
  | intro {a : TypeId} (places : ∀ x ∈ s.placesOf a, Literal s x)
      (element : ∀ d, s.get a = .list d → s.UnionOf d.element d.positional) : Literal s a

theorem Precise.inside (precise : s.Precise a) (member : x ∈ s.inside a) : s.Precise x :=
  fun y path => precise y (.head member path)

theorem mem_inside (member : x ∈ s.placesOf a) : x ∈ s.inside a := by
  unfold placesOf at member
  split at member
  · next found => simpa [TypeStore.inside, found] using member
  · next found => simp [TypeStore.inside, found, member]
  · cases member

theorem Precise.vague (precise : s.Precise a) : isVague a = false := precise a .refl

theorem places?_eq_some (places : s.places? a b = some (l, r)) :
    (∃ d e, s.get a = .tuple d ∧ s.get b = .tuple e ∧ l = d.elements ∧ r = e.elements) ∨
      ∃ d e, s.get a = .list d ∧ s.get b = .list e ∧ l = d.positional ∧ r = e.positional := by
  unfold places? at places
  split at places
  · next left right =>
    cases places
    exact .inl ⟨_, _, left, right, rfl, rfl⟩
  · next left right =>
    cases places
    exact .inr ⟨_, _, left, right, rfl, rfl⟩
  · cases places

theorem equal_list (left : s.get a = .list d) (right : s.get b = .list e) :
    s.equal a b = true ↔ s.equal d.element e.element = true := by
  rw [equal_iff_compare]
  constructor
  · rintro (rfl | holds)
    · cases left.symm.trans right
      exact equal_refl _
    · rw [compare, left, right] at holds
      exact holds _ List.mem_cons_self
  · intro same
    refine .inr ?_
    rw [compare, left, right]
    simpa [Comparison.Holds] using same

section

variable (finite : s.FiniteOrigins) (carries : s.CarriesDefinitions)

include finite carries

theorem UnionOf.equal (left : s.UnionOf u l) (right : s.UnionOf v r)
    (places : List.Forall₂ (fun x y => s.equal x y = true) l r) : s.equal u v = true := by
  have trans {x y z : TypeId} := @equal_trans s x y z finite carries
  have same : s.Same (l.flatMap s.alternatives) (r.flatMap s.alternatives) := by
    clear left right
    induction places with
    | nil => exact same_of_mem_iff fun _ => .rfl
    | cons equal _ ih => exact (same_of_equal finite equal).append ih
  exact left.equal_of_same trans right.toToldApart
    ((left.same.trans trans same).trans trans right.same.symm)

theorem Literal.equal_of_subsumed (left : s.Literal a) (right : s.Literal b)
    (precise : s.Precise a) (precise' : s.Precise b) (covers : s.subsumed a b = true) :
    s.equal a b = true := by
  induction left generalizing b with
  | @intro a inner element ih =>
    obtain ⟨inner', element'⟩ := right
    rcases subsumed_isSubsumption a b covers with vague | vague | equal | places
    · simp [precise.vague] at vague
    · simp [precise'.vague] at vague
    · exact equal
    obtain ⟨l, r, places, related⟩ := placewise_iff.mp places
    have equal (left : s.placesOf a = l) (right : s.placesOf b = r) :
        ∀ p ∈ l.zip r, s.equal p.1 p.2 = true := by
      subst left right
      intro p pair
      obtain ⟨member, member'⟩ := List.of_mem_zip pair
      exact ih p.1 member (inner' p.2 member') (precise.inside (mem_inside member))
        (precise'.inside (mem_inside member')) ((forall₂_iff_zip.mp related).2 p pair)
    rcases places?_eq_some places with ⟨d, e, isLeft, isRight, rfl, rfl⟩ |
      ⟨d, e, isLeft, isRight, rfl, rfl⟩
    · refine equal_iff_compare.mpr (.inr ?_)
      simp only [compare, isLeft, isRight, related.length_eq, Comparison.Holds]
      exact equal (by simp [placesOf, isLeft]) (by simp [placesOf, isRight])
    · refine (equal_list isLeft isRight).mpr ?_
      refine (element d isLeft).equal finite carries (element' e isRight) ?_
      exact forall₂_iff_zip.mpr ⟨related.length_eq,
        equal (by simp [placesOf, isLeft]) (by simp [placesOf, isRight])⟩

theorem compress_keeps (precise : ∀ x ∈ table, s.Precise x.arguments)
    (literal : ∀ x ∈ table, s.Literal x.arguments) :
    ∀ x ∈ table, ∃ y ∈ s.compress table, s.equal y.arguments x.arguments = true := by
  induction table using List.reverseRecOn with
  | nil => simp
  | append_singleton table new ih =>
    have older := ih (fun x member => precise x (by simp [member]))
      fun x member => literal x (by simp [member])
    rw [compress_append]
    intro x member
    rcases List.mem_append.mp member with old | last
    · obtain ⟨y, kept, equal⟩ := older x old
      exact ⟨y, List.mem_append_left _ kept, equal⟩
    · cases List.mem_singleton.mp last
      split
      · next covered =>
        obtain ⟨old, among, covers⟩ := List.any_eq_true.mp covered
        have equal := (literal new (by simp)).equal_of_subsumed finite carries
          (literal old (by simp [among])) (precise new (by simp)) (precise old (by simp [among]))
          (Bool.and_eq_true_iff.mp covers).2
        obtain ⟨y, kept, equal'⟩ := older old among
        exact ⟨y, List.mem_append_left _ kept, equal_trans finite carries equal' (equal_symm equal)⟩
      · exact ⟨new, by simp, equal_refl _⟩

end

theorem Proper.unionOf (proper : s.Proper) (some : l ≠ []) (inside : ∀ x ∈ l, s.Has x) :
    (s.unionAll l).2.UnionOf (s.unionAll l).1 l := by
  have united := proper.unites_all some inside
  have same : l.flatMap (s.unionAll l).2.alternatives = l.flatMap s.alternatives :=
    List.flatMap_congr fun x member => united.grows.alternatives (inside x member)
  exact ⟨united.proper.toldApart _, same ▸ united.amounts.same⟩

/-- A precise literal is covered by another one exactly if the two are equal, so a table of precise
literals keeps, when it is compressed, a shape equal to every one it had. What a list is made to hold,
where its literal is not empty, is the union of the places. -/
theorem precise_shapes (finite : s.FiniteOrigins) (carries : s.CarriesDefinitions) :
    (∀ a b, s.Precise a → s.Precise b → s.Literal a → s.Literal b →
      (s.subsumed a b = true ↔ s.equal a b = true)) ∧
    (∀ table : List Arrow, (∀ x ∈ table, s.Precise x.arguments) →
      (∀ x ∈ table, s.Literal x.arguments) →
      ∀ x ∈ table, ∃ y ∈ s.compress table, s.equal y.arguments x.arguments = true) ∧
    (s.Proper → ∀ l, l ≠ [] → (∀ x ∈ l, s.Has x) →
      (s.unionAll l).2.UnionOf (s.unionAll l).1 l) :=
  ⟨fun _ _ precise precise' left right =>
      ⟨left.equal_of_subsumed finite carries right precise precise', subsumed_of_equal⟩,
    fun _ => compress_keeps finite carries, fun proper _ => proper.unionOf⟩

/-- Argument tuples of a list of numbers and a list of texts, of which only the elements are known, and
of literals with a number, with a text and with both. -/
def listShapes : TypeStore :=
  ⟨initial.types ++ #[.list ⟨.int, [], [], ⟨0⟩⟩, .list ⟨.str, [], [], ⟨0⟩⟩, .list ⟨.int, [.int], [], ⟨0⟩⟩,
    .tuple ⟨[⟨10⟩], ⟨0⟩⟩, .tuple ⟨[⟨11⟩], ⟨0⟩⟩, .tuple ⟨[⟨12⟩], ⟨0⟩⟩, .list ⟨.str, [.str], [], ⟨0⟩⟩,
    .union [.int, .str], .list ⟨⟨17⟩, [.int, .str], [], ⟨0⟩⟩, .tuple ⟨[⟨16⟩], ⟨0⟩⟩,
    .tuple ⟨[⟨18⟩, ⟨12⟩], ⟨0⟩⟩]⟩

theorem precise_of_closed (ids : List TypeId)
    (closed : ∀ x ∈ ids, isVague x = false ∧ ∀ y ∈ s.inside x, y ∈ ids) : ∀ a ∈ ids, s.Precise a := by
  intro a member x path
  have reached : x ∈ ids := by
    induction path with
    | refl => exact member
    | tail _ step ih => exact (closed _ ih).2 _ step
  exact (closed x reached).1

theorem literal_of_older (ids : List TypeId)
    (older : ∀ x ∈ ids, ∀ y ∈ s.placesOf x, y ∈ ids ∧ y.index < x.index)
    (element : ∀ x ∈ ids, ∀ d, s.get x = .list d → s.UnionOf d.element d.positional) :
    ∀ a ∈ ids, s.Literal a := by
  intro a member
  induction bound : a.index using Nat.strong_induction_on generalizing a with
  | _ n ih =>
    subst bound
    refine .intro (fun x place => ?_) (element a member)
    obtain ⟨member, less⟩ := older a member x place
    exact ih x.index less x member rfl

theorem listShapes_precise : ∀ a ∈ [⟨13⟩, ⟨14⟩, ⟨15⟩, ⟨19⟩, ⟨20⟩], listShapes.Precise a := by
  intro a member
  refine precise_of_closed [⟨10⟩, ⟨11⟩, ⟨12⟩, ⟨16⟩, ⟨17⟩, ⟨18⟩, .int, .str, ⟨13⟩, ⟨14⟩, ⟨15⟩, ⟨19⟩, ⟨20⟩]
    (by decide) a ?_
  exact List.mem_of_mem_drop (i := 8) member

theorem listShapes_literal : ∀ a ∈ [⟨15⟩, ⟨19⟩, ⟨20⟩], listShapes.Literal a := by
  intro a member
  refine literal_of_older [.int, .str, ⟨12⟩, ⟨16⟩, ⟨18⟩, ⟨15⟩, ⟨19⟩, ⟨20⟩] (by decide) ?_ a
    (List.mem_of_mem_drop (i := 5) member)
  have number : listShapes.UnionOf .int [.int] :=
    ⟨⟨by decide, by decide⟩, same_of_mem_iff fun _ => .rfl⟩
  have text : listShapes.UnionOf .str [.str] :=
    ⟨⟨by decide, by decide⟩, same_of_mem_iff fun _ => .rfl⟩
  have both : listShapes.UnionOf ⟨17⟩ [.int, .str] :=
    ⟨⟨by decide, by decide +kernel⟩, same_of_mem_iff fun _ => .rfl⟩
  intro x known d found
  simp only [List.mem_cons, List.not_mem_nil, or_false] at known
  rcases known with rfl | rfl | rfl | rfl | rfl | rfl | rfl | rfl <;> cases found
  · exact number
  · exact text
  · exact both

theorem listShapes_origins : listShapes.FiniteOrigins ∧ listShapes.CarriesDefinitions := by
  have none : ∀ a, listShapes.function? a = none := by
    intro a
    by_cases inRange : a.index < listShapes.size
    · have checked : ∀ i < listShapes.size, (listShapes.function? ⟨i⟩).isNone := by decide
      exact Option.isNone_iff_eq_none.mp (checked a.index inRange)
    · simp [function?, get_of_le (Nat.not_lt.mp inRange)]
  refine ⟨fun a => ⟨0, a, .own fun o found => ?_⟩, fun a f o found => ?_⟩
  · simp [origin?, none] at found
  · simp [none] at found

/-- A table with the literals. -/
def literalTable : List Arrow := [⟨⟨15⟩, .int⟩, ⟨⟨19⟩, .str⟩, ⟨⟨20⟩, .int⟩]

open Heap in
theorem literals_kept :
    ((listShapes.subsumed ⟨15⟩ ⟨19⟩ = true ↔ listShapes.equal ⟨15⟩ ⟨19⟩ = true) ∧
      listShapes.equal ⟨15⟩ ⟨19⟩ = false) ∧
    (∀ x ∈ literalTable, ∃ y ∈ listShapes.compress literalTable,
      listShapes.equal y.arguments x.arguments = true) ∧
    (listsAndMethod.types.unionAll [⟨16⟩, .int]).2.UnionOf
      (listsAndMethod.types.unionAll [⟨16⟩, .int]).1 [⟨16⟩, .int] := by
  obtain ⟨finite, carries⟩ := listShapes_origins
  obtain ⟨equal, kept, -⟩ := precise_shapes finite carries
  have proper : listsAndMethod.types.Proper :=
    listsAndMethod_reachable.wellFormed.proper (by decide +kernel)
  have precise : ∀ x ∈ literalTable, listShapes.Precise x.arguments := fun x member =>
    listShapes_precise x.arguments (by revert x; decide)
  have literal : ∀ x ∈ literalTable, listShapes.Literal x.arguments := fun x member =>
    listShapes_literal x.arguments (by revert x; decide)
  exact ⟨⟨equal _ _ (precise ⟨⟨15⟩, .int⟩ (by decide)) (precise ⟨⟨19⟩, .str⟩ (by decide))
    (literal ⟨⟨15⟩, .int⟩ (by decide)) (literal ⟨⟨19⟩, .str⟩ (by decide)), by decide +kernel⟩,
    kept literalTable precise literal,
    (precise_shapes proper.finite proper.carries).2.2 proper [⟨16⟩, .int] (by simp)
      (by decide +kernel)⟩

/-- The list of texts is covered by the list of numbers, and so it is lost from a table. -/
theorem listShapes_covered : listShapes.Precise ⟨13⟩ ∧ listShapes.Precise ⟨14⟩ ∧
    listShapes.subsumed ⟨14⟩ ⟨13⟩ = true ∧ listShapes.equal ⟨14⟩ ⟨13⟩ = false ∧
    listShapes.compress [⟨⟨13⟩, .int⟩, ⟨⟨14⟩, .str⟩] = [⟨⟨13⟩, .int⟩] :=
  ⟨listShapes_precise _ (by decide), listShapes_precise _ (by decide), by decide +kernel,
    by decide +kernel, by decide +kernel⟩

end FlowTypes.TypeStore
