import FlowTypes.Types.Store

/-! When two types are the same. Types are compared by their parts; a pair that is met again while it
is being compared counts as equal, so that types that contain themselves can be compared. -/
namespace FlowTypes

/-- The pairs under comparison, innermost first. -/
structure PairStack where
  pairs : List (TypeId × TypeId) := []

namespace PairStack

def push (s : PairStack) (a b : TypeId) : PairStack := ⟨(a, b) :: s.pairs⟩

def pop? (s : PairStack) : Option ((TypeId × TypeId) × PairStack) :=
  match s.pairs with
  | [] => none
  | p :: ps => some (p, ⟨ps⟩)

/-- Whether the pair is under comparison, in either order. -/
def contains (s : PairStack) (a b : TypeId) : Bool :=
  s.pairs.any fun (x, y) => (x = a && y = b) || (x = b && y = a)

def depth (s : PairStack) : Nat := s.pairs.length

def isEmpty (s : PairStack) : Bool := s.pairs.isEmpty

end PairStack

/-- What the comparison of two types comes down to. -/
inductive Comparison
  | settled (answer : Bool)
  /-- Parts that stand in the same places. -/
  | parts (pairs : List (TypeId × TypeId))
  /-- Alternatives, each of which needs an equal one on the other side. -/
  | alternatives (left right : List TypeId)

namespace TypeStore

/-- Two functions are the same if they lead to one function or come from one definition. -/
def sameFunction (s : TypeStore) (a b : TypeId) (f g : FunctionType) : Bool :=
  s.originOf a = s.originOf b ||
    match f.definition, g.definition with
    | some d, some e => d.node.id = e.node.id
    | _, _ => false

/-- What has to be known to tell whether two types of different identity are the same. -/
def compare (s : TypeStore) (a b : TypeId) : Comparison :=
  match s.get a, s.get b with
  | .unknown, .unknown | .none, .none | .cont, .cont | .bool _, .bool _ | .int, .int
  | .float, .float | .complex, .complex | .str, .str => .settled true
  | .list l, .list r => .parts [(l.element, r.element)]
  | .dict l, .dict r => .parts [(l.key, r.key), (l.value, r.value)]
  | .tuple l, .tuple r =>
    if l.elements.length = r.elements.length then .parts (l.elements.zip r.elements)
    else .settled false
  | .union l, .union r => .alternatives l r
  | .instanceOf l, .instanceOf r => .settled (l.classId = r.classId)
  | .module l, .module r => .settled (l.file = r.file)
  | .function l, .function r => .settled (s.sameFunction a b l r)
  | _, _ => .settled false

/-! ### The comparison ends

Every nested comparison has one more pair of the store under comparison. -/

def pairs (s : TypeStore) : List (TypeId × TypeId) :=
  (List.range s.size).flatMap fun i => (List.range s.size).map fun j => (⟨i⟩, ⟨j⟩)

/-- The pairs of the store that are under comparison, each once. -/
def visited (s : TypeStore) : List (TypeId × TypeId) → List (TypeId × TypeId)
  | [] => []
  | p :: ps =>
    if p.1.index < s.size ∧ p.2.index < s.size ∧ p ∉ visited s ps then p :: visited s ps
    else visited s ps

/-- How many pairs of the store are not under comparison. -/
def unvisited (s : TypeStore) (stack : PairStack) : Nat :=
  s.size * s.size - (s.visited stack.pairs).length

theorem mem_pairs {s : TypeStore} {a b : TypeId} (ha : a.index < s.size) (hb : b.index < s.size) :
    (a, b) ∈ s.pairs := by
  simp only [pairs, List.mem_flatMap, List.mem_map, List.mem_range]
  exact ⟨a.index, ha, b.index, hb, rfl⟩

/-- A place outside of the store reads as the unknown type. -/
theorem get_of_le {s : TypeStore} {a : TypeId} (h : s.size ≤ a.index) : s.get a = .unknown := by
  simp only [get, Array.getElem?_eq_none h, Option.getD_none]

/-- Only types of the store have parts. -/
theorem compare_inRange {s : TypeStore} {a b : TypeId} (h : ∀ v, s.compare a b ≠ .settled v) :
    a.index < s.size ∧ b.index < s.size := by
  constructor
  · apply Nat.lt_of_not_le
    intro outside
    cases hb : s.get b <;> simp [compare, get_of_le outside, hb] at h
  · apply Nat.lt_of_not_le
    intro outside
    cases ha : s.get a <;> simp [compare, get_of_le outside, ha] at h

theorem visited_spec (s : TypeStore) (ps : List (TypeId × TypeId)) :
    (s.visited ps).Nodup ∧ s.visited ps ⊆ s.pairs ∧ s.visited ps ⊆ ps := by
  induction ps with
  | nil => simp [visited]
  | cons p ps ih =>
    obtain ⟨nodup, inStore, known⟩ := ih
    unfold visited
    split
    · next new =>
      refine ⟨List.nodup_cons.mpr ⟨new.2.2, nodup⟩, ?_, List.cons_subset_cons p known⟩
      exact List.cons_subset.mpr ⟨mem_pairs new.1 new.2.1, inStore⟩
    · exact ⟨nodup, inStore, fun x member => List.mem_cons_of_mem p (known member)⟩

theorem length_pairs (s : TypeStore) : s.pairs.length = s.size * s.size := by
  simp [pairs, List.length_flatMap, List.map_const']

theorem unvisited_push_lt {s : TypeStore} {stack : PairStack} {a b : TypeId}
    (h : ∀ v, s.compare a b ≠ .settled v) (fresh : ¬stack.contains a b) :
    s.unvisited (stack.push a b) < s.unvisited stack := by
  obtain ⟨ha, hb⟩ := compare_inRange h
  obtain ⟨-, -, known⟩ := s.visited_spec stack.pairs
  have new : (a, b) ∉ s.visited stack.pairs := by
    intro member
    refine fresh (List.any_eq_true.mpr ⟨(a, b), known member, ?_⟩)
    simp
  have pushed : s.visited (stack.push a b).pairs = (a, b) :: s.visited stack.pairs :=
    if_pos ⟨ha, hb, new⟩
  obtain ⟨nodup, inStore, -⟩ := s.visited_spec (stack.push a b).pairs
  have few := nodup.length_le_of_subset inStore
  rw [length_pairs, pushed, List.length_cons] at few
  simp only [unvisited, pushed, List.length_cons]
  omega

/-- Whether two types are the same if the pairs of the stack are. -/
def equalFrom (s : TypeStore) (stack : PairStack) (a b : TypeId) : Bool :=
  if a = b then true
  else
    match _h : s.compare a b with
    | .settled answer => answer
    | .parts pairs =>
      if _fresh : stack.contains a b then true
      else pairs.all fun (x, y) => equalFrom s (stack.push a b) x y
    | .alternatives l r =>
      if _fresh : stack.contains a b then true
      else
        (l.all fun x => r.any fun y => equalFrom s (stack.push a b) x y) &&
          (r.all fun x => l.any fun y => equalFrom s (stack.push a b) x y)
termination_by s.unvisited stack
decreasing_by all_goals exact unvisited_push_lt (fun _ hv => by rw [_h] at hv; cases hv) _fresh

def equal (s : TypeStore) (a b : TypeId) : Bool := s.equalFrom {} a b

/-- Whether a type is another one or one of its alternatives. -/
def contains (s : TypeStore) (id t : TypeId) : Bool := (s.alternatives id).any (s.equal · t)

end TypeStore
end FlowTypes
