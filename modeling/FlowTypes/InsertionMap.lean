/-! Finite maps that remember the order in which their keys came. -/
namespace FlowTypes

structure InsertionMap (κ ν : Type) where
  entries : List (κ × ν) := []

namespace InsertionMap

variable {κ ν : Type}

instance : Inhabited (InsertionMap κ ν) := ⟨{}⟩

def keys (m : InsertionMap κ ν) : List κ := m.entries.map (·.1)

def values (m : InsertionMap κ ν) : List ν := m.entries.map (·.2)

def size (m : InsertionMap κ ν) : Nat := m.entries.length

def isEmpty (m : InsertionMap κ ν) : Bool := m.entries.isEmpty

def mapValues {μ : Type} (m : InsertionMap κ ν) (f : ν → μ) : InsertionMap κ μ :=
  ⟨m.entries.map fun (k, v) => (k, f v)⟩

variable [DecidableEq κ]

def get? (m : InsertionMap κ ν) (k : κ) : Option ν := m.entries.lookup k

def contains (m : InsertionMap κ ν) (k : κ) : Bool := (m.get? k).isSome

/-- Replaces the value of a key in its place; a new key comes last. -/
def insert (m : InsertionMap κ ν) (k : κ) (v : ν) : InsertionMap κ ν :=
  if m.contains k then ⟨m.entries.map fun e => if e.1 = k then (k, v) else e⟩
  else ⟨m.entries ++ [(k, v)]⟩

/-- Forgets a key; the others keep their order. -/
def erase (m : InsertionMap κ ν) (k : κ) : InsertionMap κ ν :=
  ⟨m.entries.filter fun e => e.1 ≠ k⟩

/-- Changes the value of a key that is there. -/
def modify (m : InsertionMap κ ν) (k : κ) (f : ν → ν) : InsertionMap κ ν :=
  ⟨m.entries.map fun e => if e.1 = k then (e.1, f e.2) else e⟩

/-! ### Looking up -/

variable {m : InsertionMap κ ν} {k k' : κ} {v x : ν}

theorem lookup_map_if (entries : List (κ × ν)) (k k' : κ) (f : ν → ν) :
    (entries.map fun e => if e.1 = k then (e.1, f e.2) else e).lookup k' =
      if k' = k then (entries.lookup k').map f else entries.lookup k' := by
  induction entries with
  | nil => simp
  | cons e entries ih =>
    obtain ⟨key, value⟩ := e
    by_cases first : key = k
    · subst first
      by_cases same : k' = key
      · simp [same]
      · simp [List.lookup_cons, beq_false_of_ne same, ih, same]
    · by_cases same : k' = key
      · subst same
        simp [first]
      · simp [List.lookup_cons, beq_false_of_ne same, ih, first]

theorem get?_modify (m : InsertionMap κ ν) (k k' : κ) (f : ν → ν) :
    (m.modify k f).get? k' = if k' = k then (m.get? k').map f else m.get? k' :=
  lookup_map_if m.entries k k' f

theorem get?_insert (m : InsertionMap κ ν) (k k' : κ) (v : ν) :
    (m.insert k v).get? k' = if k' = k then some v else m.get? k' := by
  unfold insert
  split
  · next known =>
    have same : (m.entries.map fun e => if e.1 = k then (k, v) else e) =
        m.entries.map fun e => if e.1 = k then (e.1, (fun _ => v) e.2) else e := by
      refine List.map_congr_left fun e _ => ?_
      split
      · next key => rw [key]
      · rfl
    rw [same]
    refine (lookup_map_if m.entries k k' fun _ => v).trans ?_
    split
    · next key =>
      subst key
      obtain ⟨old, found⟩ := Option.isSome_iff_exists.mp known
      rw [show m.entries.lookup k' = some old from found]
      rfl
    · rfl
  · next new =>
    have none : m.entries.lookup k = none := Option.not_isSome_iff_eq_none.mp new
    unfold get?
    rw [List.lookup_append]
    split
    · next key =>
      subst key
      simp [none]
    · next other => simp [List.lookup_cons, beq_false_of_ne other]

theorem get?_mapValues {μ : Type} (m : InsertionMap κ ν) (f : ν → μ) (k : κ) :
    (m.mapValues f).get? k = (m.get? k).map f := by
  unfold get? mapValues
  induction m.entries with
  | nil => rfl
  | cons e entries ih =>
    obtain ⟨key, value⟩ := e
    by_cases same : k = key
    · simp [same]
    · simpa [List.lookup_cons, beq_false_of_ne same] using ih

theorem mem_of_lookup {entries : List (κ × ν)} (h : entries.lookup k = some v) :
    (k, v) ∈ entries := by
  obtain ⟨l, r, rfl, _⟩ := List.lookup_eq_some_iff.mp h
  simp

theorem erase_of_get?_eq_none (absent : m.get? k = none) : m.erase k = m := by
  have others : ∀ entry ∈ m.entries, entry.1 ≠ k := by
    intro entry member same
    have differs := List.lookup_eq_none_iff.mp absent entry member
    simp [same] at differs
  have kept : m.entries.filter (fun entry => entry.1 ≠ k) = m.entries := by
    simpa using others
  rw [erase, kept]

omit [DecidableEq κ] in
theorem mapValues_mapValues {f : ν → ν} (m : InsertionMap κ ν) (again : ∀ v, f (f v) = f v) :
    (m.mapValues f).mapValues f = m.mapValues f := by
  simp [mapValues, again]

theorem mem_values_of_get? (h : m.get? k = some v) : v ∈ m.values :=
  List.mem_map_of_mem (mem_of_lookup h)

omit [DecidableEq κ] in
theorem mem_values_mapValues {μ : Type} {f : ν → μ} {y : μ} (h : y ∈ (m.mapValues f).values) :
    ∃ x ∈ m.values, f x = y := by
  obtain ⟨_, member, rfl⟩ := List.mem_map.mp h
  obtain ⟨e, old, rfl⟩ := List.mem_map.mp member
  exact ⟨e.2, List.mem_map_of_mem old, rfl⟩

theorem mem_values_insert (h : x ∈ (m.insert k v).values) : x = v ∨ x ∈ m.values := by
  unfold insert at h
  split at h
  · obtain ⟨e, member, rfl⟩ := List.mem_map.mp h
    obtain ⟨e', member', rfl⟩ := List.mem_map.mp member
    split
    · exact .inl rfl
    · exact .inr (List.mem_map_of_mem member')
  · simpa [values, or_comm] using h

theorem forall_values_insert {P : ν → Prop} (new : P v) (old : ∀ x ∈ m.values, P x) :
    ∀ x ∈ (m.insert k v).values, P x := by
  intro x member
  rcases mem_values_insert member with rfl | member
  · exact new
  · exact old x member

theorem mem_values_erase (h : x ∈ (m.erase k).values) : x ∈ m.values := by
  obtain ⟨e, member, rfl⟩ := List.mem_map.mp h
  exact List.mem_map_of_mem (List.mem_filter.mp member).1

theorem mem_values_modify {f : ν → ν} (h : x ∈ (m.modify k f).values) :
    x ∈ m.values ∨ ∃ y ∈ m.values, x = f y := by
  obtain ⟨e, member, rfl⟩ := List.mem_map.mp h
  obtain ⟨e', member', rfl⟩ := List.mem_map.mp member
  split
  · exact .inr ⟨e'.2, List.mem_map_of_mem member', rfl⟩
  · exact .inl (List.mem_map_of_mem member')

end InsertionMap
end FlowTypes
