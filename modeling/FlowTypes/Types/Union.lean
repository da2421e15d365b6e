import FlowTypes.Types.Equality

/-! Types that stand for one of several. -/
namespace FlowTypes.TypeStore

/-- Drops every type that equals an earlier one. -/
def distinct (s : TypeStore) (ids : List TypeId) : List TypeId :=
  ids.foldl (fun kept id => if kept.any (s.equal · id) then kept else kept ++ [id]) []

/-- A type for either of two. Equal types give the first. Otherwise the alternatives of the first
come before the new ones of the second, and no union holds a union; an operand that already covers
the other is given back as it is. -/
def union (s : TypeStore) (a b : TypeId) : TypeId × TypeStore :=
  if s.equal a b then (a, s)
  else
    let left := s.alternatives a
    let right := s.alternatives b
    match s.distinct (left ++ right) with
    | [t] => (t, s)
    | types =>
      if s.isUnion a && types.length = left.length then (a, s)
      else if s.isUnion b && types.length = right.length then (b, s)
      else s.alloc (.union types)

/-- A union whose first operand may be missing. -/
def unionOpt (s : TypeStore) (a : Option TypeId) (b : TypeId) : TypeId × TypeStore :=
  match a with
  | some a => s.union a b
  | none => (b, s)

def unionFrom (s : TypeStore) (a : TypeId) : List TypeId → TypeId × TypeStore
  | [] => (a, s)
  | b :: bs =>
    let (t, s) := s.union a b
    s.unionFrom t bs

/-- The union of several types, unknown if there are none. -/
def unionAll (s : TypeStore) : List TypeId → TypeId × TypeStore
  | [] => (.unknown, s)
  | a :: bs => s.unionFrom a bs

/-- A type without one of its alternatives; none if nothing is left. -/
def remove (s : TypeStore) (id t : TypeId) : Option TypeId × TypeStore :=
  if s.isUnion id then
    let remaining := (s.alternatives id).filter fun a => !s.equal a t
    match remaining with
    | [] => (none, s)
    | [a] => (some a, s)
    | _ =>
      if remaining.length = (s.alternatives id).length then (some id, s)
      else
        let (u, s) := s.alloc (.union remaining)
        (some u, s)
  else if s.equal id t then (none, s)
  else (some id, s)

/-- The type of a container's elements once a value is put into it. A container that was made empty
holds elements of unknown type. -/
def widen (s : TypeStore) (current value : TypeId) : TypeId × TypeStore :=
  if s.isUnknown current then (value, s) else s.union current value

/-- Puts a value into a list. -/
def widenList (s : TypeStore) (list value : TypeId) : TypeStore :=
  match s.get list with
  | .list d =>
    let (element, s) := s.widen d.element value
    s.setElement list element
  | _ => s

/-- Puts a value into a dict under a key. -/
def widenEntry (s : TypeStore) (dict index value : TypeId) : TypeStore :=
  match s.get dict with
  | .dict d =>
    let (key, s) := s.widen d.key index
    let (mapped, s) := s.widen d.value value
    s.setEntry dict key mapped
  | _ => s

/-- The first alternative that says something. -/
def firstUseful (s : TypeStore) (id : TypeId) : Option TypeId :=
  (s.alternatives id).find? fun a =>
    match s.get a with
    | .unknown | .none => false
    | _ => true

end FlowTypes.TypeStore
