import FlowTypes.Types.Basic

/-! The store of all types of a run. -/
namespace FlowTypes

structure TypeStore where
  types : Array Ty

namespace TypeStore

/-- A store with the simple types only. -/
def initial : TypeStore :=
  ⟨#[.unknown, .none, .cont, .bool none, .bool (some true), .bool (some false), .int, .float,
    .complex, .str]⟩

def size (s : TypeStore) : Nat := s.types.size

def get (s : TypeStore) (id : TypeId) : Ty := s.types[id.index]?.getD .unknown

def set (s : TypeStore) (id : TypeId) (t : Ty) : TypeStore := ⟨s.types.setIfInBounds id.index t⟩

def alloc (s : TypeStore) (t : Ty) : TypeId × TypeStore := (⟨s.size⟩, ⟨s.types.push t⟩)

def tableOf (s : TypeStore) (id : TypeId) : Option ScopeId := (s.get id).table?

def isUnknown (s : TypeStore) (id : TypeId) : Bool :=
  match s.get id with
  | .unknown => true
  | _ => false

def isUnion (s : TypeStore) (id : TypeId) : Bool :=
  match s.get id with
  | .union _ => true
  | _ => false

def function? (s : TypeStore) (id : TypeId) : Option FunctionType :=
  match s.get id with
  | .function f => some f
  | _ => none

def class? (s : TypeStore) (id : TypeId) : Option ClassType :=
  match s.get id with
  | .classType c => some c
  | _ => none

def modifyFunction (s : TypeStore) (id : TypeId) (f : FunctionType → FunctionType) : TypeStore :=
  match s.get id with
  | .function d => s.set id (.function (f d))
  | _ => s

def modifyClass (s : TypeStore) (id : TypeId) (f : ClassType → ClassType) : TypeStore :=
  match s.get id with
  | .classType d => s.set id (.classType (f d))
  | _ => s

/-- Changes what a list may hold. -/
def setElement (s : TypeStore) (id element : TypeId) : TypeStore :=
  match s.get id with
  | .list d => s.set id (.list { d with element })
  | _ => s

/-- Changes one element of a tuple. -/
def setItem (s : TypeStore) (id : TypeId) (i : Nat) (element : TypeId) : TypeStore :=
  match s.get id with
  | .tuple d => s.set id (.tuple { d with elements := d.elements.set i element })
  | _ => s

/-- Changes what a dict may hold. -/
def setEntry (s : TypeStore) (id key value : TypeId) : TypeStore :=
  match s.get id with
  | .dict d => s.set id (.dict { d with key, value })
  | _ => s

def originWithin (s : TypeStore) : Nat → TypeId → TypeId
  | 0, id => id
  | n + 1, id =>
    match (s.function? id).bind (·.origin) with
    | none => id
    | some origin => if origin = id then id else originWithin s n origin

/-- The function that owns the signature table: a bound method leads back to it. -/
def originOf (s : TypeStore) (id : TypeId) : TypeId := s.originWithin s.size id

/-- The members of a union, or the type itself. -/
def alternatives (s : TypeStore) (id : TypeId) : List TypeId :=
  match s.get id with
  | .union types => types
  | _ => [id]

end TypeStore
end FlowTypes
