import FlowTypes.Ident
import FlowTypes.InsertionMap

/-! Scopes: tables of names, the scope around each of them, and the tables it inherits from. -/
namespace FlowTypes

inductive ScopeKind
  /-- Names that every module sees. -/
  | global
  | module
  | classBody
  | object
  | function
  /-- Blocks, and the attributes of other values. -/
  | plain
deriving Repr, DecidableEq, Inhabited

structure Scope where
  kind : ScopeKind
  /-- What stands in front of a name in its qualified form. -/
  path : String
  parent : Option ScopeId
  /-- The type whose attributes the table holds. -/
  owner : Option TypeId := none
  table : InsertionMap String (List BindingId) := {}
  supers : List ScopeId := []
  globals : List String := []
  nonlocals : List String := []

namespace Scope

instance : Inhabited Scope := ⟨{ kind := .plain, path := "", parent := none }⟩

def names (s : Scope) : List String := s.table.keys

def isGlobal (s : Scope) (name : String) : Bool := s.globals.contains name

def isNonlocal (s : Scope) (name : String) : Bool := s.nonlocals.contains name

/-- The qualified form of a name defined in the scope. -/
def qualify (s : Scope) (name : String) : String :=
  if s.path = "" then name else s.path ++ "." ++ name

end Scope

/-- All scopes of a run. -/
structure ScopeStore where
  scopes : Array Scope := #[]

namespace ScopeStore

def size (s : ScopeStore) : Nat := s.scopes.size

def get (s : ScopeStore) (id : ScopeId) : Scope := s.scopes[id.index]?.getD default

def modify (s : ScopeStore) (id : ScopeId) (f : Scope → Scope) : ScopeStore :=
  ⟨s.scopes.modify id.index f⟩

def alloc (s : ScopeStore) (kind : ScopeKind) (parent : Option ScopeId) (path : String) :
    ScopeId × ScopeStore :=
  (⟨s.size⟩, ⟨s.scopes.push { kind, path, parent }⟩)

def addSuper (s : ScopeStore) (id sup : ScopeId) : ScopeStore :=
  s.modify id fun scope =>
    if scope.supers.contains sup then scope else { scope with supers := scope.supers ++ [sup] }

def declareGlobal (s : ScopeStore) (id : ScopeId) (name : String) : ScopeStore :=
  s.modify id fun scope => { scope with globals := scope.globals ++ [name] }

def declareNonlocal (s : ScopeStore) (id : ScopeId) (name : String) : ScopeStore :=
  s.modify id fun scope => { scope with nonlocals := scope.nonlocals ++ [name] }

/-- Makes the bindings those of the name. -/
def define (s : ScopeStore) (id : ScopeId) (name : String) (bindings : List BindingId) :
    ScopeStore :=
  s.modify id fun scope => { scope with table := scope.table.insert name bindings }

def undefine (s : ScopeStore) (id : ScopeId) (name : String) : ScopeStore :=
  s.modify id fun scope => { scope with table := scope.table.erase name }

def setOwner (s : ScopeStore) (id : ScopeId) (type : TypeId) : ScopeStore :=
  s.modify id fun scope => { scope with owner := some type }

/-! ### Looking names up -/

/-- The bindings of a name in the table itself. -/
def lookupLocal (s : ScopeStore) (id : ScopeId) (name : String) : Option (List BindingId) :=
  (s.get id).table.get? name

def chain (s : ScopeStore) : Nat → Option ScopeId → List ScopeId
  | 0, _ | _, none => []
  | n + 1, some id => id :: chain s n (s.get id).parent

/-- A scope and the scopes around it, from the inside out. -/
def enclosing (s : ScopeStore) (start : Option ScopeId) : List ScopeId := s.chain s.size start

/-- The closest scope of a kind, which may be the scope itself. -/
def closest (s : ScopeStore) (id : ScopeId) (kind : ScopeKind) : Option ScopeId :=
  (s.enclosing (some id)).find? fun i => (s.get i).kind = kind

def moduleOf (s : ScopeStore) (id : ScopeId) : Option ScopeId := s.closest id .module

/-- The first function scope that defines the name, looked for up to the module. -/
def functionDefining (s : ScopeStore) (name : String) : List ScopeId → Option ScopeId
  | [] => none
  | id :: ids =>
    if (s.get id).kind = .function && (s.get id).table.contains name then some id
    else if (s.get id).kind = .module then none
    else functionDefining s name ids

/-- Where a declaration in the scope sends the name, if there is one. -/
def declaredTarget (s : ScopeStore) (id : ScopeId) (name : String) : Option ScopeId :=
  let scope := s.get id
  if scope.isGlobal name then (s.moduleOf id).filter (· ≠ id)
  else if scope.isNonlocal name then s.functionDefining name (s.enclosing scope.parent)
  else none

/-- What a search through super tables has found, and the tables it has been to. -/
structure Search where
  found : Option (List BindingId) := none
  visited : List ScopeId := []

/-- Searches a table and then its supers in order, each table once. -/
def searchFrom (s : ScopeStore) (name : String) : Nat → Search → ScopeId → Search
  | 0, search, _ => search
  | n + 1, search, id =>
    if search.found.isSome || search.visited.contains id then search
    else
      let search := { search with visited := id :: search.visited }
      match s.lookupLocal id name with
      | some bindings => { search with found := some bindings }
      | none => (s.get id).supers.foldl (fun search sup => searchFrom s name n search sup) search

/-- Looks a name up in a table and its supers, depth first. The scopes around the table are not
supers. -/
def lookupAttribute (s : ScopeStore) (id : ScopeId) (name : String) : Option (List BindingId) :=
  (s.searchFrom name (s.size + 1) {} id).found

/-- Looks a name up that is read in a scope: where a declaration sends it, in the scope's own table,
through the supers of a class or an object, and then in the scopes around it. Class bodies are not
seen from the scopes inside of them. -/
def lookup (s : ScopeStore) (id : ScopeId) (name : String) : Option (List BindingId) :=
  let scope := s.get id
  let declared := (s.declaredTarget id name).bind (s.lookupLocal · name)
  let inherited :=
    if scope.kind = .classBody || scope.kind = .object then s.lookupAttribute id name else none
  let outer := (s.enclosing scope.parent).findSome? fun i =>
    if (s.get i).kind = .classBody then none else s.lookupLocal i name
  (((declared.or (s.lookupLocal id name)).or inherited).or outer)

def qualify (s : ScopeStore) (id : ScopeId) (name : String) : String := (s.get id).qualify name

end ScopeStore
end FlowTypes
