import FlowTypes.Path
import FlowTypes.Scope
import FlowTypes.Types.Signature
import FlowTypes.Types.Union

/-! Values and their attribute tables. A new value gets a table that inherits from the table of its
built-in class. -/
namespace FlowTypes

structure Heap where
  types : TypeStore := .initial
  scopes : ScopeStore := {}

/-- The classes that containers, modules and functions are values of. -/
structure Bases where
  list : TypeId
  dict : TypeId
  tuple : TypeId
  module : TypeId
  function : TypeId

namespace Heap

/-- Makes a table and the value that owns it. -/
def allocWithTable (h : Heap) (kind : ScopeKind) (parent : Option ScopeId) (path : String)
    (make : ScopeId → Ty) : TypeId × Heap :=
  let (table, scopes) := h.scopes.alloc kind parent path
  let (id, types) := h.types.alloc (make table)
  (id, ⟨types, scopes.setOwner table id⟩)

/-- Lets the table of one value inherit from that of another. -/
def inheritTable (h : Heap) (id base : TypeId) : Heap :=
  match h.types.tableOf id, h.types.tableOf base with
  | some table, some super => { h with scopes := h.scopes.addSuper table super }
  | _, _ => h

def newList (h : Heap) (bases : Bases) (element : TypeId) (positional : List TypeId)
    (strings : List String) : TypeId × Heap :=
  let (id, h) := h.allocWithTable .plain none "" fun table =>
    .list { element, positional, strings, table }
  (id, h.inheritTable id bases.list)

/-- A list of which only the element type is known. -/
def newListOf (h : Heap) (bases : Bases) (element : TypeId) : TypeId × Heap :=
  h.newList bases element [] []

def newDict (h : Heap) (bases : Bases) (key value : TypeId) : TypeId × Heap :=
  let (id, h) := h.allocWithTable .plain none "" fun table => .dict { key, value, table }
  (id, h.inheritTable id bases.dict)

def newTuple (h : Heap) (bases : Bases) (elements : List TypeId) : TypeId × Heap :=
  let (id, h) := h.allocWithTable .plain none "" fun table => .tuple { elements, table }
  (id, h.inheritTable id bases.tuple)

def newModule (h : Heap) (bases : Bases) (name : ModuleName) (file : String) (parent : ScopeId) :
    TypeId × Heap :=
  let (id, h) := h.allocWithTable .module (some parent) name.qualified fun table =>
    .module { name := name.name, file, qualified := name.qualified, table }
  (id, h.inheritTable id bases.module)

def newClass (h : Heap) (name path : String) (parent : ScopeId) : TypeId × Heap :=
  h.allocWithTable .classBody (some parent) path fun table => .classType { name, table }

/-- Makes a function; `complete` adds what is known of it. -/
def newFunctionWith (h : Heap) (bases : Bases) (name path : String) (env : ScopeId)
    (complete : FunctionType → FunctionType) : TypeId × Heap :=
  let (id, h) := h.allocWithTable .plain none path fun table =>
    .function (complete { name, table, env })
  (id, h.inheritTable id bases.function)

def newFunction (h : Heap) (bases : Bases) (name path : String) (env : ScopeId) : TypeId × Heap :=
  h.newFunctionWith bases name path env id

/-- The classes whose tables a class table inherits from. -/
def basesOf (h : Heap) (table : ScopeId) : List TypeId :=
  (h.scopes.get table).supers.filterMap fun sup => (h.scopes.get sup).owner

/-- Makes the value for all instances of a class. It inherits from the class. -/
def makeInstance (h : Heap) (classId : TypeId) (c : ClassType) : TypeId × Heap :=
  let path := (h.scopes.get c.table).path
  let (id, h) := h.allocWithTable .object none path fun table => .instanceOf { classId, table }
  let h := { h with types := h.types.modifyClass classId fun c => { c with instance? := some id } }
  (id, h.inheritTable id classId)

/-- The value for all instances of a class, with at most so many bases above it. -/
def instanceWithin : Nat → Heap → TypeId → TypeId × Heap
  | 0, h, _ => (.unknown, h)
  | n + 1, h, classId =>
    match h.types.class? classId with
    | none => (.unknown, h)
    | some c =>
      match c.instance? with
      | some id => (id, h)
      | none =>
        let (id, h) := h.makeInstance classId c
        let h := (h.basesOf c.table).foldl (fun h base =>
          let (baseInstance, h) := instanceWithin n h base
          h.inheritTable id baseInstance) h
        (id, h)

/-- The one value that stands for every instance of a class. Its table inherits from the class and
then from the values of the class's bases. -/
def instanceOf (h : Heap) (classId : TypeId) : TypeId × Heap :=
  instanceWithin (h.types.size + 1) h classId

/-- Makes one class a base of another. The first base is remembered as the superclass, and a value
of the class that already exists inherits from the new base as well. -/
def addBase (h : Heap) (classId base : TypeId) : Heap :=
  match h.types.class? classId, h.types.class? base with
  | some c, some b =>
    if classId = base then h
    else
      let h : Heap := ⟨h.types.modifyClass classId fun c =>
        { c with superclass := c.superclass.or (some base) }, h.scopes.addSuper c.table b.table⟩
      match c.instance? with
      | none => h
      | some id =>
        let (baseInstance, h) := h.instanceOf base
        h.inheritTable id baseInstance
  | _, _ => h

/-- A function together with its receiver; it shares the signature table. -/
def bindMethod (h : Heap) (fn receiver : TypeId) : TypeId × Heap :=
  let origin := h.types.originOf fn
  match h.types.function? origin with
  | none => (fn, h)
  | some f =>
    let bound := { f with arrows := [], origin := some origin, receiver := some receiver }
    let (id, types) := h.types.alloc (.function bound)
    (id, { h with types })

/-- An argument tuple with the receiver of an instance method replaced by the value for all
instances, so that all receivers share one signature. -/
def canonicalArguments (h : Heap) (bases : Bases) (fn arguments : TypeId) : TypeId × Heap :=
  let owner := ((h.types.function? (h.types.originOf fn)).filter (·.isInstanceMethod)).bind
    (·.classId)
  match owner, h.types.get arguments with
  | some classId, .tuple d =>
    match d.elements with
    | first :: others =>
      let (receiver, h) := h.instanceOf classId
      if first = receiver then (arguments, h) else h.newTuple bases (receiver :: others)
    | [] => (arguments, h)
  | _, _ => (arguments, h)

/-- Records what a function returned for an argument tuple. -/
def recordArrow (h : Heap) (bases : Bases) (fn arguments result : TypeId) (limits : Limits) :
    TypeStore.Recorded × Heap :=
  let (arguments, h) := h.canonicalArguments bases fn arguments
  let (outcome, types) := h.types.insertArrow fn ⟨arguments, result⟩ limits
  (outcome, { h with types })

end Heap
end FlowTypes
