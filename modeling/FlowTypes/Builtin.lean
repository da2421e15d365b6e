import FlowTypes.Binding
import FlowTypes.Types.Heap

/-! The names that every module knows, and what the analysis knows about them. -/
namespace FlowTypes

structure Builtins where
  /-- The table of the names. -/
  scope : ScopeId
  bases : Bases
  object : TypeId
  /-- The type of all sets. -/
  setInstance : TypeId := .unknown
  classes : InsertionMap String TypeId
  /-- What calling a class gives. -/
  constructors : List (TypeId × NativeOp) := []
  /-- Classes whose instances are simple types. -/
  simpleClasses : List (TypeId × TypeId) := []

namespace Builtins

def class? (b : Builtins) (name : String) : Option TypeId := b.classes.get? name

def constructor? (b : Builtins) (classId : TypeId) : Option NativeOp :=
  b.constructors.lookup classId

/-- The simple type that instances of a class have. -/
def simpleOf? (b : Builtins) (classId : TypeId) : Option TypeId := b.simpleClasses.lookup classId

/-- The name of the class whose methods a value has. -/
def className? : Ty → Option String
  | .str => some "str"
  | .int => some "int"
  | .float => some "float"
  | .complex => some "complex"
  | .bool _ => some "bool"
  | .list _ => some "list"
  | .dict _ => some "dict"
  | .tuple _ => some "tuple"
  | .module _ => some "module"
  | .function _ => some "function"
  | .classType _ => some "type"
  | _ => none

/-- The class whose methods a value has. -/
def classOf? (b : Builtins) (types : TypeStore) (id : TypeId) : Option TypeId :=
  (className? (types.get id)).bind b.class?

/-! ### What there is -/

/-- The exceptions, each after its base. -/
def exceptions : List (String × String) :=
  [("BaseException", "object"),
   ("Exception", "BaseException"),
   ("StopIteration", "Exception"),
   ("ArithmeticError", "Exception"),
   ("ZeroDivisionError", "ArithmeticError"),
   ("AssertionError", "Exception"),
   ("AttributeError", "Exception"),
   ("EnvironmentError", "Exception"),
   ("IOError", "EnvironmentError"),
   ("OSError", "EnvironmentError"),
   ("ImportError", "Exception"),
   ("LookupError", "Exception"),
   ("IndexError", "LookupError"),
   ("KeyError", "LookupError"),
   ("NameError", "Exception"),
   ("RuntimeError", "Exception"),
   ("NotImplementedError", "RuntimeError"),
   ("TypeError", "Exception"),
   ("ValueError", "Exception"),
   ("KeyboardInterrupt", "BaseException")]

def simpleClassNames : List (String × TypeId) :=
  [("str", .str), ("int", .int), ("float", .float), ("complex", .complex), ("bool", .bool)]

def functions (file : TypeId) : List (String × NativeOp) :=
  [("len", .returns .int),
   ("print", .returns .none),
   ("range", .range),
   ("xrange", .range),
   ("abs", .firstArgument),
   ("min", .minMax),
   ("max", .minMax),
   ("sum", .sum),
   ("sorted", .listOfFirst),
   ("reversed", .listOfFirst),
   ("enumerate", .enumerate),
   ("zip", .zip),
   ("open", .returns file),
   ("isinstance", .returns .bool),
   ("issubclass", .returns .bool),
   ("hasattr", .returns .bool),
   ("callable", .returns .bool),
   ("getattr", .getAttr),
   ("setattr", .returns .none),
   ("repr", .returns .str),
   ("chr", .returns .str),
   ("ord", .returns .int),
   ("input", .returns .str),
   ("raw_input", .returns .str),
   ("iter", .firstArgument),
   ("next", .elementOfFirst),
   ("id", .returns .int),
   ("hash", .returns .int),
   ("round", .round),
   ("staticmethod", .firstArgument),
   ("classmethod", .firstArgument),
   ("property", .firstArgument),
   ("super", .returns .unknown)]

def methods : List (String × List (String × NativeOp)) :=
  [("list",
    [("append", .listAppend),
     ("extend", .listExtend),
     ("insert", .listInsert),
     ("pop", .listPop),
     ("index", .returns .int),
     ("count", .returns .int),
     ("remove", .returns .none),
     ("sort", .returns .none),
     ("reverse", .returns .none)]),
   ("dict",
    [("keys", .dictKeys),
     ("values", .dictValues),
     ("items", .dictItems),
     ("get", .dictGet),
     ("has_key", .returns .bool),
     ("clear", .returns .none)]),
   ("tuple",
    [("index", .returns .int),
     ("count", .returns .int)]),
   ("str",
    [("join", .returns .str),
     ("split", .strSplit),
     ("strip", .returns .str),
     ("lstrip", .returns .str),
     ("rstrip", .returns .str),
     ("upper", .returns .str),
     ("lower", .returns .str),
     ("replace", .returns .str),
     ("format", .returns .str),
     ("startswith", .returns .bool),
     ("endswith", .returns .bool),
     ("find", .returns .int),
     ("encode", .returns .str),
     ("decode", .returns .str)]),
   ("file",
    [("read", .returns .str),
     ("readline", .returns .str),
     ("write", .returns .none),
     ("close", .returns .none)])]

end Builtins

/-! ### Making it -/

/-- Everything that exists before the first file is read. -/
structure Prelude where
  heap : Heap
  bindings : BindingStore := {}
  builtins : Builtins

namespace Prelude

abbrev Setup := StateM Prelude

def onHeap {α : Type} (f : Heap → α × Heap) : Setup α := modifyGet fun p =>
  let (a, heap) := f p.heap
  (a, { p with heap })

def define (table : ScopeId) (name : String) (type : TypeId) (kind : BindingKind) : Setup Unit :=
  modify fun p =>
    let qualified := p.heap.scopes.qualify table name
    let (id, bindings) := p.bindings.create
      { name, kind, node := ⟨0, name, .null⟩, type, qualified, isBuiltin := true }
    { p with bindings, heap.scopes := p.heap.scopes.define table name [id] }

/-- The class of a name, which is made unless it is there already. -/
def classFor (name : String) : Setup TypeId := do
  let p ← get
  match p.builtins.class? name with
  | some id => return id
  | none =>
    let id ← onHeap (·.newClass name name p.builtins.scope)
    modify fun p => { p with builtins.classes := p.builtins.classes.insert name id }
    return id

def addBase (id : TypeId) (base : Option String) : Setup Unit := modify fun p =>
  match base.bind p.builtins.class? with
  | some base => { p with heap := p.heap.addBase id base }
  | none => p

/-- Makes a class and gives it its name and its base. -/
def addClass (name : String) (base : Option String) : Setup Unit := do
  let id ← classFor name
  addBase id base
  define (← get).builtins.scope name id .classDef

def addConstructor (name : String) (op : NativeOp) : Setup Unit := modify fun p =>
  match p.builtins.class? name with
  | some id => { p with builtins.constructors := p.builtins.constructors ++ [(id, op)] }
  | none => p

def addSimpleClass (name : String) (type : TypeId) : Setup Unit := modify fun p =>
  match p.builtins.class? name with
  | some id => { p with builtins.simpleClasses := p.builtins.simpleClasses ++ [(id, type)] }
  | none => p

def addSimple (name : String) (type : TypeId) : Setup Unit := do
  addSimpleClass name type
  addConstructor name (.returns type)

/-- The value for all instances of a class. -/
def instanceOf (name : String) : Setup TypeId := do
  match (← get).builtins.class? name with
  | some id => onHeap (·.instanceOf id)
  | none => return .unknown

def addClasses : Setup Unit := do
  ["list", "dict", "tuple", "module", "function"].forM fun name => addClass name (some "object")
  addClass "object" none
  ["type", "str", "int", "float", "complex", "bool", "set", "file"].forM fun name =>
    addClass name (some "object")
  Builtins.exceptions.forM fun (name, base) => addClass name (some base)
  Builtins.simpleClassNames.forM fun (name, type) => addSimple name type
  let sets ← instanceOf "set"
  modify fun p => { p with builtins.setInstance := sets }
  addConstructor "set" (.returns sets)
  addConstructor "list" .listOfFirst
  addConstructor "tuple" .tupleOfFirst
  addConstructor "dict" .dictOfFirst

def addFunction (table : ScopeId) (name : String) (op : NativeOp) (classId : Option TypeId) :
    Setup Unit := do
  let p ← get
  let id ← onHeap fun h =>
    h.newFunctionWith p.builtins.bases name (h.scopes.qualify table name) p.builtins.scope fun f =>
      { f with native := some op, classId }
  define table name id (if classId.isSome then .method else .function)

def addMethod (className : String) (name : String) (op : NativeOp) : Setup Unit := do
  let p ← get
  match p.builtins.class? className with
  | some id =>
    match p.heap.types.tableOf id with
    | some table => addFunction table name op (some id)
    | none => pure ()
  | none => pure ()

def addFunctions : Setup Unit := do
  let scope := (← get).builtins.scope
  let file ← instanceOf "file"
  (Builtins.functions file).forM fun (name, op) => addFunction scope name op none
  define scope "__name__" .str .blockVariable

def addMethods : Setup Unit := do
  Builtins.methods.forM fun (className, methods) =>
    methods.forM fun (name, op) => addMethod className name op
  let bases := (← get).builtins.bases
  let lines ← onHeap (·.newListOf bases .str)
  addMethod "file" "readlines" (.returns lines)
  addMethod "file" "__iter__" (.returns lines)

/-- Nothing but the table of the names. -/
def blank : Prelude :=
  let (scope, scopes) := ({} : ScopeStore).alloc .global none ""
  let bases := ⟨.unknown, .unknown, .unknown, .unknown, .unknown⟩
  { heap := { scopes }, builtins := { scope, bases, object := .unknown, classes := {} } }

/-- The classes that values are made with come first, so that all that follows can inherit from
them. -/
def addBases : Setup Unit := do
  let object ← classFor "object"
  let list ← classFor "list"
  let dict ← classFor "dict"
  let tuple ← classFor "tuple"
  let module ← classFor "module"
  let function ← classFor "function"
  let bases := { list, dict, tuple, module, function }
  modify fun p => { p with builtins := { p.builtins with object, bases } }

def setup : Setup Unit := do
  addBases
  addClasses
  addFunctions
  addMethods

/-- What a setup makes of nothing. -/
def build (m : Setup Unit) : Prelude := (m.run blank).2

def initial : Prelude := build setup

end Prelude
end FlowTypes
