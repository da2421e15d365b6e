import FlowTypes.Tree.Stmt
import FlowTypes.Types.Native

/-! Types. A type refers to others by their places in the store, so that a list may hold itself. -/
namespace FlowTypes

/-- What the receiver of a method is. -/
inductive MethodKind
  | instanceMethod
  | staticMethod
  | classMethod
deriving Repr, DecidableEq

structure ListType where
  /-- Everything the list may hold. -/
  element : TypeId
  /-- The elements of the literal the list was made from. -/
  positional : List TypeId
  /-- The string literals among them. -/
  strings : List String
  table : ScopeId

structure DictType where
  key : TypeId
  value : TypeId
  table : ScopeId

structure TupleType where
  elements : List TypeId
  table : ScopeId

structure ClassType where
  name : String
  table : ScopeId
  /-- The first base. -/
  superclass : Option TypeId := none
  /-- The value that stands for all instances, once there is one. -/
  instance? : Option TypeId := none

structure InstanceType where
  classId : TypeId
  table : ScopeId

structure ModuleType where
  name : String
  file : String
  qualified : String
  table : ScopeId

/-- An argument tuple and what the function returns for it. -/
structure Arrow where
  arguments : TypeId
  result : TypeId
deriving Repr, DecidableEq

structure FunctionType where
  name : String
  /-- The signature table, oldest first. -/
  arrows : List Arrow := []
  definition : Option Definition := none
  classId : Option TypeId := none
  method : MethodKind := .instanceMethod
  receiver : Option TypeId := none
  /-- The function that a bound method was made from. -/
  origin : Option TypeId := none
  /-- Types of the default values, one place for each parameter. -/
  defaults : List (Option TypeId) := []
  native : Option NativeOp := none
  isAsync : Bool := false
  table : ScopeId
  /-- The scope around the body. -/
  env : ScopeId

/-- Whether the function takes an instance of its class as receiver. -/
def FunctionType.isInstanceMethod (f : FunctionType) : Bool :=
  f.classId.isSome && f.method = .instanceMethod

inductive Ty
  | unknown
  | none
  | cont
  | bool (value : Option Bool)
  | int
  | float
  | complex
  | str
  | list (data : ListType)
  | dict (data : DictType)
  | tuple (data : TupleType)
  | classType (data : ClassType)
  | instanceOf (data : InstanceType)
  | module (data : ModuleType)
  | function (data : FunctionType)
  | union (types : List TypeId)

namespace Ty

instance : Inhabited Ty := ⟨.unknown⟩

/-- The table of the attributes. -/
def table? : Ty → Option ScopeId
  | list d => some d.table
  | dict d => some d.table
  | tuple d => some d.table
  | classType d => some d.table
  | instanceOf d => some d.table
  | module d => some d.table
  | function d => some d.table
  | _ => Option.none

def kindName : Ty → String
  | unknown => "unknown"
  | none => "None"
  | cont => "cont"
  | bool _ => "bool"
  | int => "int"
  | float => "float"
  | complex => "complex"
  | str => "str"
  | list _ => "list"
  | dict _ => "dict"
  | tuple _ => "tuple"
  | classType _ => "class"
  | instanceOf _ => "instance"
  | module _ => "module"
  | function _ => "function"
  | union _ => "union"

/-- Numbers by how much they hold: integers and booleans, fractions, complex numbers. -/
def numericRank? : Ty → Option Nat
  | bool _ | int => some 0
  | float => some 1
  | complex => some 2
  | _ => Option.none

def isNumeric (t : Ty) : Bool := t.numericRank?.isSome

def isClass : Ty → Bool
  | classType _ => true
  | _ => false

def isTuple : Ty → Bool
  | tuple _ => true
  | _ => false

def isInstance : Ty → Bool
  | instanceOf _ => true
  | _ => false

end Ty
end FlowTypes
