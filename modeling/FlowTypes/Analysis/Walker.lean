import FlowTypes.Analysis.Attribute

/-! The activities of a walk, which all lead to one another. Each is written over a `Walker`, which
stands for the walk one level further down. -/
namespace FlowTypes

/-- The arguments of a call. -/
structure CallArgs where
  positional : List TypeId := []
  keywords : InsertionMap String TypeId := {}
  /-- What a starred argument of unknown length holds. -/
  star : Option TypeId := none
  /-- A doubly starred argument. -/
  doubleStar : Option TypeId := none

/-- A call with positional arguments only. -/
def CallArgs.of (positional : List TypeId) : CallArgs := { positional }

structure Walker where
  files : FileSystem
  limits : Limits
  /-- The type of an expression, noted for its node. -/
  expr : ScopeId → Expr → Analysis TypeId
  /-- What a block returns; `TypeId.cont` stands for its end. -/
  block : ScopeId → List Stmt → Analysis TypeId
  /-- Gives a value to a target. -/
  assign : ScopeId → Expr → TypeId → Analysis Unit
  /-- What iterating over a value gives. -/
  element : TypeId → Span → Analysis TypeId
  /-- Calls each alternative of a value. -/
  call : TypeId → CallArgs → Span → Analysis TypeId
  /-- The value of the module that a file holds. -/
  load : Path → Analysis (Option TypeId)

namespace Walker

variable (w : Walker)

/-- Asks the file system about a path. -/
def ask {α : Type} (p : Path) (answer : FileSystem → α) : Analysis α :=
  if w.files.isSeen p then return answer w.files else throw (.unseen p)

/-- Calls a method of a value, if the value has it. -/
def callMethod (object : TypeId) (name : String) (args : CallArgs) (span : Span) :
    Analysis (Option TypeId) := do
  match ← Analysis.attribute? object name with
  | none => return none
  | some (_, method) => return some (← w.call method args span)

/-- Calls a method for its result, unknown without the method. -/
def resultOf (object : TypeId) (name : String) (args : CallArgs) (span : Span) :
    Analysis TypeId := do
  return (← w.callMethod object name args span).getD .unknown

end Walker
end FlowTypes
