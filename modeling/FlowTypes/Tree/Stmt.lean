import FlowTypes.Tree.Expr

/-! Statement trees and modules. -/
namespace FlowTypes

structure WithItem where
  context : Expr
  target : Option Expr

/-- A dotted name and the name it is bound to. -/
structure Alias where
  node : Node
  name : String
  newName : Option String

structure FunctionDef (σ : Type) where
  node : Node
  name : String
  nameSpan : Span
  decorators : List Expr
  parameters : List (Parameter Expr)
  returns : Option Expr
  isAsync : Bool
  body : List σ

/-- Whether one of the decorators is the bare name. -/
def FunctionDef.hasDecorator {σ : Type} (d : FunctionDef σ) (name : String) : Bool :=
  d.decorators.any (·.isName name)

structure ClassDef (σ : Type) where
  node : Node
  name : String
  nameSpan : Span
  decorators : List Expr
  bases : List Expr
  body : List σ

structure Handler (σ : Type) where
  node : Node
  exception : Option Expr
  name : Option String
  body : List σ

inductive Stmt
  | expression (node : Node) (value : Expr)
  | assign (node : Node) (targets : List Expr) (value : Expr)
  | augment (node : Node) (target : Expr) (operator : Operator) (value : Expr)
  | declare (node : Node) (target hint : Expr) (value : Option Expr)
  | function (definition : FunctionDef Stmt)
  | classDef (definition : ClassDef Stmt)
  | returns (node : Node) (value : Option Expr)
  /-- The else branch of an `elif` chain is the rest of the chain. -/
  | branch (node : Node) (condition : Expr) (thenBody elseBody : List Stmt)
  | whileLoop (node : Node) (condition : Expr) (body elseBody : List Stmt)
  | forLoop (node : Node) (target iter : Expr) (body elseBody : List Stmt) (isAsync : Bool)
  | tryBlock (node : Node) (body : List Stmt) (handlers : List (Handler Stmt))
      (elseBody finallyBody : List Stmt)
  | withBlock (node : Node) (items : List WithItem) (body : List Stmt) (isAsync : Bool)
  | raise (node : Node) (exception cause : Option Expr)
  | assert (node : Node) (test : Expr) (message : Option Expr)
  | delete (node : Node) (targets : List Expr)
  | pass (node : Node)
  | breakLoop (node : Node)
  | continueLoop (node : Node)
  | globals (node : Node) (names : List String)
  | nonlocals (node : Node) (names : List String)
  | imports (node : Node) (names : List Alias)
  | importFrom (node : Node) (source : String) (level : Nat) (names : List Alias) (isStar : Bool)
  | print (node : Node) (destination : Option Expr) (values : List Expr) (trailingComma : Bool)

namespace Stmt

def node : Stmt → Node
  | expression n _ | assign n _ _ | augment n _ _ _ | declare n _ _ _ | returns n _
  | branch n _ _ _ | whileLoop n _ _ _ | forLoop n _ _ _ _ _ | tryBlock n _ _ _ _
  | withBlock n _ _ _ | raise n _ _ | assert n _ _ | delete n _ | pass n | breakLoop n
  | continueLoop n | globals n _ | nonlocals n _ | imports n _ | importFrom n _ _ _ _
  | print n _ _ _ => n
  | function d => d.node
  | classDef d => d.node

end Stmt

/-- One parsed file. -/
structure Module where
  node : Node
  file : String
  body : List Stmt

/-- What a function value was made from. -/
inductive Definition
  | function (definition : FunctionDef Stmt)
  | lambda (node : Node) (parameters : List (Parameter Expr)) (body : Expr)

namespace Definition

def node : Definition → Node
  | function d => d.node
  | lambda n _ _ => n

def name : Definition → String
  | function d => d.name
  | lambda _ _ _ => "lambda"

def parameters : Definition → List (Parameter Expr)
  | function d => d.parameters
  | lambda _ ps _ => ps

/-- Where the definition is named in a report. -/
def nameSpan : Definition → Span
  | function d => d.nameSpan
  | lambda n _ _ => n.span

end Definition
end FlowTypes
