import FlowTypes.Source
import FlowTypes.Tree.Number
import FlowTypes.Tree.Operator

/-! Expression trees. Every node has an identity of its own and its place in the source. -/
namespace FlowTypes

abbrev NodeId := Nat

structure Node where
  id : NodeId
  span : Span
deriving Repr, DecidableEq, Inhabited

inductive Constant
  | true | false | none | ellipsis
deriving Repr, DecidableEq

inductive ComprehensionKind
  | list | set | dict | generator
deriving Repr, DecidableEq

inductive ParameterKind
  | normal
  /-- Takes the positional arguments that are left. -/
  | varArgs
  /-- Takes the keyword arguments that are left. -/
  | kwArgs
deriving Repr, DecidableEq

structure Parameter (ε : Type) where
  node : Node
  name : String
  kind : ParameterKind
  hint : Option ε
  fallback : Option ε

inductive Argument (ε : Type)
  | positional (value : ε)
  | keyword (name : String) (value : ε)
  | star (value : ε)
  | doubleStar (value : ε)

def Argument.value {ε : Type} : Argument ε → ε
  | positional e | keyword _ e | star e | doubleStar e => e

/-- One `for` of a comprehension and the conditions after it. -/
structure Clause (ε : Type) where
  target : ε
  iter : ε
  conditions : List ε
  isAsync : Bool

inductive Expr
  | number (node : Node) (kind : NumberKind) (text : String)
  | string (node : Node) (value : String)
  | constant (node : Node) (value : Constant)
  | name (node : Node) (name : String)
  | list (node : Node) (elements : List Expr)
  | tuple (node : Node) (elements : List Expr)
  | set (node : Node) (elements : List Expr)
  /-- An entry without a key merges another mapping. -/
  | dict (node : Node) (entries : List (Option Expr × Expr))
  /-- The element of a dict comprehension is its key. -/
  | comprehension (node : Node) (kind : ComprehensionKind) (element : Expr) (value : Option Expr)
      (clauses : List (Clause Expr))
  | member (node : Node) (object : Expr) (property : String) (propertySpan : Span)
  | subscript (node : Node) (object index : Expr)
  | slice (node : Node) (lower upper step : Option Expr)
  | call (node : Node) (callee : Expr) (arguments : List (Argument Expr))
  | unary (node : Node) (operator : Operator) (operand : Expr)
  | binary (node : Node) (operator : Operator) (left right : Expr)
  | conditional (node : Node) (condition body orelse : Expr)
  | lambda (node : Node) (parameters : List (Parameter Expr)) (body : Expr)
  | yield (node : Node) (value : Option Expr) (isFrom : Bool)
  | await (node : Node) (value : Expr)
  | starred (node : Node) (value : Expr)

namespace Expr

instance : Inhabited Expr := ⟨.constant default .none⟩

def node : Expr → Node
  | number n _ _ | string n _ | constant n _ | name n _ | list n _ | tuple n _ | set n _
  | dict n _ | comprehension n _ _ _ _ | member n _ _ _ | subscript n _ _ | slice n _ _ _
  | call n _ _ | unary n _ _ | binary n _ _ _ | conditional n _ _ _ | lambda n _ _
  | yield n _ _ | await n _ | starred n _ => n

def id (e : Expr) : NodeId := e.node.id

def span (e : Expr) : Span := e.node.span

mutual

/-- Whether the expression can be assigned to. -/
def isAssignable : Expr → Bool
  | name _ _ | member _ _ _ _ | subscript _ _ _ => true
  | starred _ e => e.isAssignable
  | tuple _ es | list _ es => areAssignable es
  | _ => false

def areAssignable : List Expr → Bool
  | [] => true
  | e :: es => e.isAssignable && areAssignable es

end

/-- Names, attributes and items: what an operator can be applied to in place. -/
def isPlace : Expr → Bool
  | name _ _ | member _ _ _ _ | subscript _ _ _ => true
  | _ => false

/-- Whether the expression is the given bare name. -/
def isName (e : Expr) (text : String) : Bool :=
  match e with
  | name _ n => n = text
  | _ => false

end Expr
end FlowTypes
