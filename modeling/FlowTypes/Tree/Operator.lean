/-! Operators of expressions. -/
namespace FlowTypes

inductive Operator
  | add | sub | mul | matMul | div | floorDiv | mod | pow | lShift | rShift
  | bitAnd | bitOr | bitXor | and | or
  | eq | notEq | lt | ltE | gt | gtE | is | isNot | in_ | notIn
  | not | neg | pos | invert
deriving Repr, DecidableEq

namespace Operator

/-- Comparisons and membership tests. -/
def isComparison : Operator → Bool
  | eq | notEq | lt | ltE | gt | gtE | is | isNot | in_ | notIn => true
  | _ => false

def symbol : Operator → String
  | add | pos => "+"
  | sub | neg => "-"
  | mul => "*"
  | matMul => "@"
  | div => "/"
  | floorDiv => "//"
  | mod => "%"
  | pow => "**"
  | lShift => "<<"
  | rShift => ">>"
  | bitAnd => "&"
  | bitOr => "|"
  | bitXor => "^"
  | and => "and"
  | or => "or"
  | eq => "=="
  | notEq => "!="
  | lt => "<"
  | ltE => "<="
  | gt => ">"
  | gtE => ">="
  | is => "is"
  | isNot => "is not"
  | in_ => "in"
  | notIn => "not in"
  | not => "not"
  | invert => "~"

/-- The method that a class can define for the operator. -/
def method? : Operator → Option String
  | add => some "__add__"
  | sub => some "__sub__"
  | mul => some "__mul__"
  | matMul => some "__matmul__"
  | div => some "__div__"
  | floorDiv => some "__floordiv__"
  | mod => some "__mod__"
  | pow => some "__pow__"
  | lShift => some "__lshift__"
  | rShift => some "__rshift__"
  | bitAnd => some "__and__"
  | bitOr => some "__or__"
  | bitXor => some "__xor__"
  | neg => some "__neg__"
  | pos => some "__pos__"
  | invert => some "__invert__"
  | _ => none

/-- The method tried on the right operand. -/
def reflectedMethod? (op : Operator) : Option String :=
  op.method?.map fun name => "__r" ++ String.ofList (name.toList.drop 2)

end Operator
end FlowTypes
