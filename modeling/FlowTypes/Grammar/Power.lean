import FlowTypes.Token
import FlowTypes.Tree.Operator

/-! How tightly the operators bind. -/
namespace FlowTypes

/-- Binding powers, weakest first. -/
inductive Power
  | lowest | lambda | ternary | logicalOr | logicalAnd | logicalNot | relational
  | bitwiseOr | bitwiseXor | bitwiseAnd | shift | additive | multiplicative | unary | exponent
  | call | member
deriving Repr, DecidableEq

namespace Power

def rank : Power → Nat
  | lowest => 0
  | lambda => 1
  | ternary => 2
  | logicalOr => 3
  | logicalAnd => 4
  | logicalNot => 5
  | relational => 6
  | bitwiseOr => 7
  | bitwiseXor => 8
  | bitwiseAnd => 9
  | shift => 10
  | additive => 11
  | multiplicative => 12
  | unary => 13
  | exponent => 14
  | call => 15
  | member => 16

/-- The stronger of two powers. -/
def max (a b : Power) : Power := if a.rank < b.rank then b else a

/-- The power with which a token takes the expression before it as an operand. -/
def ofKind? : Kind → Option Power
  | .kwIf => some ternary
  | .kwOr => some logicalOr
  | .kwAnd => some logicalAnd
  | .less | .lessEquals | .greater | .greaterEquals | .equals | .notEquals
  | .kwIn | .kwNot | .kwIs => some relational
  | .pipe => some bitwiseOr
  | .caret => some bitwiseXor
  | .ampersand => some bitwiseAnd
  | .shiftLeft | .shiftRight => some shift
  | .plus | .dash => some additive
  | .star | .slash | .doubleSlash | .percent | .atSign => some multiplicative
  | .doubleStar => some exponent
  | .openParen | .openBracket => some call
  | .dot => some member
  | _ => none

end Power

namespace Operator

/-- The operator that one token stands for between two operands. -/
def ofKind? : Kind → Option Operator
  | .kwOr => some or
  | .kwAnd => some and
  | .less => some lt
  | .lessEquals => some ltE
  | .greater => some gt
  | .greaterEquals => some gtE
  | .equals => some eq
  | .notEquals => some notEq
  | .kwIn => some in_
  | .pipe => some bitOr
  | .caret => some bitXor
  | .ampersand => some bitAnd
  | .shiftLeft => some lShift
  | .shiftRight => some rShift
  | .plus => some add
  | .dash => some sub
  | .star => some mul
  | .slash => some div
  | .doubleSlash => some floorDiv
  | .percent => some mod
  | .atSign => some matMul
  | .doubleStar => some pow
  | _ => none

/-- The operator of an assignment in place. -/
def ofAugmented? : Kind → Option Operator
  | .plusEquals => some add
  | .minusEquals => some sub
  | .starEquals => some mul
  | .doubleStarEquals => some pow
  | .slashEquals => some div
  | .doubleSlashEquals => some floorDiv
  | .percentEquals => some mod
  | .ampersandEquals => some bitAnd
  | .pipeEquals => some bitOr
  | .caretEquals => some bitXor
  | .shiftLeftEquals => some lShift
  | .shiftRightEquals => some rShift
  | .atEquals => some matMul
  | _ => none

end Operator

namespace Kind

/-- The tokens an expression can start with. -/
def startsExpr : Kind → Bool
  | number | identifier | string | kwTrue | kwFalse | kwNone | ellipsis | kwPrint
  | dash | plus | tilde | kwNot | kwAwait | kwLambda | kwYield
  | openParen | openBracket | openCurly => true
  | _ => false

/-- The tokens an element can start with, which may be starred. -/
def startsElement (k : Kind) : Bool := k = star || k.startsExpr

end Kind
end FlowTypes
