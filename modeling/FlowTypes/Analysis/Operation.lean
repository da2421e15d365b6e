import FlowTypes.Analysis.Walker

/-! Types of operations. -/
namespace FlowTypes.Walker

open Analysis

variable (w : Walker)

/-- The type of numbers of a rank. -/
def numberOfRank : Nat → TypeId
  | 0 => .int
  | 1 => .float
  | _ => .complex

/-- An operation that an instance defines by a method. -/
def operatorMethod (object : TypeId) (name : Option String) (args : CallArgs) (span : Span) :
    Analysis TypeId :=
  match name with
  | some name => w.resultOf object name args span
  | none => return .unknown

/-- An operation on values that are not both numbers. -/
def binaryOther (left : TypeId) (op : Operator) (right : TypeId) (span : Span) :
    Analysis TypeId := do
  match ← typeOf left, ← typeOf right, op with
  | .unknown, _, _ | _, .unknown, _ => return .unknown
  | .str, .str, .add | .str, _, .mod | .str, .int, .mul | .int, .str, .mul => return .str
  | .list l, .list r, .add => newListOf (← union l.element r.element)
  | .list _, .int, .mul => return left
  | .int, .list _, .mul => return right
  | .tuple l, .tuple r, .add => newTuple (l.elements ++ r.elements)
  | .tuple _, .int, .mul => return left
  | .instanceOf _, _, _ => w.operatorMethod left op.method? (.of [right]) span
  | _, .instanceOf _, _ => w.operatorMethod right op.reflectedMethod? (.of [left]) span
  | _, _, _ => return .unknown

/-- An operation on two alternatives. Numbers give the wider of their kinds. -/
def binaryPair (op : Operator) (span : Span) (pair : TypeId × TypeId) : Analysis TypeId := do
  let (left, right) := pair
  match (← typeOf left).numericRank?, (← typeOf right).numericRank? with
  | some l, some r => return numberOfRank (max l r)
  | _, _ => w.binaryOther left op right span

/-- The type of an operation on two values. -/
def binary (left : TypeId) (op : Operator) (right : TypeId) (span : Span) : Analysis TypeId := do
  if op = .and || op = .or then union left right
  else if op.isComparison then return .bool
  else
    let lefts ← alternatives left
    let rights ← alternatives right
    unionOver (lefts.flatMap fun l => rights.map fun r => (l, r)) (w.binaryPair op span)

/-- The type of an operation on one value. -/
def unary (op : Operator) (operand : TypeId) (span : Span) : Analysis TypeId := do
  if op = .not then return .bool
  else
    unionOver (← alternatives operand) fun alternative => do
      match ← typeOf alternative with
      | .bool _ => return .int
      | .int | .float | .complex => return alternative
      | .instanceOf _ => w.operatorMethod alternative op.method? {} span
      | _ => return .unknown

end FlowTypes.Walker
