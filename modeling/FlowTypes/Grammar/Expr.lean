import FlowTypes.Grammar.Cursor
import FlowTypes.Grammar.Power

/-! The grammar of expressions. An expression is a head and everything behind it that binds more
tightly than asked for. The readers here take the reader `sub` of the expressions inside; nesting
costs at least one token, so the number of tokens left bounds its depth. -/
namespace FlowTypes.Grammar

open FlowTypes.Parser

variable (sub : Power → Parser Expr)

/-- An expression that may be starred. -/
def element (power : Power) : Parser Expr := do
  if ← atKind .star then
    let star ← advance
    let value ← sub (Power.relational.max power)
    return .starred (← nodeFrom star.span.start) value
  else sub power

/-- Elements with commas between them. One element without a comma stands for itself; anything else
is a tuple. -/
def elements (power : Power) : Parser Expr := do
  let start := (← get).position
  let first ← element sub power
  if ← atKind .comma then
    let others ← afterCommas (·.kind.startsElement) (element sub power)
    return .tuple (← nodeFrom start) (first :: others)
  else return first

def number : Parser Expr := do
  let value := (← get).current.value
  let kind := NumberKind.ofLiteral value
  if kind = .float && !isDecimalFraction (value.toList.filter (· ≠ '_')) then
    fun c => .error ⟨.malformedNumber value, c.position⟩
  else
    let token ← advance
    return .number (← nodeAt token.span) kind value

def name : Parser Expr := do
  let token ← advance
  return .name (← nodeAt token.span) token.value

/-- String literals side by side are one. -/
def strings : Parser Expr := do
  let start := (← get).position
  let parts ← collectWhile (·.kind = .string) advance
  return .string (← nodeFrom start) (String.join (parts.map (·.value)))

def constant (value : Constant) : Parser Expr := do
  let token ← advance
  return .constant (← nodeAt token.span) value

/-- An operator in front of its operand. -/
def unary (operator : Operator) (power : Power) : Parser Expr := do
  let token ← advance
  let operand ← sub power
  return .unary (← nodeAt (token.span.join operand.span)) operator operand

def await : Parser Expr := do
  let token ← advance
  let value ← sub .exponent
  return .await (← nodeFrom token.span.start) value

def yields : Parser Expr := do
  let token ← advance
  if ← accept .kwFrom then
    let value ← sub .lowest
    return .yield (← nodeFrom token.span.start) (some value) true
  else if (← get).kind.startsElement then
    let value ← elements sub .lowest
    return .yield (← nodeFrom token.span.start) (some value) false
  else return .yield (← nodeFrom token.span.start) none false

/-- An expression behind a token, if the token is there. -/
def behind (kind : Kind) : Parser (Option Expr) := do
  if ← accept kind then some <$> sub .lowest else return none

/-- Parameters up to a closing token. A lone star or slash between them is dropped. -/
def parameters (close : Kind) (hints : Bool) : Parser (List (Parameter Expr)) :=
  let named (start : Position) (kind : ParameterKind) : Parser (Parameter Expr) := do
    let token ← expectBecause .identifier "expected a parameter name"
    let hint ← if hints then behind sub .colon else pure none
    let fallback ← behind sub .assignment
    return ⟨← nodeFrom start, token.value, kind, hint, fallback⟩
  repeated (fun (read : Array (Parameter Expr)) => do
    let c ← get
    if c.kind = close then return .done read.toList
    let dropped := c.kind = .slash || (c.kind = .star && c.peek 1 ≠ .identifier)
    if c.kind = .slash || c.kind = .star || c.kind = .doubleStar then
      let _ ← advance
    if dropped then
      let _ ← accept .comma
      return .again read
    let kind := if c.kind = .star then ParameterKind.varArgs
      else if c.kind = .doubleStar then .kwArgs else .normal
    let parameter ← named c.position kind
    if ← accept .comma then return .again (read.push parameter)
    return .done (read.push parameter).toList) #[]

def lambda : Parser Expr := do
  let token ← advance
  let parameters ← parameters sub .colon false
  let _ ← expect .colon
  let body ← sub .lowest
  return .lambda (← nodeFrom token.span.start) parameters body

/-- Whether a comprehension goes on here. -/
def atClause (c : Cursor) : Bool :=
  c.kind = .kwFor || (c.kind = .kwAsync && c.peek 1 = .kwFor)

def clause : Parser (Clause Expr) := do
  let isAsync ← accept .kwAsync
  let _ ← expect .kwFor
  let target ← elements sub .relational
  let _ ← expectBecause .kwIn "expected `in` in comprehension"
  let iter ← sub .ternary
  let conditions ← collectWhile (·.kind = .kwIf) do
    let _ ← advance
    sub .ternary
  return ⟨target, iter, conditions, isAsync⟩

def clauses : Parser (List (Clause Expr)) := collectWhile atClause (clause sub)

/-- The clauses behind the element of a comprehension, and its closing bracket. -/
def comprehension (start : Position) (kind : ComprehensionKind) (element : Expr)
    (value : Option Expr) (close : Kind) : Parser Expr := do
  let clauses ← clauses sub
  let _ ← expect close
  return .comprehension (← nodeFrom start) kind element value clauses

/-- The elements behind the first one, and the closing bracket. -/
def otherElements (first : Expr) (close : Kind) : Parser (List Expr) := do
  let others ← afterCommas (·.kind ≠ close) (element sub .lowest)
  let _ ← expect close
  return first :: others

/-- A tuple, a generator, or an expression in parentheses. -/
def parenthesised : Parser Expr := do
  let start := (← advance).span.start
  if ← accept .closeParen then return .tuple (← nodeFrom start) []
  if ← atKind .kwYield then
    let value ← yields sub
    let _ ← expect .closeParen
    return value
  let first ← element sub .lowest
  if atClause (← get) then comprehension sub start .generator first none .closeParen
  else if ← atKind .comma then
    let all ← otherElements sub first .closeParen
    return .tuple (← nodeFrom start) all
  else
    let _ ← expect .closeParen
    return first

def list : Parser Expr := do
  let start := (← advance).span.start
  if ← accept .closeBracket then return .list (← nodeFrom start) []
  let first ← element sub .lowest
  if atClause (← get) then comprehension sub start .list first none .closeBracket
  else
    let all ← otherElements sub first .closeBracket
    return .list (← nodeFrom start) all

def entry : Parser (Option Expr × Expr) := do
  if ← accept .doubleStar then
    return (none, ← sub .bitwiseOr)
  else
    let key ← sub .lowest
    let _ ← expect .colon
    return (some key, ← sub .lowest)

/-- The entries behind the first one, and the closing bracket. -/
def dict (start : Position) (first : List (Option Expr × Expr)) : Parser Expr := do
  let others ← if first.isEmpty then pure []
    else afterCommas (·.kind ≠ .closeCurly) (entry sub)
  let _ ← expect .closeCurly
  return .dict (← nodeFrom start) (first ++ others)

/-- A dict or a set, which the first entry decides. -/
def braced : Parser Expr := do
  let start := (← advance).span.start
  if ← atKind .closeCurly then dict sub start []
  else if ← atKind .doubleStar then dict sub start [← entry sub]
  else
    let first ← element sub .lowest
    if ← accept .colon then
      let value ← sub .lowest
      if atClause (← get) then comprehension sub start .dict first (some value) .closeCurly
      else dict sub start [(some first, value)]
    else if atClause (← get) then comprehension sub start .set first none .closeCurly
    else
      let all ← otherElements sub first .closeCurly
      return .set (← nodeFrom start) all

/-- What an expression starts with. -/
def head : Parser Expr := do
  match ← kind with
  | .number => number
  | .identifier | .kwPrint => name
  | .string => strings
  | .kwTrue => constant .true
  | .kwFalse => constant .false
  | .kwNone => constant .none
  | .ellipsis => constant .ellipsis
  | .kwNot => unary sub .not .logicalNot
  | .plus => unary sub .pos .unary
  | .dash => unary sub .neg .unary
  | .tilde => unary sub .invert .unary
  | .kwAwait => await sub
  | .kwLambda => lambda sub
  | .kwYield => yields sub
  | .openParen => parenthesised sub
  | .openBracket => list sub
  | .openCurly => braced sub
  | _ => fail

def binary (left : Expr) (operator : Operator) (power : Power) : Parser Expr := do
  let right ← sub power
  return .binary (← nodeAt (left.span.join right.span)) operator left right

/-- A condition and the other branch behind the expression for the first branch. -/
def conditional (body : Expr) : Parser Expr := do
  let _ ← advance
  let condition ← sub .ternary
  let _ ← expectBecause .kwElse "expected `else` in conditional expression"
  let orelse ← sub .lambda
  return .conditional (← nodeAt (body.span.join orelse.span)) condition body orelse

/-- One argument of a call. A bare generator starts at the parenthesis of the call. -/
def argument (opening : Position) : Parser (Argument Expr) := do
  let c ← get
  if ← accept .star then return .star (← sub .lowest)
  if ← accept .doubleStar then return .doubleStar (← sub .lowest)
  if c.kind = .identifier && c.peek 1 = .assignment then
    let token ← advance
    let _ ← advance
    return .keyword token.value (← sub .lowest)
  let value ← sub .lowest
  if atClause (← get) then
    let clauses ← clauses sub
    return .positional (.comprehension (← nodeFrom opening) .generator value none clauses)
  return .positional value

def call (callee : Expr) : Parser Expr := do
  let opening := (← advance).span.start
  let arguments ← upTo .closeParen (argument sub opening)
  let _ ← expect .closeParen
  return .call (← nodeFrom callee.span.start) callee arguments

def bound : Parser (Option Expr) := do
  if (← get).kind.startsElement then some <$> sub .lowest else return none

/-- The bounds of a slice from its first colon on. -/
def slice (start : Position) (lower : Option Expr) : Parser Expr := do
  let _ ← expect .colon
  let upper ← bound sub
  let step ← if ← accept .colon then bound sub else pure none
  return .slice (← nodeFrom start) lower upper step

def subscriptItem : Parser Expr := do
  let start := (← get).position
  if ← atKind .colon then slice sub start none
  else
    let value ← element sub .lowest
    if ← atKind .colon then slice sub start (some value) else return value

def subscript (object : Expr) : Parser Expr := do
  let opening := (← advance).span.start
  let first ← subscriptItem sub
  let index ← if ← atKind .comma then do
      let others ← afterCommas (·.kind ≠ .closeBracket) (subscriptItem sub)
      pure (.tuple (← nodeFrom opening) (first :: others))
    else pure first
  let _ ← expect .closeBracket
  return .subscript (← nodeFrom object.span.start) object index

def member (object : Expr) : Parser Expr := do
  let _ ← advance
  if (← get).current.isNameLike then
    let token ← advance
    return .member (← nodeFrom object.span.start) object token.value token.span
  else failBecause "expected an attribute name after `.`"

/-- Reads what binds to the expression on its left. -/
def extend (left : Expr) (power : Power) : Parser Expr := do
  match ← kind with
  | .kwIf => conditional sub left
  | .openParen => call sub left
  | .openBracket => subscript sub left
  | .dot => member left
  | .doubleStar =>
    let _ ← advance
    binary sub left .pow .unary
  | .kwNot =>
    let _ ← advance
    let _ ← expectBecause .kwIn "expected `in` after `not`"
    binary sub left .notIn power
  | .kwIs =>
    let _ ← advance
    if ← accept .kwNot then binary sub left .isNot power else binary sub left .is power
  | kind =>
    match Operator.ofKind? kind with
    | some operator =>
      let _ ← advance
      binary sub left operator power
    | none => fail

/-- The operator ahead, if it binds more tightly than `power`. -/
def operatorRound (power : Power) (left : Expr) : Parser (Round Expr Expr) := do
  match Power.ofKind? (← kind) with
  | none => return .done left
  | some next =>
    if next.rank ≤ power.rank then return .done left
    else return .again (← extend sub left next)

/-- An expression whose operators all bind more tightly than `power`. -/
def exprWith (power : Power) : Parser Expr := do
  let first ← head sub
  repeated (operatorRound sub power) first

/-- Expressions nested at most so deep. -/
def exprWithin : Nat → Power → Parser Expr
  | 0, _ => exhausted
  | depth + 1, power => exprWith (fun p => exprWithin depth p) power

/-- An expression; every level of it costs a token. -/
def expr (power : Power) : Parser Expr := fun c => exprWithin (c.rest.length + 1) power c

end FlowTypes.Grammar
