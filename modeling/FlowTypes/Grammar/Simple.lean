import FlowTypes.Grammar.Expr
import FlowTypes.Tree.Display
import FlowTypes.Tree.Stmt

/-! Statements on one line. -/
namespace FlowTypes.Grammar

open FlowTypes.Parser

/-- The end of a statement: a semicolon, a line end, or nothing where the block ends anyway. -/
def terminator : Parser Unit := do
  match ← kind with
  | .semicolon =>
    let _ ← advance
    let _ ← accept .newline
  | .newline =>
    let _ ← advance
  | .eof | .dedent => return ()
  | _ => failBecause "expected the end of the statement"

/-- The error of an expression that cannot be assigned to. -/
def badTarget (target : Expr) : Error := ⟨.invalidTarget target.text, target.span.start⟩

def checkTarget (target : Expr) : Parser Unit :=
  if target.isAssignable then return () else throw (badTarget target)

/-- What stands on the right of an assignment. -/
def assigned : Parser Expr := do
  if ← atKind .kwYield then yields expr else elements expr .lowest

def assignment (start : Position) (first : Expr) : Parser Stmt := do
  let others ← collectWhile (·.kind = .assignment) do
    let _ ← advance
    assigned
  let all := first :: others
  let targets := all.dropLast
  let value := others.getLast?.getD first
  targets.forM checkTarget
  return .assign (← nodeFrom start) targets value

def augmented (start : Position) (target : Expr) (operator : Operator) : Parser Stmt := do
  if target.isPlace then
    let _ ← advance
    let value ← assigned
    return .augment (← nodeFrom start) target operator value
  else throw (badTarget target)

def declaration (start : Position) (target : Expr) : Parser Stmt := do
  checkTarget target
  let _ ← advance
  let hint ← expr .lowest
  let value ← if ← accept .assignment then some <$> assigned else pure none
  return .declare (← nodeFrom start) target hint value

/-- An expression, or an assignment to it. -/
def expressionStmt : Parser Stmt := do
  let start := (← get).position
  let first ← assigned
  let kind ← kind
  let stmt ←
    if kind = .assignment then assignment start first
    else match Operator.ofAugmented? kind with
      | some operator => augmented start first operator
      | none =>
        if kind = .colon then declaration start first
        else do pure (.expression (← nodeAt first.span) first)
  terminator
  return stmt

def returnStmt : Parser Stmt := do
  let start := (← advance).span.start
  let value ← if (← get).kind.startsElement then some <$> elements expr .lowest else pure none
  terminator
  return .returns (← nodeFrom start) value

/-- A statement of one word. -/
def wordStmt (make : Node → Stmt) : Parser Stmt := do
  let token ← advance
  terminator
  return make (← nodeAt token.span)

/-- What an exception comes from, if it is said behind it. -/
def raiseCause : Parser (Option Expr) := do
  if ← accept .kwFrom then some <$> expr .lowest
  else if ← accept .comma then some <$> elements expr .lowest
  else return none

def raiseStmt : Parser Stmt := do
  let start := (← advance).span.start
  let (exception, cause) ←
    if (← get).kind.startsElement then do
      let exception ← expr .lowest
      let cause ← raiseCause
      pure (some exception, cause)
    else pure (none, none)
  terminator
  return .raise (← nodeFrom start) exception cause

def assertStmt : Parser Stmt := do
  let start := (← advance).span.start
  let test ← expr .lowest
  let message ← behind expr .comma
  terminator
  return .assert (← nodeFrom start) test message

def deleteStmt : Parser Stmt := do
  let start := (← advance).span.start
  let targets := match ← elements expr .lowest with
    | .tuple _ targets => targets
    | target => [target]
  terminator
  return .delete (← nodeFrom start) targets

def identifier : Parser String := return (← expect .identifier).value

def nameList : Parser (List String) := do
  let first ← identifier
  let others ← afterCommas (fun _ => true) identifier
  return first :: others

def namesStmt (make : Node → List String → Stmt) : Parser Stmt := do
  let start := (← advance).span.start
  let names ← nameList
  terminator
  return make (← nodeFrom start) names

def modulePart (message : String) : Parser String := do
  if (← get).current.isNameLike then return (← advance).value else failBecause message

def dottedName : Parser String := do
  let first ← modulePart "expected a module name"
  let others ← collectWhile (·.kind = .dot) do
    let _ ← advance
    modulePart "expected a module name after `.`"
  return ".".intercalate (first :: others)

def aliasOf (name : Parser String) : Parser Alias := do
  let start := (← get).position
  let name ← name
  let newName ← if ← accept .kwAs then some <$> identifier else pure none
  return ⟨← nodeFrom start, name, newName⟩

def importStmt : Parser Stmt := do
  let start := (← advance).span.start
  let first ← aliasOf dottedName
  let others ← afterCommas (fun _ => true) (aliasOf dottedName)
  terminator
  return .imports (← nodeFrom start) (first :: others)

/-- How many levels up the dots in front of a module name lead. -/
def importLevel : Parser Nat := do
  let dots ← collectWhile (fun c => c.kind = .dot || c.kind = .ellipsis) do
    let token ← advance
    return if token.kind = .dot then 1 else 3
  return dots.foldl Nat.add 0

/-- The names of an import, and whether it brings in all of them. -/
def importedNames : Parser (List Alias × Bool) := do
  if ← accept .star then return ([], true)
  if ← accept .openParen then
    let names ← upTo .closeParen (aliasOf identifier)
    let _ ← expect .closeParen
    return (names, false)
  let first ← aliasOf identifier
  let others ← afterCommas (fun _ => true) (aliasOf identifier)
  return (first :: others, false)

def importFromStmt : Parser Stmt := do
  let start := (← advance).span.start
  let level ← importLevel
  let source ← if ← atKind .kwImport then pure "" else dottedName
  let _ ← expectBecause .kwImport "expected `import`"
  let (names, isStar) ← importedNames
  terminator
  return .importFrom (← nodeFrom start) source level names isStar

/-- The values of a print statement, and whether a comma ends them. -/
def printedValues : Parser (List Expr × Bool) :=
  repeated (fun (read : Array Expr × Bool) => do
    if !(← get).kind.startsElement then return .done (read.1.toList, read.2)
    let value ← expr .lowest
    if ← accept .comma then return .again (read.1.push value, true)
    return .done ((read.1.push value).toList, false)) (#[], false)

/-- The statement form of printing. Before a parenthesis, an equals sign or a dot the word is a name
like any other. -/
def printStmt : Parser Stmt := do
  let next := (← get).peek 1
  if next = .openParen || next = .assignment || next = .dot then expressionStmt
  else
    let start := (← advance).span.start
    let destination ←
      if ← accept .shiftRight then do
        let value ← expr .lowest
        let _ ← accept .comma
        pure (some value)
      else pure none
    let (values, trailingComma) ← printedValues
    terminator
    return .print (← nodeFrom start) destination values trailingComma

end FlowTypes.Grammar
