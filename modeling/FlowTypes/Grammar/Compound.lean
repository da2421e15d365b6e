import FlowTypes.Grammar.Simple
import FlowTypes.Token.Lexer

/-! Statements with blocks, and whole modules. The readers here take those of the statements inside;
a block costs at least the token that opens it, so the number of tokens left bounds the nesting. -/
namespace FlowTypes.Grammar

open FlowTypes.Parser

/-- Readers of nested statements: any statement, and a branch from its `if` or `elif` on. -/
structure Nested where
  stmt : Parser Stmt
  branch : Parser Stmt

variable (sub : Nested)

/-- Statements on the rest of the line, with semicolons between them. -/
def lineBlock : Parser (List Stmt) := do
  let first ← sub.stmt
  let others ← collectWhile (fun c => c.previous.kind = .semicolon &&
    c.kind ≠ .newline && c.kind ≠ .eof && c.kind ≠ .dedent) sub.stmt
  return first :: others

/-- Statements until a place where the block ends; empty lines between them say nothing. -/
def statementsUntil (ends : Cursor → Bool) : Parser (List Stmt) :=
  repeated (fun (read : Array Stmt) => do
    if ends (← get) then return .done read.toList
    if ← accept .newline then return .again read
    return .again (read.push (← sub.stmt))) #[]

/-- A colon and the block behind it, on the same line or indented. -/
def block : Parser (List Stmt) := do
  let _ ← expectBecause .colon "expected `:`"
  if ← accept .newline then
    let _ ← expectBecause .indent "expected an indented block"
    let body ← statementsUntil sub fun c => c.kind = .dedent || c.kind = .eof
    let _ ← accept .dedent
    return body
  else lineBlock sub

/-- A block behind a word, empty if the word is missing. -/
def blockBehind (word : Kind) : Parser (List Stmt) := do
  if ← accept word then block sub else return []

def branchStmt : Parser Stmt := do
  let start := (← advance).span.start
  let condition ← expr .lowest
  let thenBody ← block sub
  let elseBody ←
    if ← atKind .kwElif then do pure [← sub.branch]
    else blockBehind sub .kwElse
  return .branch (← nodeFrom start) condition thenBody elseBody

def whileStmt : Parser Stmt := do
  let start := (← advance).span.start
  let condition ← expr .lowest
  let body ← block sub
  let elseBody ← blockBehind sub .kwElse
  return .whileLoop (← nodeFrom start) condition body elseBody

def forStmt (start : Position) (isAsync : Bool) : Parser Stmt := do
  let _ ← expect .kwFor
  let target ← elements expr .relational
  checkTarget target
  let _ ← expectBecause .kwIn "expected `in` in for statement"
  let iter ← elements expr .lowest
  let body ← block sub
  let elseBody ← blockBehind sub .kwElse
  return .forLoop (← nodeFrom start) target iter body elseBody isAsync

def handler : Parser (Handler Stmt) := do
  let start := (← advance).span.start
  let exception ← if ← atKind .colon then pure none else some <$> expr .lowest
  let c ← get
  let name ←
    if c.kind = .kwAs || c.kind = .comma then do
      let _ ← advance
      some <$> identifier
    else pure none
  let body ← block sub
  return ⟨← nodeFrom start, exception, name, body⟩

def tryStmt : Parser Stmt := do
  let start := (← advance).span.start
  let body ← block sub
  let handlers ← collectWhile (·.kind = .kwExcept) (handler sub)
  let elseBody ← blockBehind sub .kwElse
  let finallyBody ← blockBehind sub .kwFinally
  if handlers.isEmpty && finallyBody.isEmpty then
    failBecause "expected `except` or `finally` after `try`"
  else return .tryBlock (← nodeFrom start) body handlers elseBody finallyBody

def withItem : Parser WithItem := do
  let context ← expr .lowest
  if ← accept .kwAs then
    let target ← expr .lowest
    checkTarget target
    return ⟨context, some target⟩
  else return ⟨context, none⟩

def withStmt (start : Position) (isAsync : Bool) : Parser Stmt := do
  let _ ← expect .kwWith
  let first ← withItem
  let others ← afterCommas (fun _ => true) withItem
  let body ← block sub
  return .withBlock (← nodeFrom start) (first :: others) body isAsync

def functionStmt (start : Position) (decorators : List Expr) (isAsync : Bool) : Parser Stmt := do
  let _ ← expect .kwDef
  let name ← expectBecause .identifier "expected a function name"
  let _ ← expect .openParen
  let parameters ← parameters expr .closeParen true
  let _ ← expect .closeParen
  let returns ← behind expr .arrow
  let body ← block sub
  return .function ⟨← nodeFrom start, name.value, name.span, decorators, parameters, returns,
    isAsync, body⟩

/-- One base of a class. A keyword or starred argument is read and names none. -/
def base : Parser (Option Expr) := do
  let c ← get
  if c.kind = .identifier && c.peek 1 = .assignment then
    let _ ← advance
    let _ ← advance
    let _ ← expr .lowest
    return none
  else if c.kind = .star || c.kind = .doubleStar then
    let _ ← advance
    let _ ← expr .lowest
    return none
  else some <$> expr .lowest

def classStmt (start : Position) (decorators : List Expr) : Parser Stmt := do
  let _ ← expect .kwClass
  let name ← expectBecause .identifier "expected a class name"
  let bases ←
    if ← accept .openParen then do
      let bases ← upTo .closeParen base
      let _ ← expect .closeParen
      pure (bases.filterMap fun b => b)
    else pure []
  let body ← block sub
  return .classDef ⟨← nodeFrom start, name.value, name.span, decorators, bases, body⟩

def decoratedStmt : Parser Stmt := do
  let start := (← get).position
  let decorators ← collectWhile (·.kind = .atSign) do
    let _ ← advance
    let decorator ← expr .lowest
    let _ ← expect .newline
    return decorator
  match ← kind with
  | .kwDef => functionStmt sub start decorators false
  | .kwClass => classStmt sub start decorators
  | .kwAsync =>
    let _ ← advance
    functionStmt sub start decorators true
  | _ => failBecause "expected `def` or `class` after decorators"

def asyncStmt : Parser Stmt := do
  let start := (← advance).span.start
  match ← kind with
  | .kwDef => functionStmt sub start [] true
  | .kwFor => forStmt sub start true
  | .kwWith => withStmt sub start true
  | _ => failBecause "expected `def`, `for` or `with` after `async`"

/-- A statement, chosen by its first token. -/
def stmtWith : Parser Stmt := do
  let start := (← get).position
  match ← kind with
  | .kwReturn => returnStmt
  | .kwPass => wordStmt .pass
  | .kwBreak => wordStmt .breakLoop
  | .kwContinue => wordStmt .continueLoop
  | .kwRaise => raiseStmt
  | .kwAssert => assertStmt
  | .kwDel => deleteStmt
  | .kwGlobal => namesStmt .globals
  | .kwNonlocal => namesStmt .nonlocals
  | .kwImport => importStmt
  | .kwFrom => importFromStmt
  | .kwPrint => printStmt
  | .kwIf => branchStmt sub
  | .kwWhile => whileStmt sub
  | .kwFor => forStmt sub start false
  | .kwTry => tryStmt sub
  | .kwWith => withStmt sub start false
  | .kwDef => functionStmt sub start [] false
  | .kwClass => classStmt sub start []
  | .atSign => decoratedStmt sub
  | .kwAsync => asyncStmt sub
  | _ => expressionStmt

/-- Statements nested at most so deep. -/
def nestedWithin : Nat → Nested
  | 0 => ⟨exhausted, exhausted⟩
  | depth + 1 =>
    ⟨fun c => stmtWith (nestedWithin depth) c, fun c => branchStmt (nestedWithin depth) c⟩

/-- The readers of nested statements with room for every token left. -/
def nested (c : Cursor) : Nested := nestedWithin (c.rest.length + 1)

def stmt : Parser Stmt := fun c => (nested c).stmt c

/-- The statements of a file. The module gets the first identity. -/
def module (file : String) : Parser Module := do
  let node ← nodeAt ⟨⟨0, file⟩, ⟨0, file⟩⟩
  let body ← statementsUntil (nested (← get)) fun c => !c.hasTokens
  return ⟨⟨node.id, ⟨⟨0, file⟩, (← get).position⟩⟩, file, body⟩

end FlowTypes.Grammar

namespace FlowTypes.Module

/-- Reads a module off its tokens, and the first identity that it leaves free. -/
def ofTokens (tokens : List Token) (file : String) (firstId : NodeId) :
    Except Error (Module × NodeId) := do
  let (m, c) ← Grammar.module file (Cursor.ofTokens tokens file firstId)
  return (m, c.nextId)

/-- Reads a module off the text of a file. -/
def parse (source file : String) (firstId : NodeId) : Except Error (Module × NodeId) := do
  let tokens ← tokenize source file
  ofTokens tokens.toList file firstId

end FlowTypes.Module
