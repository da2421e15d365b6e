import FlowTypes.Error
import FlowTypes.Token
import FlowTypes.Tree.Expr

/-! A place in a list of tokens, and the small readers that move it. -/
namespace FlowTypes

structure Cursor where
  rest : List Token
  /-- The token that closes the list; it is read again and again once the rest is used up. -/
  last : Token
  /-- The token read most recently. -/
  previous : Token
  /-- The identity of the next node. -/
  nextId : NodeId

abbrev Parser := StateT Cursor (Except Error)

namespace Cursor

def current (c : Cursor) : Token := c.rest.headD c.last

def kind (c : Cursor) : Kind := c.current.kind

/-- The kind of the token `n` places ahead. -/
def peek (c : Cursor) (n : Nat) : Kind := (c.rest[n]?.getD c.last).kind

def position (c : Cursor) : Position := c.current.span.start

def closing (tokens : List Token) (file : String) : Token :=
  let place := (tokens.getLast?.map (·.span.stop)).getD ⟨0, file⟩
  ⟨.eof, "EOF", ⟨place, place⟩⟩

/-- The start of a list of tokens. One that does not end in the mark for the end gets it. -/
def ofTokens (tokens : List Token) (file : String) (firstId : NodeId) : Cursor :=
  let last := closing tokens file
  match tokens.getLast? with
  | some t =>
    let (rest, last) := if t.kind = .eof then (tokens, t) else (tokens ++ [last], last)
    ⟨rest, last, rest.headD last, firstId⟩
  | none => ⟨[last], last, last, firstId⟩

def unexpected (c : Cursor) : Error := ⟨.unexpectedToken c.current.value, c.position⟩

def unexpectedBecause (c : Cursor) (message : String) : Error :=
  ⟨.unexpectedTokenDetailed c.current.value message, c.position⟩

/-- Whether more than the closing token is left. -/
def hasTokens (c : Cursor) : Bool := 1 < c.rest.length && c.kind ≠ .eof

end Cursor

namespace Parser

def kind : Parser Kind := return (← get).kind

def atKind (kind : Kind) : Parser Bool := return (← get).kind = kind

def fail {α : Type} : Parser α := fun c => .error c.unexpected

def failBecause {α : Type} (message : String) : Parser α := fun c =>
  .error (c.unexpectedBecause message)

/-- Reads the current token. -/
def advance : Parser Token := fun c =>
  .ok (c.current, { c with rest := c.rest.tail, previous := c.current })

/-- Reads a token of the given kind. -/
def expect (kind : Kind) : Parser Token := do
  if ← atKind kind then advance else fail

def expectBecause (kind : Kind) (message : String) : Parser Token := do
  if ← atKind kind then advance else failBecause message

/-- Reads a token of the given kind if it is there. -/
def accept (kind : Kind) : Parser Bool := do
  if ← atKind kind then
    let _ ← advance
    return true
  else return false

/-- A new node at the given place. -/
def nodeAt (span : Span) : Parser Node := fun c =>
  .ok (⟨c.nextId, span⟩, { c with nextId := c.nextId + 1 })

/-- A new node from a start to the end of the last token read. -/
def nodeFrom (start : Position) : Parser Node := do
  nodeAt ⟨start, (← get).previous.span.stop⟩

/-- The answer of a reader that has used up its allowance. No list of tokens leads to it. -/
def exhausted {α : Type} : Parser α := fun c =>
  .error (.inFile (.unreadableFile c.position.file "there is no end to it") c.position.file)

/-- What one round of a repetition asks for. -/
inductive Round (σ ρ : Type)
  | again (state : σ)
  | done (result : ρ)

def rounds {σ ρ : Type} (step : σ → Parser (Round σ ρ)) : Nat → σ → Parser ρ
  | 0, _ => exhausted
  | n + 1, s => do
    match ← step s with
    | .again s => rounds step n s
    | .done r => return r

/-- Repeats a step that reads at least one token whenever it asks for another round. -/
def repeated {σ ρ : Type} (step : σ → Parser (Round σ ρ)) (s : σ) : Parser ρ := fun c =>
  rounds step (c.rest.length + 1) s c

/-- Collects items until there is none. -/
def collect {α : Type} (item : Parser (Option α)) : Parser (List α) :=
  repeated (fun (read : Array α) => do
    match ← item with
    | some a => return .again (read.push a)
    | none => return .done read.toList) #[]

/-- Collects items while the place allows another one. -/
def collectWhile {α : Type} (more : Cursor → Bool) (item : Parser α) : Parser (List α) :=
  collect do
    if more (← get) then some <$> item else return none

/-- Collects the items behind commas; a comma may also come last. -/
def afterCommas {α : Type} (more : Cursor → Bool) (item : Parser α) : Parser (List α) :=
  collect do
    if ← accept .comma then
      if more (← get) then some <$> item else return none
    else return none

/-- An item and the comma behind it, or the end of the items. -/
def itemRound {α : Type} (close : Kind) (item : Parser α) (read : Array α) :
    Parser (Round (Array α) (List α)) := do
  if ← atKind close then return .done read.toList
  let a ← item
  if ← accept .comma then return .again (read.push a)
  return .done (read.push a).toList

/-- Collects items with commas between them up to a closing token. -/
def upTo {α : Type} (close : Kind) (item : Parser α) : Parser (List α) :=
  repeated (itemRound close item) #[]

end Parser
end FlowTypes
