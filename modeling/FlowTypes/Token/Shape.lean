import FlowTypes.Token
import FlowTypes.Token.Literal

/-! The shapes a text can start with. A shape measures how many characters of the text it covers,
none at all if the text does not start with it; the first shape that covers some is taken. -/
namespace FlowTypes

inductive Shape
  /-- Blanks, a comment, or a backslash that joins two lines. -/
  | gap
  | lineBreak
  | string
  /-- The start of a string that has no end. -/
  | openString
  | number
  | word
  | opening
  | closing
  | symbol (text : List Char) (kind : Kind)
deriving Repr, DecidableEq

namespace Shape

def isSpace (c : Char) : Bool := c = ' ' || c = '\t' || c = '\x0c'

def isBreak (c : Char) : Bool := c = '\r' || c = '\n'

/-- Length of the longest start whose characters all belong to a class. -/
def runLength (p : Char → Bool) (cs : List Char) : Nat := (cs.takeWhile p).length

def lineBreakLength : List Char → Nat
  | '\n' :: _ => 1
  | '\r' :: '\n' :: _ => 2
  | _ => 0

def gapLength : List Char → Nat
  | '#' :: cs => 1 + runLength (!isBreak ·) cs
  | '\\' :: cs => if lineBreakLength cs = 0 then 0 else 1 + lineBreakLength cs
  | cs => runLength isSpace cs

def isDigitOrBar (c : Char) : Bool := c.isDigit || c = '_'

/-- The digits of a base, by the letter that names it. -/
def baseDigit? (letter : Char) : Option (Char → Bool) :=
  if letter = 'x' || letter = 'X' then some fun c => Literal.isHexDigit c || c = '_'
  else if letter = 'o' || letter = 'O' then some fun c => ('0' ≤ c && c ≤ '7') || c = '_'
  else if letter = 'b' || letter = 'B' then some fun c => c = '0' || c = '1' || c = '_'
  else none

/-- A zero, the letter of a base and digits of that base. -/
def basedLength : List Char → Nat
  | '0' :: letter :: cs =>
    match baseDigit? letter with
    | some p => if runLength p cs = 0 then 0 else 2 + runLength p cs
    | none => 0
  | _ => 0

def exponentLength : List Char → Nat
  | e :: cs =>
    if e = 'e' || e = 'E' then
      let sign := match cs with
        | '+' :: _ | '-' :: _ => 1
        | _ => 0
      let digits := runLength Char.isDigit (cs.drop sign)
      if digits = 0 then 0 else 1 + sign + digits
    else 0
  | [] => 0

/-- Digits with bars between them; the first is a digit. -/
def wholeLength : List Char → Nat
  | c :: cs => if c.isDigit then 1 + runLength isDigitOrBar cs else 0
  | [] => 0

/-- A number written in base ten, with or without a point and an exponent. -/
def decimalLength (cs : List Char) : Nat :=
  let whole := wholeLength cs
  let fraction := match cs.drop whole with
    | '.' :: ds =>
      if whole = 0 then (if wholeLength ds = 0 then 0 else 1 + wholeLength ds)
      else 1 + runLength isDigitOrBar ds
    | _ => 0
  let mantissa := whole + fraction
  if mantissa = 0 then 0 else mantissa + exponentLength (cs.drop mantissa)

def isSuffix (c : Char) : Bool := c = 'j' || c = 'J' || c = 'l' || c = 'L'

def numberLength (cs : List Char) : Nat :=
  let n := if basedLength cs = 0 then decimalLength cs else basedLength cs
  match n, cs.drop n with
  | 0, _ => 0
  | n, c :: _ => if isSuffix c then n + 1 else n
  | n, [] => n

def isWordStart (c : Char) : Bool := c.isAlpha || c = '_'

def isWordChar (c : Char) : Bool := c.isAlphanum || c = '_'

def wordLength : List Char → Nat
  | c :: cs => if isWordStart c then 1 + runLength isWordChar cs else 0
  | [] => 0

def openingKind? : Char → Option Kind
  | '(' => some .openParen
  | '[' => some .openBracket
  | '\x7b' => some .openCurly
  | _ => none

def closingKind? : Char → Option Kind
  | ')' => some .closeParen
  | ']' => some .closeBracket
  | '\x7d' => some .closeCurly
  | _ => none

/-- How many characters at the head of a text have the shape. -/
def length : Shape → List Char → Nat
  | gap, cs => gapLength cs
  | lineBreak, cs => lineBreakLength cs
  | string, cs => Literal.length cs
  | openString, cs => if (Literal.opening? cs).isSome then 1 else 0
  | number, cs => numberLength cs
  | word, cs => wordLength cs
  | opening, cs => if (cs.head?.bind openingKind?).isSome then 1 else 0
  | closing, cs => if (cs.head?.bind closingKind?).isSome then 1 else 0
  | symbol text _, cs => if text.isPrefixOf cs then text.length else 0

/-- All shapes in the order in which they are tried. -/
def all : List Shape :=
  [gap, lineBreak, string, openString, number, word, opening, closing] ++
    Kind.symbols.map fun (text, kind) => symbol text.toList kind

/-- The first shape at the head of a text and its length, which is positive. -/
def first? (cs : List Char) : Option (Shape × Nat) :=
  all.findSome? fun s => if s.length cs = 0 then none else some (s, s.length cs)

theorem first?_pos {cs : List Char} {s : Shape} {n : Nat} (h : first? cs = some (s, n)) :
    0 < n := by
  obtain ⟨t, _, ht⟩ := List.exists_of_findSome?_eq_some h
  by_cases hz : t.length cs = 0
  · simp [hz] at ht
  · simp only [hz, if_false, Option.some.injEq, Prod.mk.injEq] at ht
    omega

end Shape
end FlowTypes
