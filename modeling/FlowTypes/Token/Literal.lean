/-! String literals: where one ends and what it stands for. -/
namespace FlowTypes.Literal

/-- The letters that may stand in front of a quote. -/
def isMark (c : Char) : Bool := "rRbBuUfF".toList.contains c

def isQuote (c : Char) : Bool := c = '"' || c = '\x27'

/-- At most two marks and the quote after them: how many marks, and which quote. -/
def opening? (cs : List Char) : Option (Nat × Char) :=
  let marks := ((cs.take 2).takeWhile isMark).length
  match cs.drop marks with
  | c :: _ => if isQuote c then some (marks, c) else none
  | [] => none

/-- Characters up to and with the first three quotes in a row, after `n` others. -/
def closeTriple (q : Char) (n : Nat) : List Char → Option Nat
  | [] => none
  | c :: cs =>
    if c = q && cs.take 2 = [q, q] then some (n + 3) else closeTriple q (n + 1) cs

/-- Characters up to and with the first quote that no backslash precedes, after `n` others. A line
break ends the search unless a backslash precedes it. -/
def closeSingle (q : Char) (n : Nat) : List Char → Option Nat
  | [] => none
  | '\\' :: _ :: cs => closeSingle q (n + 2) cs
  | c :: cs =>
    if c = q then some (n + 1)
    else if c = '\\' || c = '\r' || c = '\n' then none
    else closeSingle q (n + 1) cs

/-- Length of a body that starts at its opening quote: in three quotes if it can be, else in one. -/
def bodyLength? (q : Char) (cs : List Char) : Option Nat :=
  if cs.take 3 = [q, q, q] then
    (closeTriple q 3 (cs.drop 3)).or (closeSingle q 1 (cs.drop 1))
  else closeSingle q 1 (cs.drop 1)

/-- Length of the literal at the head of a text, zero if there is none. -/
def length (cs : List Char) : Nat :=
  match opening? cs with
  | none => 0
  | some (marks, q) =>
    match bodyLength? q (cs.drop marks) with
    | none => 0
    | some n => marks + n

def isHexDigit (c : Char) : Bool :=
  c.isDigit || ('a' ≤ c && c ≤ 'f') || ('A' ≤ c && c ≤ 'F')

def hexValue (c : Char) : Nat :=
  if c.isDigit then c.toNat - '0'.toNat
  else if 'a' ≤ c && c ≤ 'f' then c.toNat - 'a'.toNat + 10
  else c.toNat - 'A'.toNat + 10

/-- The characters with an escape of one letter. -/
def escapes : List (Char × Char) :=
  [('n', '\n'), ('t', '\t'), ('r', '\r'), ('0', '\x00'), ('a', '\x07'), ('b', '\x08'),
   ('f', '\x0c'), ('v', '\x0b'), ('\\', '\\'), ('\x27', '\x27'), ('"', '"')]

/-- What the characters between the quotes stand for. A backslash before a line feed drops both; one
before a character without a meaning of its own stays. -/
def unescape : List Char → List Char
  | [] => []
  | ['\\'] => ['\\']
  | '\\' :: c :: cs =>
    if c = '\n' then unescape cs
    else if c = 'x' then
      match (cs.take 2).takeWhile isHexDigit with
      | [] => '\\' :: 'x' :: unescape cs
      | ds => Char.ofNat (ds.foldl (fun n d => n * 16 + hexValue d) 0)
          :: unescape (cs.drop ds.length)
    else
      match escapes.lookup c with
      | some e => e :: unescape cs
      | none => '\\' :: c :: unescape cs
  | c :: cs => c :: unescape cs
termination_by cs => cs.length
decreasing_by all_goals simp only [List.length_cons, List.length_drop]; omega

/-- The value of a whole literal. -/
def value (literal : List Char) : List Char :=
  let marks := literal.takeWhile (!isQuote ·)
  let body := literal.drop marks.length
  let width :=
    if body.take 3 = ['"', '"', '"'] || body.take 3 = ['\x27', '\x27', '\x27'] then 3 else 1
  let content := (body.drop width).take (body.length - 2 * width)
  if marks.contains 'r' || marks.contains 'R' then content else unescape content

end FlowTypes.Literal
