import FlowTypes.Error
import FlowTypes.Text.Lines
import FlowTypes.Token.Shape

/-! From text to tokens. The text is read shape by shape; at the start of a logical line its width is
compared with the widths of the open blocks, which gives the layout tokens. -/
namespace FlowTypes

/-- What has been read so far, and the text that is left. -/
structure Lexer where
  file : String
  rest : List Char
  /-- Bytes in front of `rest`. -/
  offset : Nat := 0
  /-- Open brackets; a line break inside of them means nothing. -/
  depth : Nat := 0
  /-- Widths of the open blocks, innermost first; the last is zero. -/
  widths : List Nat := [0]
  atLineStart : Bool := true
  tokens : Array Token := #[]

namespace Lexer

def position (s : Lexer) : Position := ⟨s.offset, s.file⟩

/-- The bytes of the next `n` characters. -/
def spanOf (s : Lexer) (n : Nat) : Span :=
  ⟨s.position, ⟨s.offset + Text.byteSize (s.rest.take n), s.file⟩⟩

def advance (s : Lexer) (n : Nat) : Lexer :=
  { s with rest := s.rest.drop n, offset := s.offset + Text.byteSize (s.rest.take n) }

def push (s : Lexer) (kind : Kind) (value : String) (n : Nat) : Lexer :=
  { s with tokens := s.tokens.push ⟨kind, value, s.spanOf n⟩ }

/-- One token for the next `n` characters, which are left behind. -/
def take (s : Lexer) (kind : Kind) (value : List Char) (n : Nat) : Lexer :=
  (s.push kind (String.ofList value) n).advance n

/-- Whether a line break would end a logical line here. -/
def midLine (s : Lexer) : Bool :=
  match s.tokens.back? with
  | none => false
  | some t => t.kind ≠ .newline

/-- The width after one more character of indentation. A tab goes to the next multiple of eight. -/
def widen (width : Nat) (c : Char) : Nat :=
  if c = ' ' then width + 1 else if c = '\t' then (width / 8 + 1) * 8 else 0

/-- A line without anything but a comment. -/
def isIdleLine (cs : List Char) : Bool :=
  cs.isEmpty || cs.head? = some '#' || Shape.lineBreakLength cs ≠ 0

def pushDedents (s : Lexer) : Nat → Lexer
  | 0 => s
  | n + 1 => (s.push .dedent "" 0).pushDedents n

/-- Compares the width of a new line with the open blocks. A wider line opens a block; a narrower
one closes blocks and has to meet one that is still open. -/
def openLine (s : Lexer) : Except Error Lexer :=
  let blank := s.rest.takeWhile Shape.isSpace
  let n := blank.length
  let s := { s with atLineStart := false }
  if isIdleLine (s.rest.drop n) then .ok (s.advance n)
  else
    let width := blank.foldl widen 0
    let outer := s.widths.dropWhile (· > width)
    if s.widths.headD 0 < width then
      .ok (({ s with widths := width :: s.widths }.push .indent "" n).advance n)
    else if outer.headD 0 ≠ width then
      .error ⟨.inconsistentDedent, (s.advance n).position⟩
    else
      .ok (({ s with widths := outer }.pushDedents (s.widths.length - outer.length)).advance n)

/-- Ends the line, unless it is empty or inside brackets. -/
def closeLine (s : Lexer) (n : Nat) : Lexer :=
  if s.depth = 0 then
    { (if s.midLine then s.push .newline "\\n" n else s).advance n with atLineStart := true }
  else s.advance n

/-- Reads what stands at the head of the text. -/
def readShape (s : Lexer) : Shape → Nat → Except Error Lexer
  | .gap, n => .ok (s.advance n)
  | .lineBreak, n => .ok (s.closeLine n)
  | .string, n => .ok (s.take .string (Literal.value (s.rest.take n)) n)
  | .openString, _ => .error ⟨.unterminatedString, s.position⟩
  | .number, n => .ok (s.take .number (s.rest.take n) n)
  | .word, n => .ok (s.take (Kind.ofWord (String.ofList (s.rest.take n))) (s.rest.take n) n)
  | .opening, n =>
    let kind := (s.rest.head?.bind Shape.openingKind?).getD .openCurly
    .ok { s.take kind (s.rest.take n) n with depth := s.depth + 1 }
  | .closing, n =>
    let kind := (s.rest.head?.bind Shape.closingKind?).getD .closeCurly
    .ok { s.take kind (s.rest.take n) n with depth := s.depth - 1 }
  | .symbol text kind, n => .ok (s.take kind text n)

/-- Reads the first shape of the text. -/
def readHead (s : Lexer) : Except Error Lexer :=
  match s.rest with
  | [] => .ok s
  | c :: _ =>
    match Shape.first? s.rest with
    | some (shape, n) => s.readShape shape n
    | none => .error ⟨.unrecognisedToken (String.singleton c), s.position⟩

/-- Reads one shape; at the start of a line its indentation comes first. -/
def step (s : Lexer) : Except Error Lexer :=
  if s.atLineStart && s.depth = 0 then s.openLine.bind readHead else s.readHead

@[simp] theorem rest_advance (s : Lexer) (n : Nat) : (s.advance n).rest = s.rest.drop n := rfl

@[simp] theorem rest_push (s : Lexer) (k : Kind) (v : String) (n : Nat) :
    (s.push k v n).rest = s.rest := rfl

@[simp] theorem rest_take (s : Lexer) (k : Kind) (v : List Char) (n : Nat) :
    (s.take k v n).rest = s.rest.drop n := rfl

@[simp] theorem rest_pushDedents (s : Lexer) (n : Nat) : (s.pushDedents n).rest = s.rest := by
  induction n generalizing s with
  | zero => rfl
  | succ n ih => simp [pushDedents, ih]

@[simp] theorem rest_closeLine (s : Lexer) (n : Nat) : (s.closeLine n).rest = s.rest.drop n := by
  unfold closeLine
  split
  · split <;> rfl
  · rfl

/-- Reading a shape leaves the text behind it. -/
theorem rest_readShape {s t : Lexer} {shape : Shape} {n : Nat} (h : s.readShape shape n = .ok t) :
    t.rest = s.rest.drop n := by
  cases shape <;> simp only [readShape, Except.ok.injEq, reduceCtorEq] at h <;> subst h <;> simp

/-- The indentation is part of the text. -/
theorem rest_openLine {s t : Lexer} (h : s.openLine = .ok t) :
    t.rest = s.rest.drop (s.rest.takeWhile Shape.isSpace).length := by
  simp only [openLine] at h
  split at h
  · cases h; rfl
  · split at h
    · cases h; rfl
    · split at h
      · cases h
      · cases h; simp

/-- Reading the head of a text leaves less of it. -/
theorem readHead_shorter {s t : Lexer} (hs : s.rest ≠ []) (h : s.readHead = .ok t) :
    t.rest.length < s.rest.length := by
  have hpos : 0 < s.rest.length := List.length_pos_iff.mpr hs
  unfold readHead at h
  split at h
  · contradiction
  · split at h
    · next shape n hfirst =>
      have := Shape.first?_pos hfirst
      rw [rest_readShape h, List.length_drop]
      omega
    · cases h

/-- Every step leaves less text than it found. -/
theorem step_shorter {s t : Lexer} (hs : s.rest ≠ []) (h : s.step = .ok t) :
    t.rest.length < s.rest.length := by
  unfold step at h
  split at h
  · cases ho : s.openLine with
    | error e => simp [ho, Except.bind] at h
    | ok u =>
      have hu : u.rest.length ≤ s.rest.length := by simp [rest_openLine ho]
      simp only [ho, Except.bind] at h
      by_cases he : u.rest = []
      · simp only [readHead, he, Except.ok.injEq] at h
        subst h
        rw [he]
        exact List.length_pos_iff.mpr hs
      · exact Nat.lt_of_lt_of_le (readHead_shorter he h) hu
  · exact readHead_shorter hs h

/-- Reads the whole text. -/
def run (s : Lexer) : Except Error Lexer :=
  if _h : s.rest = [] then .ok s
  else
    match _hs : s.step with
    | .error e => .error e
    | .ok t => run t
termination_by s.rest.length
decreasing_by exact step_shorter _h _hs

theorem run_eq (s : Lexer) : s.run = if s.rest = [] then .ok s else s.step.bind run := by
  rw [run]
  split
  · rfl
  · split
    · next failed => rw [failed]; rfl
    · next moved => rw [moved]; rfl

/-- Ends the last line and closes every block that is still open. -/
def finish (s : Lexer) : Array Token :=
  let s := if s.midLine then s.push .newline "" 0 else s
  ((s.pushDedents (s.widths.length - 1)).push .eof "EOF" 0).tokens

end Lexer

/-- The tokens of a text. -/
def tokenize (source : String) (file : String := "shell") : Except Error (Array Token) :=
  (Lexer.run { file, rest := source.toList }).map Lexer.finish

end FlowTypes
