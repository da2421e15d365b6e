/-! Lines of a text and the line that holds a byte offset. A line keeps its line feed. -/
namespace FlowTypes.Text

/-- Length of a text in bytes. -/
def byteSize (cs : List Char) : Nat := cs.foldl (fun n c => n + c.utf8Size) 0

/-- The text up to and with its first line feed. -/
def firstLine (cs : List Char) : List Char :=
  let body := cs.takeWhile (· ≠ '\n')
  cs.take (body.length + 1)

theorem firstLine_length_pos {cs : List Char} (h : cs ≠ []) : 0 < (firstLine cs).length := by
  cases cs with
  | nil => contradiction
  | cons c cs => simp [firstLine]

/-- A byte offset as a reader looks for it: the number of its line, counted from one, the line,
and the offset inside the line. -/
structure LineAt where
  number : Nat
  line : List Char
  offset : Nat
deriving Repr, DecidableEq

/-- Searches the lines of `cs`, the first of which has the given number. -/
def findLine (number offset : Nat) (cs : List Char) : Option LineAt :=
  if _h : cs = [] then none
  else
    let line := firstLine cs
    if offset < byteSize line then some ⟨number, line, offset⟩
    else findLine (number + 1) (offset - byteSize line) (cs.drop line.length)
termination_by cs.length
decreasing_by
  have := firstLine_length_pos _h
  have : 0 < cs.length := List.length_pos_iff.mpr _h
  simp only [List.length_drop]
  omega

/-- The line that holds a byte offset; none past the end of the text. -/
def lineAt (text : String) (offset : Nat) : Option LineAt := findLine 1 offset text.toList

end FlowTypes.Text
