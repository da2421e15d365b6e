import FlowTypes.Text.Attached
import FlowTypes.Text.Hidden

/-! Character classes of the reports: which characters are blank at the end of a line, and which
are shown as they are inside quotes. -/
namespace FlowTypes.Text

/-- The characters with the white space property. -/
def blankRanges : List CodeRange :=
  [⟨0x09, 0x0d⟩, ⟨0x20, 0x20⟩, ⟨0x85, 0x85⟩, ⟨0xa0, 0xa0⟩, ⟨0x1680, 0x1680⟩, ⟨0x2000, 0x200a⟩,
   ⟨0x2028, 0x2029⟩, ⟨0x202f, 0x202f⟩, ⟨0x205f, 0x205f⟩, ⟨0x3000, 0x3000⟩]

def isBlank (c : Char) : Bool := inRanges c blankRanges

/-- Drops the blank characters at the end. -/
def trimEnd (cs : List Char) : List Char :=
  (cs.reverse.dropWhile isBlank).reverse

/-- Whether quoted text shows the character itself. -/
def isShown (c : Char) : Bool := !isHidden c && !isAttached c

end FlowTypes.Text
