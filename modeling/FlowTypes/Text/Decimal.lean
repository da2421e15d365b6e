/-! Unsigned decimal numbers of a machine word. -/
namespace FlowTypes.Text

/-- The first number a 64 bit word cannot hold. -/
def wordLimit : Nat := UInt64.size

/-- Reads ASCII digits after the number read so far; fails at the first value out of range. -/
def readDigits (value : Nat) : List Char → Option Nat
  | [] => some value
  | c :: cs =>
    if c.isDigit then
      let next := value * 10 + (c.toNat - '0'.toNat)
      if next < wordLimit then readDigits next cs else none
    else none

/-- Reads a word: digits, with at most one plus sign in front of them. -/
def readWord (text : String) : Option Nat :=
  match text.toList with
  | [] | ['+'] => none
  | '+' :: cs => readDigits 0 cs
  | cs => readDigits 0 cs

end FlowTypes.Text
