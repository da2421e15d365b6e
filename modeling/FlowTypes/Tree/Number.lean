/-! Number literals: their kinds, read off the spelling, and the spellings of decimal fractions. -/
namespace FlowTypes

inductive NumberKind
  | int
  | long
  | float
  | imaginary
deriving Repr, DecidableEq

namespace NumberKind

/-- The kind of a literal, by its suffix first and its shape second. -/
def ofLiteral (literal : String) : NumberKind :=
  let cs := literal.toList.map Char.toLower
  if cs.getLast? = some 'j' then .imaginary
  else if cs.getLast? = some 'l' then .long
  else if cs.take 2 ∈ [['0', 'x'], ['0', 'o'], ['0', 'b']] then .int
  else if cs.contains '.' || cs.contains 'e' then .float
  else .int

end NumberKind

/-- Whether a text spells a decimal fraction: a sign, digits on at least one side of an optional
point, and an optional exponent. -/
def isDecimalFraction (text : List Char) : Bool :=
  let unsigned := match text with
    | '+' :: cs | '-' :: cs => cs
    | cs => cs
  let whole := unsigned.takeWhile Char.isDigit
  let afterWhole := unsigned.dropWhile Char.isDigit
  let (fraction, rest) := match afterWhole with
    | '.' :: cs => (cs.takeWhile Char.isDigit, cs.dropWhile Char.isDigit)
    | cs => ([], cs)
  let exponent := match rest with
    | [] => true
    | e :: cs =>
      let digits := match cs with
        | '+' :: ds | '-' :: ds => ds
        | ds => ds
      (e = 'e' || e = 'E') && !digits.isEmpty && digits.all Char.isDigit
  (!whole.isEmpty || !fraction.isEmpty) && exponent

end FlowTypes
