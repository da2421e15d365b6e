import FlowTypes.Text.Characters

/-! Quoted text. A quote, a backslash and the four common controls have a short escape; any other
character that cannot be shown is written by its code point. -/
namespace FlowTypes.Text

/-- How one character is written between double quotes. -/
def quoteChar (c : Char) : List Char :=
  if c = '"' then ['\\', '"']
  else if c = '\\' then ['\\', '\\']
  else if c = '\t' then ['\\', 't']
  else if c = '\r' then ['\\', 'r']
  else if c = '\n' then ['\\', 'n']
  else if c = '\x00' then ['\\', '0']
  else if isShown c then [c]
  else ['\\', 'u', '\x7b'] ++ Nat.toDigits 16 c.toNat ++ ['\x7d']

def quoteChars (cs : List Char) : List Char :=
  '"' :: cs.flatMap quoteChar ++ ['"']

/-- The text in double quotes. -/
def quote (s : String) : String := String.ofList (quoteChars s.toList)

end FlowTypes.Text
