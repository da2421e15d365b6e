import FlowTypes.Source

/-! Tokens: their kinds, the reserved words and the fixed symbols. -/
namespace FlowTypes

inductive Kind
  | eof | newline | indent | dedent
  | number | string | identifier
  | openBracket | closeBracket | openCurly | closeCurly | openParen | closeParen
  | assignment | equals | notEquals | less | lessEquals | greater | greaterEquals
  | dot | ellipsis | semicolon | colon | comma | arrow | atSign
  | plus | dash | star | doubleStar | slash | doubleSlash | percent
  | ampersand | pipe | caret | tilde | shiftLeft | shiftRight
  | plusEquals | minusEquals | starEquals | doubleStarEquals | slashEquals | doubleSlashEquals
  | percentEquals | ampersandEquals | pipeEquals | caretEquals | shiftLeftEquals
  | shiftRightEquals | atEquals
  | kwFalse | kwNone | kwTrue | kwAnd | kwAs | kwAssert | kwAsync | kwAwait | kwBreak | kwClass
  | kwContinue | kwDef | kwDel | kwElif | kwElse | kwExcept | kwFinally | kwFor | kwFrom
  | kwGlobal | kwIf | kwImport | kwIn | kwIs | kwLambda | kwNonlocal | kwNot | kwOr | kwPass
  | kwPrint | kwRaise | kwReturn | kwTry | kwWhile | kwWith | kwYield
deriving Repr, DecidableEq, Inhabited

namespace Kind

/-- An operator followed by an equals sign. -/
def isAugmented : Kind → Bool
  | plusEquals | minusEquals | starEquals | doubleStarEquals | slashEquals | doubleSlashEquals
  | percentEquals | ampersandEquals | pipeEquals | caretEquals | shiftLeftEquals
  | shiftRightEquals | atEquals => true
  | _ => false

/-- The kinds at which a logical line can end. -/
def endsLine : Kind → Bool
  | newline | semicolon | eof | dedent => true
  | _ => false

/-- The reserved words. -/
def reserved : List (String × Kind) :=
  [("False", kwFalse), ("None", kwNone), ("True", kwTrue), ("and", kwAnd), ("as", kwAs),
   ("assert", kwAssert), ("async", kwAsync), ("await", kwAwait), ("break", kwBreak),
   ("class", kwClass), ("continue", kwContinue), ("def", kwDef), ("del", kwDel),
   ("elif", kwElif), ("else", kwElse), ("except", kwExcept), ("finally", kwFinally),
   ("for", kwFor), ("from", kwFrom), ("global", kwGlobal), ("if", kwIf), ("import", kwImport),
   ("in", kwIn), ("is", kwIs), ("lambda", kwLambda), ("nonlocal", kwNonlocal), ("not", kwNot),
   ("or", kwOr), ("pass", kwPass), ("print", kwPrint), ("raise", kwRaise),
   ("return", kwReturn), ("try", kwTry), ("while", kwWhile), ("with", kwWith),
   ("yield", kwYield)]

/-- The fixed symbols. One that starts another stands behind it. -/
def symbols : List (String × Kind) :=
  [("**=", doubleStarEquals), ("//=", doubleSlashEquals), ("<<=", shiftLeftEquals),
   (">>=", shiftRightEquals), ("...", ellipsis), ("**", doubleStar), ("//", doubleSlash),
   ("<<", shiftLeft), (">>", shiftRight), ("->", arrow), ("==", equals), ("!=", notEquals),
   ("<>", notEquals), ("<=", lessEquals), (">=", greaterEquals), ("+=", plusEquals),
   ("-=", minusEquals), ("*=", starEquals), ("/=", slashEquals), ("%=", percentEquals),
   ("&=", ampersandEquals), ("|=", pipeEquals), ("^=", caretEquals), ("@=", atEquals),
   ("<", less), (">", greater), ("=", assignment), (".", dot), (";", semicolon), (":", colon),
   (",", comma), ("@", atSign), ("+", plus), ("-", dash), ("*", star), ("/", slash),
   ("%", percent), ("&", ampersand), ("|", pipe), ("^", caret), ("~", tilde)]

/-- The kind of a word. -/
def ofWord (word : String) : Kind := (reserved.lookup word).getD identifier

end Kind

structure Token where
  kind : Kind
  value : String
  span : Span
deriving Repr, DecidableEq, Inhabited

namespace Token

/-- Whether the token can stand after a dot: an identifier, or anything spelled like a reserved
word in lower case. -/
def isNameLike (t : Token) : Bool :=
  t.kind = .identifier ||
    ((Kind.reserved.lookup t.value).isSome && t.value.toList.all Char.isLower)

end Token
end FlowTypes
