import FlowTypes.Text.Quoted
import FlowTypes.Tree.Expr

/-! Expressions as text, close to the way they were written. -/
namespace FlowTypes.Expr

def Constant.text : Constant → String
  | .true => "True"
  | .false => "False"
  | .none => "None"
  | .ellipsis => "..."

def commas (parts : List String) : String := ", ".intercalate parts

/-- The brackets around a comprehension. -/
def comprehensionBrackets : ComprehensionKind → String × String
  | .list => ("[", "]")
  | .generator => ("(", ")")
  | .set | .dict => ("\x7b", "\x7d")

mutual

def text : Expr → String
  | number _ _ t => t
  | string _ v => Text.quote v
  | constant _ c => Constant.text c
  | name _ n => n
  | list _ es => "[" ++ commas (texts es) ++ "]"
  | tuple _ es => "(" ++ commas (texts es) ++ (if es.length = 1 then "," else "") ++ ")"
  | set _ es => "\x7b" ++ commas (texts es) ++ "\x7d"
  | dict _ es => "\x7b" ++ commas (entryTexts es) ++ "\x7d"
  | comprehension _ kind element value clauses =>
    (comprehensionBrackets kind).1 ++ text element ++ afterText ": " value ++
      clauseTexts clauses ++ (comprehensionBrackets kind).2
  | member _ object property _ => text object ++ "." ++ property
  | subscript _ object index => text object ++ "[" ++ text index ++ "]"
  | slice _ lower upper step => afterText "" lower ++ ":" ++ afterText "" upper ++ afterText ":" step
  | call _ callee arguments => text callee ++ "(" ++ commas (argumentTexts arguments) ++ ")"
  | unary _ op e => if op = .not then "not " ++ text e else op.symbol ++ text e
  | binary _ op l r => text l ++ " " ++ op.symbol ++ " " ++ text r
  | conditional _ condition body orelse =>
    text body ++ " if " ++ text condition ++ " else " ++ text orelse
  | lambda _ parameters body =>
    (match parameters with
      | [] => "lambda"
      | ps => "lambda " ++ commas (ps.map (·.name))) ++ ": " ++ text body
  | yield _ value isFrom => (if isFrom then "yield from" else "yield") ++ afterText " " value
  | await _ e => "await " ++ text e
  | starred _ e => "*" ++ text e

def texts : List Expr → List String
  | [] => []
  | e :: es => text e :: texts es

/-- The text of a part that may be missing, with what comes before it. -/
def afterText (before : String) : Option Expr → String
  | none => ""
  | some e => before ++ text e

def entryTexts : List (Option Expr × Expr) → List String
  | [] => []
  | (some key, value) :: es => (text key ++ ": " ++ text value) :: entryTexts es
  | (none, value) :: es => ("**" ++ text value) :: entryTexts es

def argumentTexts : List (Argument Expr) → List String
  | [] => []
  | .positional e :: as => text e :: argumentTexts as
  | .keyword n e :: as => (n ++ "=" ++ text e) :: argumentTexts as
  | .star e :: as => ("*" ++ text e) :: argumentTexts as
  | .doubleStar e :: as => ("**" ++ text e) :: argumentTexts as

def clauseTexts : List (Clause Expr) → String
  | [] => ""
  | ⟨target, iter, conditions, _⟩ :: cs =>
    " for " ++ text target ++ " in " ++ text iter ++ conditionTexts conditions ++ clauseTexts cs

def conditionTexts : List Expr → String
  | [] => ""
  | e :: es => " if " ++ text e ++ conditionTexts es

end

end FlowTypes.Expr
