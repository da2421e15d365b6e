import FlowTypes.Source

/-! What an analysis has to say about a program. Nothing of it stops the analysis: what could not be
understood has an unknown type. -/
namespace FlowTypes

inductive Category
  | info
  | warning
  | error
deriving Repr, DecidableEq

def Category.text : Category → String
  | info => "info"
  | warning => "warning"
  | error => "error"

structure Diagnostic where
  category : Category
  span : Span
  message : String
deriving Repr, DecidableEq

def Diagnostic.text (d : Diagnostic) : String :=
  s!"{d.span.file}:{d.span.start.offset}: {d.category.text}: {d.message}"

end FlowTypes
