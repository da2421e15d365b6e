import FlowTypes.Error
import FlowTypes.Text.Decimal

/-! Settings of a run and how they are read from arguments. -/
namespace FlowTypes

/-- Bounds of a signature table. -/
structure Limits where
  maxArrows : Nat := 5
  /-- Longest printed signature in bytes, if there is a bound. -/
  maxChars : Option Nat := some 900
deriving Repr, DecidableEq, Inhabited

structure Options where
  limits : Limits := {}
  /-- Leaves the diagnostics out of the report. -/
  quiet : Bool := false
  /-- Adds the type of every node to the report. -/
  dumpTypes : Bool := false
deriving Repr, DecidableEq, Inhabited

namespace Options

def invalid (argument : String) : Error := ⟨.invalidOption argument, .null⟩

/-- Reads the number that follows an option. -/
def number (argument value : String) : Except Error Nat :=
  match Text.readWord value with
  | some n => .ok n
  | none => .error (invalid argument)

/-- The name of an option, which any number of dashes may precede; none for a plain argument. -/
def optionName (argument : String) : Option String :=
  match argument.toList with
  | '-' :: c :: cs => some (String.ofList ((c :: cs).dropWhile (· = '-')))
  | _ => none

/-- Reads arguments from left to right; the first one that is wrong is reported. -/
def parseFrom (options : Options) (paths : List String) :
    List String → Except Error (Options × List String)
  | [] => .ok (options, paths.reverse)
  | argument :: rest =>
    match optionName argument with
    | none => parseFrom options (argument :: paths) rest
    | some name =>
      if name = "quiet" ∨ name = "q" then parseFrom { options with quiet := true } paths rest
      else if name = "dump-types" then parseFrom { options with dumpTypes := true } paths rest
      else if name = "max-arrows" then
        match rest with
        | [] => .error (invalid argument)
        | value :: rest => do
          let n ← number argument value
          parseFrom { options with limits := { options.limits with maxArrows := n } } paths rest
      else if name = "max-signature-chars" then
        match rest with
        | [] => .error (invalid argument)
        | value :: rest => do
          let bound ← if value = "none" then pure none else some <$> number argument value
          parseFrom { options with limits := { options.limits with maxChars := bound } } paths rest
      else .error (invalid argument)

/-- The settings and the plain arguments. -/
def parse (arguments : List String) : Except Error (Options × List String) :=
  parseFrom {} [] arguments

end Options
end FlowTypes
