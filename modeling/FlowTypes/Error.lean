import FlowTypes.Source
import FlowTypes.Text.Quoted

/-! What can go wrong while a file is read, and how it is reported. A cause says what happened; an
error adds where. -/
namespace FlowTypes

inductive Cause
  | unrecognisedToken (token : String)
  | unexpectedToken (token : String)
  | unexpectedTokenDetailed (token message : String)
  | malformedNumber (token : String)
  | unterminatedString
  | inconsistentDedent
  | invalidTarget (target : String)
  | unreadableFile (path message : String)
  | pathNotFound (path : String)
  | invalidOption (option : String)
deriving Repr, DecidableEq

namespace Cause

/-- The word that names the kind of the cause in a report. -/
def name : Cause → String
  | unrecognisedToken _ => "UnrecognisedToken"
  | unexpectedToken _ => "UnexpectedToken"
  | unexpectedTokenDetailed _ _ => "UnexpectedTokenDetailed"
  | malformedNumber _ => "NumberParseError"
  | unterminatedString => "UnterminatedString"
  | inconsistentDedent => "InconsistentDedent"
  | invalidTarget _ => "InvalidAssignmentTarget"
  | unreadableFile _ _ => "FileRead"
  | pathNotFound _ => "PathNotFound"
  | invalidOption _ => "InvalidOption"

def message : Cause → String
  | unrecognisedToken token => s!"unrecognised token: {Text.quote token}"
  | unexpectedToken token => s!"unexpected token: {Text.quote token}"
  | unexpectedTokenDetailed token message =>
    s!"unexpected token ({Text.quote message}): {Text.quote token}"
  | malformedNumber token => s!"error parsing number: {Text.quote token}"
  | unterminatedString => "unterminated string literal"
  | inconsistentDedent => "unindent does not match any outer indentation level"
  | invalidTarget target => s!"invalid assignment target: {Text.quote target}"
  | unreadableFile path message => s!"failed to read {Text.quote path}: {message}"
  | pathNotFound path => s!"path not found: {Text.quote path}"
  | invalidOption option => s!"invalid option: {Text.quote option}"

/-- Advice on how to mend it, where there is any. -/
def tip : Cause → Option String
  | unrecognisedToken _ => none
  | unexpectedToken token =>
    some s!"Unexpected token: `{token}`, is a `:` or a closing bracket missing?"
  | unexpectedTokenDetailed token message => some s!"Unexpected token: `{token}`, {message}"
  | malformedNumber token => some s!"Invalid number literal: `{token}`"
  | unterminatedString => some "String literal is missing its closing quote"
  | inconsistentDedent => some "Dedent does not match any outer indentation level"
  | invalidTarget target => some s!"Cannot assign to `{target}`"
  | unreadableFile path message => some s!"Could not read `{path}`: {message}"
  | pathNotFound path => some s!"`{path}` is neither a file nor a directory"
  | invalidOption option => some s!"Unknown or incomplete option `{option}`"

end Cause

structure Error where
  cause : Cause
  position : Position
deriving Repr, DecidableEq

namespace Error

/-- An error of a file as a whole. -/
def inFile (cause : Cause) (file : String) : Error := ⟨cause, ⟨0, file⟩⟩

def message (e : Error) : String :=
  s!"{e.position.file}:{e.position.offset}: {e.cause.message}"

end Error
end FlowTypes
