/-! Notes on the progress of a run. -/
namespace FlowTypes

inductive LogLevel
  | error
  | warn
  | info
  | debug
  | trace
deriving Repr, DecidableEq

namespace LogLevel

def name : LogLevel → String
  | error => "ERROR"
  | warn => "WARN"
  | info => "INFO"
  | debug => "DEBUG"
  | trace => "TRACE"

/-- How detailed notes of the level are. -/
def detail : LogLevel → Nat
  | error => 1
  | warn => 2
  | info => 3
  | debug => 4
  | trace => 5

end LogLevel

structure LogRecord where
  level : LogLevel
  text : String
deriving Repr, DecidableEq

def LogRecord.line (r : LogRecord) : String := s!"[{r.level.name}] {r.text}"

/-- How detailed the notes are that are shown. -/
structure LogFilter where
  detail : Nat
deriving Repr, DecidableEq

namespace LogFilter

/-- Shows nothing. -/
def off : LogFilter := ⟨0⟩

def upTo (level : LogLevel) : LogFilter := ⟨level.detail⟩

/-- The name of a level in any case, or `off`. -/
def ofString? (s : String) : Option LogFilter :=
  let word := s.map Char.toUpper
  if word = "OFF" then some off
  else ([.error, .warn, .info, .debug, .trace].find? fun l => l.name = word).map upTo

/-- Warnings are shown unless a setting says otherwise. -/
def ofSetting (setting : Option String) : LogFilter :=
  (setting.bind ofString?).getD (upTo .warn)

def shows (f : LogFilter) (r : LogRecord) : Bool := r.level.detail ≤ f.detail

end LogFilter
end FlowTypes
