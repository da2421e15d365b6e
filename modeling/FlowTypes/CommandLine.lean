import FlowTypes.Analysis.Result
import FlowTypes.Analysis.Session

/-! The program as seen from a shell: what it prints and how it ends. -/
namespace FlowTypes.CommandLine

/-- What a run leaves behind. -/
structure Outcome where
  code : Nat
  /-- Lines on the standard output. -/
  output : List String := []
  /-- Lines on the standard error. -/
  notes : List String := []
  /-- Whether the analysis was brought to its end. -/
  isComplete : Bool := false

def usage : String :=
  "usage: pyinfer [--max-arrows N] [--max-signature-chars N|none] [-quiet] [-dump-types] PATH..."

/-- The kind of an error, with advice where there is any. -/
def errorLine (e : Error) : String :=
  match e.cause.tip with
  | none => s!"Error: {e.cause.name}"
  | some tip => s!"Error: {e.cause.name} ({tip})"

def repeated (c : Char) (n : Nat) : String := String.ofList (List.replicate n c)

/-- The line of an error with a mark under its place. Spaces at the start of the line are left out;
the mark is as far to the right as there are bytes before the place. -/
def excerpt (l : Text.LineAt) : List String :=
  let number := toString l.number
  let margin := repeated ' ' (number.length + 1)
  let shown := l.line.dropWhile (· = ' ')
  let dashes := repeated '-' (l.offset - (l.line.length - shown.length))
  [s!"{margin}|", s!"{number} | {String.ofList (Text.trimEnd shown)}", s!"{margin}| {dashes}^"]

def syntaxError (e : Error) (file : Path) (source : String) : List String :=
  errorLine e :: s!"-> {file.toString}" ::
    match Text.lineAt source e.position.offset with
    | none => []
    | some l => excerpt l

/-- What is said about a file that could not be analysed. -/
def failure (files : FileSystem) (file : Path) : List String :=
  match files.textOf file with
  | .error e => [s!"Error: {e.cause.name}"]
  | .ok source =>
    match Module.parse source file.toString 0 with
    | .error e => syntaxError e file source
    | .ok _ => [s!"Error: failed to parse {file.toString}"]

/-- The report on a finished analysis. -/
def report (files : FileSystem) (options : Options) (s : State) : List String :=
  s.sourceBindings.map s.bindingText ++
    s.failed.flatMap (failure files) ++
    (if options.quiet then [] else s.diagnostics.map (·.text)) ++
    (if options.dumpTypes then
      s.typeMap.entries.map fun (node, type) => s!"{node}: {s.types.display type}"
    else [])

/-- Analyses the paths in order. The first one that is not there ends it. -/
def analyzeAll (w : Walker) : List Path → Analysis (Except Error Unit)
  | [] => return .ok ()
  | path :: paths => do
    match ← w.request path with
    | .error e => return .error e
    | .ok request =>
      modify (·.log .info request.summary)
      w.process request
      analyzeAll w paths

def analysis (w : Walker) (paths : List Path) : Analysis (Except Error Unit) := do
  match ← analyzeAll w paths with
  | .error e => return .error e
  | .ok () =>
    modify fun s => s.log .info s!"applying {s.uncalled.length} uncalled functions"
    w.finish
    return .ok ()

/-- Runs the program on its arguments. -/
def run (files : FileSystem) (filter : LogFilter) (arguments : List String) :
    Except Stop Outcome := do
  match Options.parse arguments with
  | .error e => return { code := 2, notes := [s!"Error: {e.cause.name}", usage] }
  | .ok (_, []) => return { code := 2, notes := [usage] }
  | .ok (options, paths) =>
    let w := Walker.of files options.limits
    let (result, s) ← (analysis w (paths.map Path.ofString)).run .initial
    let notes := (s.journal.reverse.filter filter.shows).map (·.line)
    match result with
    | .error e => return { code := 1, notes := notes ++ [errorLine e] }
    | .ok () =>
      return { code := 0, output := report files options s, notes, isComplete := true }

/-- A number of some unit from a count of its parts, without zeros at the end. -/
def decimal (count places : Nat) : String :=
  let unit := Nat.pow 10 places
  let fraction := toString (count % unit)
  let digits := List.replicate (places - fraction.length) '0' ++ fraction.toList
  let digits := (digits.reverse.dropWhile (· = '0')).reverse
  if count % unit = 0 then toString (count / unit)
  else s!"{count / unit}.{String.ofList digits}"

/-- A stretch of time in its largest unit. -/
def duration (nanoseconds : Nat) : String :=
  if 1000000000 ≤ nanoseconds then decimal nanoseconds 9 ++ "s"
  else if 1000000 ≤ nanoseconds then decimal nanoseconds 6 ++ "ms"
  else if 1000 ≤ nanoseconds then decimal nanoseconds 3 ++ "µs"
  else s!"{nanoseconds}ns"

def elapsed (nanoseconds : Nat) : LogRecord := ⟨.info, s!"analyzed in {duration nanoseconds}"⟩

end FlowTypes.CommandLine
