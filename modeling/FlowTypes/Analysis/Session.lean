import FlowTypes.Analysis.Stmt

/-! A session analyses files and directories one after the other, and in the end applies the functions
that nobody called. -/
namespace FlowTypes

/-- The walk with at most so many levels of it inside of one another. -/
def walker (files : FileSystem) (limits : Limits) : Nat → Walker
  | 0 =>
    { files, limits
      expr := fun _ _ => throw .endless
      block := fun _ _ => throw .endless
      assign := fun _ _ _ => throw .endless
      element := fun _ _ => throw .endless
      call := fun _ _ _ => throw .endless
      load := fun _ => throw .endless }
  | n + 1 =>
    { files, limits
      expr := fun scope e => (walker files limits n).exprStep scope e
      block := fun scope body => (walker files limits n).blockStep scope body
      assign := fun scope target value => (walker files limits n).assignStep scope target value
      element := fun iterable span => (walker files limits n).elementStep iterable span
      call := fun callee args span => (walker files limits n).callStep callee args span
      load := fun path => (walker files limits n).loadStep path }

/-- How many levels a walk over files of that size may have. It stops at the last one. -/
def FileSystem.allowance (f : FileSystem) : Nat := 64 * (f.size + 64) * (f.size + 64)

/-- Ends the work on all files. -/
def State.finish (s : State) : State := { s with modules := s.modules.mapValues (·.finish) }

/-- What there is to analyse at a path. -/
inductive Request
  | directory (path : Path) (sources : List Path)
  | file (path : Path)

def Request.summary : Request → String
  | directory path sources => s!"analyzing {sources.length} files under {path.toString}"
  | file path => s!"analyzing {path.toString}"

def Request.files : Request → List Path
  | directory _ sources => sources
  | file path => [path]

/-- The last directory is the root of all imports; before there is any, the directory of the first
file is. -/
def Request.root : Request → Option Path → Option Path
  | directory path _, _ => some path
  | file path, root => root.or path.parent?

namespace Walker

open Analysis

variable (w : Walker)

/-- The source files below a directory, in order. -/
def sources : Nat → Path → Analysis (List Path)
  | 0, _ => throw .endless
  | n + 1, dir => do
    let found ← (← w.ask dir (·.entries dir)).mapM fun entry => do
      if ← w.ask entry (·.isDir entry) then sources n entry
      else return if entry.isSource then [entry] else []
    return found.flatten

def request (path : Path) : Analysis (Except Error Request) := do
  match ← w.ask path (·.kind path) with
  | some .directory => return .ok (.directory path (← w.sources (w.files.size + 1) path))
  | some .file => return .ok (.file path)
  | none => return .error (.inFile (.pathNotFound path.toString) path.toString)

/-- Loads what was asked for. -/
def process (request : Request) : Analysis Unit := do
  modify fun s => { s with root := request.root s.root }
  request.files.forM fun path => discard (w.load path)

/-- Analyses a file, or every source file below a directory. -/
def analyze (path : Path) : Analysis (Except Error Unit) := do
  match ← w.request path with
  | .error e => return .error e
  | .ok request =>
    w.process request
    return .ok ()

/-- Applies the functions that nobody called, until there are none. Each application may bring up
more of them. -/
def applyAll : Nat → Analysis Unit
  | 0 => throw .endless
  | n + 1 => do
    match (← get).uncalled with
    | [] => pure ()
    | fn :: rest =>
      modify fun s => { s with uncalled := rest }
      w.applyUncalled fn
      applyAll n

def finish : Analysis Unit := do
  w.applyAll w.files.allowance
  modify (·.finish)

end Walker

/-- The walk over the files of a file system. -/
def Walker.of (files : FileSystem) (limits : Limits) : Walker :=
  walker files limits files.allowance

end FlowTypes
