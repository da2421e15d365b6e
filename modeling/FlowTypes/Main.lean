import FlowTypes.CommandLine
import FlowTypes.FileSystem.Disk

/-! The program itself. The disk is looked at path by path: a run that asks about a path nobody has
looked at stops, and is started again once the answer is there. What stands below directories is not
searched for but read from the standard input, one path to a line. -/
namespace FlowTypes

/-- What was found at a path. -/
inductive Sight
  | nothing
  | file (content : Except String String)
  | directory

/-- All paths that have been looked at, and the paths that were listed. -/
structure Survey where
  sights : List (Path × Sight) := []
  listed : List Path := []

namespace Survey

def sight? (s : Survey) (p : Path) : Option Sight := s.sights.lookup p

/-- The listed paths below a directory, written as parts of it. -/
def children (s : Survey) (p : Path) : List Path :=
  let below := s.listed.filter fun q => q.parent?.any (·.same p)
  Disk.sortPaths (below.filterMap fun q => q.fileName?.map fun name => p.join (String.ofList name))

def fileSystem (s : Survey) : FileSystem where
  kind p :=
    match s.sight? p with
    | some (.file _) => some .file
    | some .directory => some .directory
    | _ => none
  read p :=
    match s.sight? p with
    | some (.file content) => content
    | some .directory => .error "Is a directory (os error 21)"
    | _ => .error "No such file or directory (os error 2)"
  entries p := s.children p
  isSeen p := (s.sight? p).isSome
  size := s.sights.foldl (fun n (_, sight) => n + 1 + match sight with
    | .file (.ok text) => text.length
    | _ => 0) s.listed.length

end Survey

/-- Looks at a path of the disk. -/
def look (p : Path) : IO Sight := do
  try
    return .file (decodeText (← IO.FS.readBinFile p.toString))
  catch e =>
    match e with
    | .inappropriateType _ 21 _ => return .directory
    | .permissionDenied .. => return .file (.error "Permission denied (os error 13)")
    | _ => return .nothing

partial def readPaths (input : IO.FS.Stream) (paths : List Path) : IO (List Path) := do
  let line ← input.getLine
  if line.isEmpty then return paths.reverse
  readPaths input (Path.ofString (line.dropEndWhile (· = '\n')).toString :: paths)

/-- Runs until the run needs nothing more of the disk. The standard input is read when the first
argument turns out to be a directory. -/
partial def runOn (survey : Survey) (filter : LogFilter) (arguments : List String) :
    IO (Except Stop CommandLine.Outcome) := do
  match CommandLine.run survey.fileSystem filter arguments with
  | .error (.unseen p) =>
    let sight ← look p
    let needsList := match sight with
      | .directory => survey.listed.isEmpty && arguments.contains p.toString
      | _ => false
    let listed ← if needsList then readPaths (← IO.getStdin) [] else pure survey.listed
    runOn ⟨(p, sight) :: survey.sights, listed⟩ filter arguments
  | result => return result

end FlowTypes

open FlowTypes in
def main (arguments : List String) : IO UInt32 := do
  let filter := LogFilter.ofSetting (← IO.getEnv "PYINFER_LOG")
  let start ← IO.monoNanosNow
  match ← runOn {} filter arguments with
  | .error _ =>
    IO.eprintln "the analysis does not end"
    return 134
  | .ok outcome =>
    outcome.notes.forM fun line => IO.eprintln line
    if outcome.isComplete then
      let record := CommandLine.elapsed ((← IO.monoNanosNow) - start)
      if filter.shows record then IO.eprintln record.line
    outcome.output.forM fun line => IO.println line
    return outcome.code.toUInt32
