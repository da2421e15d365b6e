import FlowTypes.FileSystem

/-! What a disk holds below the directory in which a program runs, and how the names it is asked for
are followed step by step. -/
namespace FlowTypes

inductive DiskEntry
  | file (content : Except String String)
  | directory

structure Disk where
  /-- The way down from the working directory to each entry. The working directory is the empty
  way. -/
  entries : List (List (List Char) × DiskEntry) := [([], .directory)]

namespace Disk

abbrev Way := List (List Char)

def get? (d : Disk) (way : Way) : Option DiskEntry :=
  (d.entries.find? fun (w, _) => w = way).map (·.2)

def isDirectory (d : Disk) (way : Way) : Bool :=
  match d.get? way with
  | some .directory => true
  | _ => false

def add (d : Disk) (way : Way) (e : DiskEntry) : Disk :=
  if (d.get? way).isSome then d else ⟨d.entries ++ [(way, e)]⟩

/-- Adds an entry in place of what its way led to before. -/
def put (d : Disk) (way : Way) (e : DiskEntry) : Disk :=
  ⟨d.entries.filter (fun (w, _) => w ≠ way) ++ [(way, e)]⟩

/-- Adds an entry and the directories above it. -/
def insert (d : Disk) (p : Path) (e : DiskEntry) : Disk :=
  let way := (Path.segments p.text).filter fun s => !Path.idle s
  let above := (List.range way.length).map fun n => way.take n
  (above.foldl (fun d w => d.add w .directory) d).put way e

def ofList (entries : List (Path × DiskEntry)) : Disk :=
  entries.foldl (fun d (p, e) => d.insert p e) {}

/-- Follows the segments of a path. Every segment needs a directory to start from, also one that
leads nowhere. -/
def follow (d : Disk) (way : Way) : List (List Char) → Option Way
  | [] => some way
  | s :: rest =>
    if !d.isDirectory way then none
    else if Path.idle s then follow d way rest
    else if s = ['.', '.'] then
      if way = [] then none else follow d way.dropLast rest
    else if (d.get? (way ++ [s])).isSome then follow d (way ++ [s]) rest
    else none

/-- Where a path leads. Nothing is known outside of the working directory. -/
def resolve (d : Disk) (p : Path) : Option Way :=
  if p.text = [] || p.isAbsolute then none else d.follow [] (Path.segments p.text)

def lookup (d : Disk) (p : Path) : Option DiskEntry := (d.resolve p).bind d.get?

/-- Sorts paths by insertion. -/
def insertSorted (p : Path) : List Path → List Path
  | [] => [p]
  | q :: rest => if p.before q then p :: q :: rest else q :: insertSorted p rest

def sortPaths (paths : List Path) : List Path := paths.foldr insertSorted []

def children (d : Disk) (p : Path) : List Path :=
  match d.resolve p with
  | none => []
  | some way =>
    let names := d.entries.filterMap fun (w, _) =>
      if w ≠ [] && w.dropLast = way then w.getLast? else none
    sortPaths (names.map fun name => p.join (String.ofList name))

def size (d : Disk) : Nat :=
  d.entries.foldl (fun n (_, e) => n + 1 + match e with
    | .file (.ok text) => text.length
    | _ => 0) 0

def fileSystem (d : Disk) : FileSystem where
  kind p := (d.lookup p).map fun
    | .file _ => .file
    | .directory => .directory
  read p :=
    match d.lookup p with
    | some (.file content) => content
    | some .directory => .error "Is a directory (os error 21)"
    | none => .error "No such file or directory (os error 2)"
  entries p := d.children p
  size := d.size

end Disk

/-- The text of a file from its bytes. -/
def decodeText (bytes : ByteArray) : Except String String :=
  match String.fromUTF8? bytes with
  | some text => .ok text
  | none => .error "stream did not contain valid UTF-8"

end FlowTypes
