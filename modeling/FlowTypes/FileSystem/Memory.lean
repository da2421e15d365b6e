import FlowTypes.FileSystem

/-! Directory trees that are held in memory. A tree is built from the root down, with a cursor for the
directory that is being filled. -/
namespace FlowTypes

inductive MemoryEntry
  | file (text : String)
  | directory
deriving Repr, DecidableEq

structure MemoryTree where
  /-- In the order of the paths, each path once. -/
  entries : List (Path × MemoryEntry) := [(.ofString "/", .directory)]
  cursor : Path := .ofString "/"

namespace MemoryTree

/-- Puts an entry into its place. An entry of the same path is replaced; the path keeps the text that
it had. -/
def insertInto (p : Path) (e : MemoryEntry) :
    List (Path × MemoryEntry) → List (Path × MemoryEntry)
  | [] => [(p, e)]
  | (q, f) :: rest =>
    if p.same q then (q, e) :: rest
    else if p.before q then (p, e) :: (q, f) :: rest
    else (q, f) :: insertInto p e rest

/-- Adds a directory below the cursor and moves the cursor into it. -/
def dir (t : MemoryTree) (name : String) : MemoryTree :=
  let p := t.cursor.join name
  ⟨insertInto p .directory t.entries, p⟩

/-- Adds a file below the cursor. -/
def file (t : MemoryTree) (name text : String) : MemoryTree :=
  { t with entries := insertInto (t.cursor.join name) (.file text) t.entries }

/-- Moves the cursor up. -/
def close (t : MemoryTree) : MemoryTree := { t with cursor := t.cursor.parent?.getD t.cursor }

def get? (t : MemoryTree) (p : Path) : Option MemoryEntry :=
  (t.entries.find? fun (q, _) => q.same p).map (·.2)

def children (t : MemoryTree) (p : Path) : List Path :=
  (t.entries.map (·.1)).filter fun q => q.parent?.any (·.same p)

def size (t : MemoryTree) : Nat :=
  t.entries.foldl (fun n (_, e) => n + 1 + match e with
    | .file text => text.length
    | .directory => 0) 0

def fileSystem (t : MemoryTree) : FileSystem where
  kind p := (t.get? p).map fun
    | .file _ => .file
    | .directory => .directory
  read p :=
    match t.get? p with
    | some (.file text) => .ok text
    | some .directory => .error "is a directory"
    | none => .error "no such file"
  entries p := t.children p
  size := t.size

end MemoryTree
end FlowTypes
