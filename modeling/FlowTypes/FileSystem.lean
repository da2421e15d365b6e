import FlowTypes.Error
import FlowTypes.Path

/-! What an analysis may ask about files and directories. -/
namespace FlowTypes

inductive FileKind
  | file
  | directory
deriving Repr, DecidableEq

structure FileSystem where
  kind : Path → Option FileKind
  /-- The text of a file, or why it cannot be had. -/
  read : Path → Except String String
  /-- What stands directly below a directory, in order. -/
  entries : Path → List Path
  /-- Whether the answers above are known for the path. -/
  isSeen : Path → Bool := fun _ => true
  /-- How much there is: a bound for how deep directories and texts may nest. -/
  size : Nat

namespace FileSystem

def isDir (f : FileSystem) (p : Path) : Bool := f.kind p = some .directory

def isFile (f : FileSystem) (p : Path) : Bool := f.kind p = some .file

/-- The text of a file; what is in the way is an error of that file. -/
def textOf (f : FileSystem) (p : Path) : Except Error String :=
  (f.read p).mapError fun message =>
    Error.inFile (.unreadableFile p.toString message) p.toString

end FileSystem
end FlowTypes
