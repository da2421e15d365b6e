/-! Slash separated paths. A path keeps the text it was written with; what it means is the list of
its components, so that `a//b`, `a/./b` and `a/b/` are one path. -/
namespace FlowTypes

inductive Component
  | root
  /-- A dot at the start of a relative path. -/
  | here
  | parent
  | named (text : List Char)
deriving Repr, DecidableEq

namespace Component

def rank : Component → Nat
  | root => 0
  | here => 1
  | parent => 2
  | named _ => 3

/-- Components in order: by kind, names by their characters. -/
def before : Component → Component → Bool
  | named a, named b => decide (a < b)
  | a, b => decide (a.rank < b.rank)

end Component

/-- Lists of components in dictionary order. -/
def componentsBefore : List Component → List Component → Bool
  | _, [] => false
  | [], _ :: _ => true
  | a :: as, b :: bs => if a = b then componentsBefore as bs else a.before b

structure Path where
  text : List Char
deriving Repr, DecidableEq, Inhabited

namespace Path

def ofString (s : String) : Path := ⟨s.toList⟩

def toString (p : Path) : String := String.ofList p.text

/-- The stretches of a text between separators. -/
def stretches (separator : Char) : List Char → List (List Char)
  | [] => [[]]
  | c :: cs =>
    if c = separator then [] :: stretches separator cs
    else
      match stretches separator cs with
      | [] => [[c]]
      | s :: ss => (c :: s) :: ss

def segments (text : List Char) : List (List Char) := stretches '/' text

/-- The text of segments put together again. -/
def joinSegments : List (List Char) → List Char
  | [] => []
  | [s] => s
  | s :: ss => s ++ '/' :: joinSegments ss

/-- Empty segments and dots say nothing. -/
def idle (s : List Char) : Bool := s = [] || s = ['.']

def isAbsolute (p : Path) : Bool := p.text.head? = some '/'

/-- The leading slash or leading dot of a path, which is not part of its body. -/
def lead (p : Path) : List Char :=
  match p.text with
  | '/' :: _ => ['/']
  | ['.'] => ['.']
  | '.' :: '/' :: _ => ['.']
  | _ => []

def body (p : Path) : List (List Char) := segments (p.text.drop p.lead.length)

def leadComponent (p : Path) : Option Component :=
  match p.lead with
  | [] => none
  | '/' :: _ => some .root
  | _ => some .here

def segmentComponent (s : List Char) : Option Component :=
  if idle s then none else if s = ['.', '.'] then some .parent else some (.named s)

/-- What the path means. -/
def components (p : Path) : List Component :=
  p.leadComponent.toList ++ p.body.filterMap segmentComponent

/-- The body without the segments at its end that say nothing, last segment first. -/
def trimmedBody (p : Path) : List (List Char) := p.body.reverse.dropWhile idle

/-- The path without its last component; none for the root and for the empty path. -/
def parent? (p : Path) : Option Path :=
  match p.trimmedBody with
  | _ :: rest => some ⟨p.lead ++ joinSegments (rest.dropWhile idle).reverse⟩
  | [] => if p.leadComponent = some .here then some ⟨[]⟩ else none

/-- The last component, when it is a name. -/
def fileName? (p : Path) : Option (List Char) :=
  match p.trimmedBody with
  | s :: _ => if s = ['.', '.'] then none else some s
  | [] => none

/-- A file name cut at its last dot. A dot at the very start cuts nothing. -/
def splitName (name : List Char) : List Char × Option (List Char) :=
  let tail := (name.reverse.takeWhile (· ≠ '.')).reverse
  let stem := name.take (name.length - tail.length - 1)
  if tail.length = name.length || stem = [] then (name, none) else (stem, some tail)

def extension? (p : Path) : Option (List Char) :=
  p.fileName?.bind fun name => (splitName name).2

/-- A file name without its extension. The letters of the extension are taken away first and then
the dot before them. Two dots that are left where the path ends are the parent, and stay. -/
def stemOf (name : List Char) (endsPath : Bool) : List Char :=
  let stem := (splitName name).1
  if stem = ['.'] && endsPath then ['.', '.'] else stem

/-- The path with its extension taken away. -/
def withoutExtension (p : Path) : Path :=
  match p.trimmedBody with
  | s :: rest =>
    if s = ['.', '.'] then p
    else ⟨p.lead ++ joinSegments (stemOf s (p.body.getLast? = some s) :: rest).reverse⟩
  | [] => p

/-- A path below another; an absolute one stands for itself. -/
def join (p : Path) (name : String) : Path :=
  let cs := name.toList
  if cs.head? = some '/' then ⟨cs⟩
  else if p.text = [] || p.text.getLast? = some '/' then ⟨p.text ++ cs⟩
  else ⟨p.text ++ '/' :: cs⟩

/-- Whether two texts name the same path. -/
def same (p q : Path) : Bool := p.components = q.components

def before (p q : Path) : Bool := componentsBefore p.components q.components

/-- Whether the path is that of a source file. -/
def isSource (p : Path) : Bool := p.extension? = some ['p', 'y']

end Path

/-- The simple and the qualified name of a module. -/
structure ModuleName where
  name : String
  qualified : String
deriving Repr, DecidableEq

namespace ModuleName

/-- The parts of a dotted name. -/
def parts (name : String) : List String := (Path.stretches '.' name.toList).map String.ofList

def part? : Component → Option String
  | .root => some ""
  | .named text => some (String.ofList text)
  | .parent => some ".."
  | .here => none

/-- The qualified name is the path with dots for slashes and without the extension. A package's own
file is named after its directory. -/
def ofPath (p : Path) : ModuleName :=
  let stem := if p.isSource then p.withoutExtension else p
  let parts := stem.components.filterMap part?
  let parts := if parts.getLast? = some "__init__" then parts.dropLast else parts
  ⟨parts.getLast?.getD "", ".".intercalate parts⟩

end ModuleName
end FlowTypes
