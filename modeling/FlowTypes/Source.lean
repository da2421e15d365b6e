/-! Places in the source: a byte offset in a file, and the stretch between two of them. -/
namespace FlowTypes

structure Position where
  offset : Nat
  file : String
deriving Repr, DecidableEq, Inhabited

/-- The place of what no file holds. -/
def Position.null : Position := ⟨0, "<null>"⟩

structure Span where
  start : Position
  stop : Position
deriving Repr, DecidableEq, Inhabited

namespace Span

def null : Span := ⟨.null, .null⟩

/-- From the start of one span to the end of another. -/
def join (a b : Span) : Span := ⟨a.start, b.stop⟩

def file (s : Span) : String := s.start.file

end Span
end FlowTypes
