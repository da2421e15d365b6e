/-! Closed ranges of code points, and classes of characters given by such ranges in rising order. -/
namespace FlowTypes.Text

/-- A closed range of code points. -/
structure CodeRange where
  first : Nat
  last : Nat
deriving Repr, DecidableEq

/-- Ranges given by how many code points there are before each of them and in it, in turn. -/
def stretches (start : Nat) : List Nat → List CodeRange
  | before :: count :: rest =>
    let first := start + before
    ⟨first, first + count - 1⟩ :: stretches (first + count) rest
  | _ => []

/-- Whether one of the ranges holds the character. The ranges rise, so the search is over at the
first one that starts above it. -/
def inRanges (c : Char) : List CodeRange → Bool
  | [] => false
  | r :: rest => r.first ≤ c.toNat && (c.toNat ≤ r.last || inRanges c rest)

end FlowTypes.Text
