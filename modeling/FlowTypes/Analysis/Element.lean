import FlowTypes.Analysis.Walker

/-! Iteration, and the values that classes stand for. -/
namespace FlowTypes.Walker

open Analysis

variable (w : Walker)

/-- What the iterator of an instance gives. The value itself is the iterator when it has no other. -/
def iterate (object : TypeId) (span : Span) : Analysis TypeId := do
  let iterator := (← w.callMethod object "__iter__" {} span).getD object
  if iterator ≠ object && !(← typeOf iterator).isInstance then w.element iterator span
  else
    match ← w.callMethod iterator "__next__" {} span with
    | some element => return element
    | none => w.resultOf iterator "next" {} span

/-- What iterating over one alternative gives. -/
def elementOf (span : Span) (id : TypeId) : Analysis TypeId := do
  match ← typeOf id with
  | .list d => return d.element
  | .tuple d => unionAll d.elements
  | .dict d => return d.key
  | .str => return .str
  | .instanceOf _ => w.iterate id span
  | _ => return .unknown

def elementStep (iterable : TypeId) (span : Span) : Analysis TypeId := do
  unionOver (← alternatives iterable) (w.elementOf span)

end FlowTypes.Walker

namespace FlowTypes.Analysis

/-- The value of a class's instances: for each alternative, and for each element of a tuple. -/
def instanceWithin : Nat → TypeId → Analysis TypeId
  | 0, _ => throw .endless
  | n + 1, id => do
    unionOver (← alternatives id) fun alternative => do
      match ← typeOf alternative with
      | .classType _ =>
        match (← get).builtins.simpleOf? alternative with
        | some simple => return simple
        | none => canonicalInstance alternative
      | .tuple d => unionAll (← d.elements.mapM (instanceWithin n))
      | _ => return .unknown

/-- Tuples and unions are made after their members, so the place of a type in the store bounds how
deep they nest. -/
def instanceOf (id : TypeId) : Analysis TypeId := instanceWithin (id.index + 1) id

end FlowTypes.Analysis
