import FlowTypes.Analysis.Definition
import FlowTypes.Tree.Display

/-! Assignment: values go to names, attributes, items, and to several targets at once. -/
namespace FlowTypes.Walker

open Analysis

variable (w : Walker)

/-- Walks the parts of a slice. -/
def slice (scope : ScopeId) (parts : List (Option Expr)) : Analysis Unit :=
  parts.forM fun part => discard (w.optional scope part)

/-- Stores a value under an index in every alternative of a value. -/
def setItem (object index value : TypeId) (span : Span) : Analysis Unit := do
  (← alternatives object).forM fun alternative => do
    match ← typeOf alternative with
    | .list _ => widenList alternative value
    | .dict _ => modifyTypes (·.widenEntry alternative index value)
    | .instanceOf _ => discard (w.callMethod alternative "__setitem__" (.of [index, value]) span)
    | _ => pure ()

/-- What the places of a value hold, if their number is known. -/
def shape? : Ty → Option (List TypeId)
  | .tuple d => some d.elements
  | .list d => if d.positional.isEmpty then none else some d.positional
  | _ => none

/-- Gives each target its value. -/
def assignEach (scope : ScopeId) (pairs : List (Expr × TypeId)) : Analysis Unit :=
  pairs.forM fun (target, value) => w.assign scope target value

/-- The place of the first starred target. -/
def starIndex? (targets : List Expr) : Option Nat :=
  targets.findIdx? fun
    | .starred _ _ => true
    | _ => false

/-- Gives elements to targets one by one; a starred target takes as many as the others leave. -/
def unpack (scope : ScopeId) (targets : List Expr) (elements : List TypeId) (star : Option Nat) :
    Analysis Unit := do
  match star with
  | none => w.assignEach scope (targets.zip elements)
  | some k =>
    let after := targets.length - k - 1
    let stop := elements.length - after
    w.assignEach scope ((targets.take k).zip (elements.take k))
    let rest ← newListOf (← unionAll ((elements.take stop).drop k))
    w.assignEach scope (targets[k]?.toList.map fun target => (target, rest))
    w.assignEach scope ((targets.drop (k + 1)).zip (elements.drop stop))

/-- Whether so many elements can be given to so many targets. -/
def fits (elements targets : Nat) (star : Option Nat) : Bool :=
  match star with
  | none => elements = targets
  | some _ => targets ≤ elements + 1

/-- Gives every target what iterating over the value gives. -/
def unpackEvenly (scope : ScopeId) (targets : List Expr) (value : TypeId) (span : Span) :
    Analysis Unit := do
  let element ← w.element value span
  targets.forM fun
    | .starred _ target => do w.assign scope target (← newListOf element)
    | target => w.assign scope target element

/-- Gives a value to several targets. A tuple of the wrong length is reported. -/
def destructure (scope : ScopeId) (targets : List Expr) (value : TypeId) (span : Span) :
    Analysis Unit := do
  let star := starIndex? targets
  let type ← typeOf value
  match shape? type with
  | some elements =>
    if fits elements.length targets.length star then w.unpack scope targets elements star
    else if type.isTuple then
      report .warning span
        s!"cannot unpack {elements.length} values into {targets.length} targets"
      w.assignEach scope (targets.map fun target => (target, .unknown))
    else w.unpackEvenly scope targets value span
  | none => w.unpackEvenly scope targets value span

/-- The type of an index; slices have none. -/
def index (scope : ScopeId) : Expr → Analysis TypeId
  | .slice _ lower upper step => do
    w.slice scope [lower, upper, step]
    return .unknown
  | i => w.expr scope i

def assignStep (scope : ScopeId) (target : Expr) (value : TypeId) : Analysis Unit := do
  match target with
  | .name n name =>
    discard (bindName scope name ⟨n.id, name, n.span⟩ value (← variableKind scope))
    recordType n.id value
  | .tuple n targets | .list n targets =>
    w.destructure scope targets value n.span
    recordType n.id value
  | .member n object name _ =>
    let object ← w.expr scope object
    setAttribute object name ⟨n.id, target.text, n.span⟩ value
    recordType n.id value
  | .subscript n object index =>
    let object ← w.expr scope object
    let index ← w.index scope index
    w.setItem object index value n.span
    recordType n.id value
  | .starred _ inner => w.assign scope inner value
  | _ => discard (w.expr scope target)

end FlowTypes.Walker
