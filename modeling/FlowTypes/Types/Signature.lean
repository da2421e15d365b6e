import FlowTypes.Options
import FlowTypes.Text.Lines
import FlowTypes.Types.Equality
import FlowTypes.Types.Printer

/-! Signature tables: what a function has returned for the argument shapes it was applied to. A table
is bounded, and a shape that another one covers is not kept. -/
namespace FlowTypes.TypeStore

def isVague (id : TypeId) : Bool := id = .unknown || id = .none

/-- The places at which two shapes are compared: the elements of tuples, or those of the literals
that lists were made from. -/
def places? (s : TypeStore) (a b : TypeId) : Option (List TypeId × List TypeId) :=
  match s.get a, s.get b with
  | .tuple l, .tuple r => some (l.elements, r.elements)
  | .list l, .list r => some (l.positional, r.positional)
  | _, _ => none

theorem compare_of_places {s : TypeStore} {a b : TypeId} {l r : List TypeId}
    (h : s.places? a b = some (l, r)) (same : l.length = r.length) :
    ∀ v, s.compare a b ≠ .settled v := by
  unfold places? at h
  unfold compare
  generalize s.get a = p, s.get b = q at h
  cases p <;> cases q <;> cases h
  case tuple.tuple => simp [same]
  case list.list => simp

/-- Whether one shape covers another if the pairs of the stack do. -/
def subsumedFrom (s : TypeStore) (stack : PairStack) (a b : TypeId) : Bool :=
  if _known : stack.contains a b then true
  else if isVague a || isVague b || s.equal a b then true
  else
    match _h : s.places? a b with
    | none => false
    | some (left, right) =>
      if _same : left.length = right.length then
        (left.zip right).all fun (x, y) => subsumedFrom s (stack.push a b) x y
      else false
termination_by s.unvisited stack
decreasing_by exact unvisited_push_lt (compare_of_places _h _same) _known

/-- Whether the argument shape `a` adds nothing to `b`. -/
def subsumed (s : TypeStore) (a b : TypeId) : Bool := s.subsumedFrom {} a b

/-- Whether another arrow of the table covers this one. Of two that cover each other the earlier one
stays. -/
def coveredAt (s : TypeStore) (numbered : List (Arrow × Nat)) (entry : Arrow × Nat) : Bool :=
  numbered.any fun (other, j) =>
    entry.2 ≠ j && entry.1.arguments ≠ other.arguments &&
      s.subsumed entry.1.arguments other.arguments &&
      !(s.subsumed other.arguments entry.1.arguments && entry.2 < j)

/-- Drops every arrow whose shape another one covers. -/
def compress (s : TypeStore) (arrows : List Arrow) : List Arrow :=
  (arrows.zipIdx.filter fun entry => !s.coveredAt arrows.zipIdx entry).map (·.1)

/-- The recorded result for exactly this shape. -/
def resultFor? (s : TypeStore) (fn arguments : TypeId) : Option TypeId :=
  (s.function? (s.originOf fn)).bind fun f =>
    (f.arrows.find? fun arrow => s.equal arrow.arguments arguments).map (·.result)

/-- The first recorded result, unknown before there is any. -/
def returnType (s : TypeStore) (fn : TypeId) : TypeId :=
  (((s.function? (s.originOf fn)).bind (·.arrows.head?)).map (·.result)).getD .unknown

/-- What became of an arrow. -/
inductive Recorded
  | recorded
  /-- The table has no room for another shape. -/
  | full
  /-- The signature would be printed too long; the table is as it was. -/
  | tooLong
  | notFunction
deriving Repr, DecidableEq

def Recorded.isRecorded (r : Recorded) : Bool := r = .recorded

/-- The table with a new arrow: a known shape gets the new result, any other comes last. -/
def withArrow (s : TypeStore) (arrows : List Arrow) (arrow : Arrow) : List Arrow :=
  match arrows.findIdx? fun known => s.equal known.arguments arrow.arguments with
  | some i => arrows.modify i fun known => { known with result := arrow.result }
  | none => arrows ++ [arrow]

def setArrows (s : TypeStore) (id : TypeId) (arrows : List Arrow) : TypeStore :=
  s.modifyFunction id fun f => { f with arrows }

/-- Records an arrow in the table of the function that owns it. -/
def insertArrow (s : TypeStore) (fn : TypeId) (arrow : Arrow) (limits : Limits) :
    Recorded × TypeStore :=
  let origin := s.originOf fn
  match s.function? origin with
  | none => (.notFunction, s)
  | some f =>
    let known := f.arrows.any fun other => s.equal other.arguments arrow.arguments
    if !known && limits.maxArrows ≤ f.arrows.length then (.full, s)
    else
      let after := s.setArrows origin (s.compress (s.withArrow f.arrows arrow))
      match limits.maxChars with
      | none => (.recorded, after)
      | some bound =>
        if bound < Text.byteSize (after.display origin).toList then (.tooLong, s)
        else (.recorded, after)

end FlowTypes.TypeStore
