import FlowTypes.Analysis.Walker

/-! What the functions give that the analysis knows by itself. -/
namespace FlowTypes.Walker

open Analysis

variable (w : Walker)

/-- What iterating over an argument gives, unknown without the argument. -/
def elementOfArgument (argument : Option TypeId) (span : Span) : Analysis TypeId :=
  match argument with
  | some value => w.element value span
  | none => return .unknown

/-- The dict that is made of an argument: the same dict, or one of its pairs. -/
def dictOf (argument : Option TypeId) (keywords : List TypeId) (span : Span) :
    Analysis TypeId := do
  match argument with
  | some value =>
    match ← typeOf value with
    | .dict _ => return value
    | _ =>
      match ← typeOf (← w.element value span) with
      | .tuple { elements := [key, mapped], .. } => newDict key mapped
      | _ => newDict .unknown .unknown
  | none =>
    if keywords.isEmpty then newDict .unknown .unknown
    else newDict .str (← unionAll keywords)

def tupleFrom (argument : Option TypeId) (span : Span) : Analysis TypeId := do
  match argument with
  | some value =>
    match ← typeOf value with
    | .tuple _ => return value
    | _ => newTuple [← w.element value span]
  | none => newTuple []

/-- The elements of a list. -/
def elementsOf (argument : Option TypeId) : Analysis TypeId := do
  match argument with
  | some value =>
    match ← typeOf value with
    | .list d => return d.element
    | _ => return .unknown
  | none => return .unknown

/-- The keys and the values of a dict. -/
def entryOf (argument : Option TypeId) : Analysis (TypeId × TypeId) := do
  match argument with
  | some value =>
    match ← typeOf value with
    | .dict d => return (d.key, d.value)
    | _ => return (.unknown, .unknown)
  | none => return (.unknown, .unknown)

/-- Puts a value into a list, if both are there. -/
def store (list value : Option TypeId) : Analysis Unit :=
  match list, value with
  | some list, some value => widenList list value
  | _, _ => pure ()

/-- Applies a known function. The receiver of a method is its first argument. -/
def native (op : NativeOp) (receiver : Option TypeId) (args : CallArgs) (span : Span) :
    Analysis TypeId := do
  let positional := receiver.toList ++ args.positional
  let first := positional[0]?
  match op with
  | .returns type => return type
  | .firstArgument => return first.getD .unknown
  | .elementOfFirst => w.elementOfArgument first span
  | .listOfFirst => newListOf (← w.elementOfArgument first span)
  | .tupleOfFirst => w.tupleFrom first span
  | .dictOfFirst => w.dictOf first args.keywords.values span
  | .minMax =>
    if positional.length = 1 then w.elementOfArgument first span else unionAll positional
  | .sum =>
    let element ← w.elementOfArgument first span
    return if element = .unknown then .int else element
  | .range => newListOf .int
  | .enumerate => newListOf (← newTuple [.int, ← w.elementOfArgument first span])
  | .zip => newListOf (← newTuple (← positional.mapM fun value => w.element value span))
  | .round => return .float
  | .getAttr =>
    match positional[2]? with
    | some fallback => union .unknown fallback
    | none => return .unknown
  | .listAppend =>
    store first positional[1]?
    return .none
  | .listInsert =>
    store first positional[2]?
    return .none
  | .listExtend =>
    match first, positional[1]? with
    | some list, some values => widenList list (← w.element values span)
    | _, _ => pure ()
    return .none
  | .listPop => elementsOf first
  | .dictKeys => newListOf (← entryOf first).1
  | .dictValues => newListOf (← entryOf first).2
  | .dictItems =>
    let (key, value) ← entryOf first
    newListOf (← newTuple [key, value])
  | .dictGet => union (← entryOf first).2 (positional[2]?.getD .none)
  | .strSplit => newListOf .str

end FlowTypes.Walker
