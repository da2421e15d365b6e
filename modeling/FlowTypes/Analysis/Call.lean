import FlowTypes.Analysis.Native

/-! Calls. A function is walked once for each shape of its arguments, in a scope of its own, and what
it returns is kept in its signature table. -/
namespace FlowTypes

/-- Arguments that parameters have not taken. -/
structure Supply where
  positional : List TypeId
  keywords : InsertionMap String TypeId

namespace State

def enter (s : State) (fn : TypeId) : State :=
  { s with frames := { function := fn } :: s.frames }

def leave (s : State) : State := { s with frames := s.frames.tail }

end State

namespace Analysis

/-- Gives every parameter its type. Positional arguments come first, then keywords, then what a
starred argument holds, then the default, then what a doubly starred argument holds. -/
def bindParameters (star doubleStar : Option TypeId) :
    List (Parameter Expr × Option TypeId) → Supply → Analysis (List TypeId)
  | [], _ => return []
  | (p, fallback) :: rest, supply => do
    match p.kind with
    | .normal =>
      match supply.positional with
      | type :: others =>
        return type :: (← bindParameters star doubleStar rest { supply with positional := others })
      | [] =>
        match supply.keywords.get? p.name with
        | some type =>
          let keywords := supply.keywords.erase p.name
          return type :: (← bindParameters star doubleStar rest { supply with keywords })
        | none =>
          let type := ((star.or fallback).or doubleStar).getD .unknown
          return type :: (← bindParameters star doubleStar rest supply)
    | .varArgs =>
      let tuple ← newTuple supply.positional
      return tuple :: (← bindParameters star doubleStar rest { supply with positional := [] })
    | .kwArgs =>
      let value ← unionAll (supply.keywords.values ++ doubleStar.toList)
      let dict ← newDict .str value
      return dict :: (← bindParameters star doubleStar rest { supply with keywords := {} })

/-- The types that the parameters of a definition have in a call. -/
def parameterTypes (definition : Definition) (defaults : List (Option TypeId))
    (positional : List TypeId) (args : CallArgs) : Analysis (List TypeId) := do
  let s ← get
  let doubleStar := args.doubleStar.bind fun value =>
    match s.types.get value with
    | .dict d => some d.value
    | _ => none
  let parameters := definition.parameters.zipIdx.map fun (p, i) => (p, defaults[i]?.join)
  bindParameters args.star doubleStar parameters ⟨positional, args.keywords⟩

/-- What a function returns, from what its body does. The end of a body gives none; it is reported
when other paths return a value. -/
def returnOfFlow (flow : TypeId) (name : String) (span : Span) : Analysis TypeId := do
  if !(← contains flow .cont) then return flow
  else
    match ← remove flow .cont with
    | none => return .none
    | some value =>
      if !(← get).types.equal value .none then
        report .info span s!"`{name}` does not return a value on every path"
      union value .none

/-! ### Frames -/

def isApplied (fn : TypeId) : Analysis Bool := gets (·.frames.any (·.function = fn))

def enter (fn : TypeId) : Analysis Unit := modify (·.enter fn)

/-- Ends an application; gives what was yielded during it. -/
def leave : Analysis (Option TypeId) :=
  modifyGet fun s => (s.frames.head?.bind (·.yielded), s.leave)

/-- An activity in a frame of its own, with what was yielded during it. -/
def inFrame {α : Type} (fn : TypeId) (activity : Analysis α) : Analysis (α × Option TypeId) := do
  enter fn
  let result ← activity
  return (result, ← leave)

/-- What a function gives. What it yields makes a list. -/
def resultOfBody (returned : TypeId) : Option TypeId → Analysis TypeId
  | some yielded => newListOf yielded
  | none => return returned

/-- Adds to what the innermost application yields. -/
def yieldValue (value : TypeId) : Analysis Unit := do
  match (← get).frames with
  | [] => pure ()
  | frame :: frames =>
    let merged ← unionOpt frame.yielded value
    modify fun s => { s with frames := { frame with yielded := some merged } :: frames }

/-! ### Signatures -/

/-- Notes why a signature table stays as it is. -/
def noteOutcome (outcome : TypeStore.Recorded) (fn arguments : TypeId) : Analysis Unit := do
  match outcome with
  | .full =>
    debug s!"signature table of {← display fn} is full, dropping {← display arguments}"
  | .tooLong => debug s!"signature of {fn.toString} is too long, reverting"
  | .recorded | .notFunction => pure ()

/-- Keeps what a function returned for its arguments. -/
def recordArrow (fn arguments result : TypeId) (name : String) (limits : Limits) :
    Analysis Unit := do
  let bases := (← get).builtins.bases
  let arguments ← onHeap (·.canonicalArguments bases fn arguments)
  let outcome ← onTypes (·.insertArrow fn ⟨arguments, result⟩ limits)
  noteOutcome outcome fn arguments
  if !outcome.isRecorded then debug s!"arrow of {name} not recorded"

/-- Introduces the parameters of a function in the scope of an application. -/
def bindLocals (scope : ScopeId) (parameters : List (Parameter Expr)) (types : List TypeId) :
    Analysis Unit :=
  (parameters.zip types).forM fun (p, type) =>
    discard (bindName scope p.name ⟨p.node.id, p.name, p.node.span⟩ type .parameter)

def newLocals (f : FunctionType) : Analysis ScopeId := onHeap fun h =>
  let (id, scopes) := h.scopes.alloc .function (some f.env) (h.scopes.get f.table).path
  (id, { h with scopes })

end Analysis

namespace Walker

open Analysis

variable (w : Walker)

/-- Walks the body of a definition. -/
def body (scope : ScopeId) : Definition → Analysis TypeId
  | .function d => do returnOfFlow (← w.block scope d.body) d.name d.nameSpan
  | .lambda _ _ e => w.expr scope e

/-- Walks the body of a definition in a scope of its own. -/
def bodyWith (f : FunctionType) (definition : Definition) (types : List TypeId) :
    Analysis TypeId := do
  let scope ← newLocals f
  bindLocals scope definition.parameters types
  w.body scope definition

/-- Walks the body for arguments that are not in the signature table. -/
def applyAnew (origin : TypeId) (f : FunctionType) (definition : Definition) (arguments : TypeId)
    (types : List TypeId) : Analysis TypeId := do
  let (returned, yielded) ← inFrame origin (w.bodyWith f definition types)
  let result ← resultOfBody returned yielded
  recordArrow origin arguments result f.name w.limits
  return result

/-- Applies a function that a program defines. One that is being applied already gives what is known
of it so far. -/
def applyDefined (origin : TypeId) (f : FunctionType) (definition : Definition) (args : CallArgs) :
    Analysis TypeId := do
  modify fun s => { s with uncalled := s.uncalled.filter (· ≠ origin) }
  let types ← parameterTypes definition f.defaults (f.receiver.toList ++ args.positional) args
  let arguments ← newTuple types
  if ← isApplied origin then
    debug s!"recursive application of {f.name}"
    return ((← get).types.resultFor? origin arguments).getD .unknown
  else
    match (← get).types.resultFor? origin arguments with
    | some known => return known
    | none => w.applyAnew origin f definition arguments types

def apply (fn : TypeId) (args : CallArgs) (span : Span) : Analysis TypeId := do
  let s ← get
  match s.types.function? fn with
  | none => return .unknown
  | some f =>
    match f.native, f.definition with
    | some op, _ => w.native op f.receiver args span
    | none, some definition => w.applyDefined (s.types.originOf fn) f definition args
    | none, none => return s.types.returnType (s.types.originOf fn)

/-- Calling a class gives the value for all its instances, after its initialiser has been called. -/
def construct (classId : TypeId) (args : CallArgs) (span : Span) : Analysis TypeId := do
  match (← get).builtins.constructor? classId with
  | some op => w.native op none args span
  | none =>
    let object ← canonicalInstance classId
    discard (w.callMethod object "__init__" args span)
    return object

def callAlternative (args : CallArgs) (span : Span) (callee : TypeId) : Analysis TypeId := do
  match ← typeOf callee with
  | .function _ => w.apply callee args span
  | .classType _ => w.construct callee args span
  | .instanceOf _ => w.resultOf callee "__call__" args span
  | .unknown => return .unknown
  | _ =>
    report .warning span s!"`{← display callee}` is not callable"
    return .unknown

def callStep (callee : TypeId) (args : CallArgs) (span : Span) : Analysis TypeId := do
  unionOver (← alternatives callee) (w.callAlternative args span)

/-- Adds an argument to those before it. A starred tuple is as good as its elements. -/
def addArgument (scope : ScopeId) (span : Span) (args : CallArgs) (argument : Argument Expr) :
    Analysis CallArgs := do
  let value ← w.expr scope argument.value
  match argument with
  | .positional _ => return { args with positional := args.positional ++ [value] }
  | .keyword name _ => return { args with keywords := args.keywords.insert name value }
  | .doubleStar _ => return { args with doubleStar := some value }
  | .star _ =>
    match ← typeOf value with
    | .tuple d => return { args with positional := args.positional ++ d.elements }
    | _ =>
      let element ← w.element value span
      return { args with star := some (← unionOpt args.star element) }

/-- Notes a call of a name. -/
def noteCall (callee : Expr) (count : Nat) : Analysis Unit :=
  match callee with
  | .name _ name => debug s!"call of {name} with {count} arguments"
  | _ => pure ()

def callExpr (scope : ScopeId) (node : Node) (callee : Expr) (arguments : List (Argument Expr)) :
    Analysis TypeId := do
  let fn ← w.expr scope callee
  let args ← arguments.foldlM (w.addArgument scope node.span) {}
  noteCall callee arguments.length
  w.call fn args node.span

/-- What a method is called on when nobody calls it. -/
def receiverFor (f : FunctionType) : Analysis (Option TypeId) := do
  match f.classId, f.method with
  | some classId, .instanceMethod => return some (← canonicalInstance classId)
  | some classId, .classMethod => return some classId
  | _, _ => return none

/-- Applies a function that nobody called. Parameters without default are unknown, except for the
receiver of a method. -/
def applyUncalled (fn : TypeId) : Analysis Unit := do
  match (← get).types.function? fn with
  | none => pure ()
  | some f =>
    match f.definition with
    | none => pure ()
    | some definition =>
      let required := definition.parameters.filter fun p => p.kind = .normal && p.fallback.isNone
      let receiver ← receiverFor f
      debug s!"applying uncalled {f.name}"
      match receiver with
      | some receiver =>
        let bound ← bindMethod fn receiver
        let args := List.replicate (required.length - 1) TypeId.unknown
        discard (w.apply bound (.of args) definition.nameSpan)
      | none =>
        let args := List.replicate required.length TypeId.unknown
        discard (w.apply fn (.of args) definition.nameSpan)

end Walker
end FlowTypes
