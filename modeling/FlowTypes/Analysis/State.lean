import FlowTypes.Builtin
import FlowTypes.Diagnostic
import FlowTypes.FileSystem
import FlowTypes.Log

/-! What an analysis knows, and the steps it is made of. -/
namespace FlowTypes

/-- How far a file that could be parsed has come. -/
inductive Stage
  | parsed
  /-- The definitions at its top are known and its body is being walked. -/
  | bound
  | inferred
  /-- Its functions that nobody calls have been walked as well. -/
  | finished
deriving Repr, DecidableEq

inductive FileStatus
  | unparsed
  | failed
  | loaded (stage : Stage) (value : TypeId) (tree : Module)

namespace FileStatus

/-- The value of the module. -/
def value? : FileStatus → Option TypeId
  | loaded _ value _ => some value
  | _ => none

def tree? : FileStatus → Option Module
  | loaded _ _ tree => some tree
  | _ => none

def stage? : FileStatus → Option Stage
  | loaded stage _ _ => some stage
  | _ => none

/-- A file that could not be parsed stays as it is. -/
def advance (stage : Stage) : FileStatus → FileStatus
  | loaded _ value tree => loaded stage value tree
  | status => status

/-- Ends the work on a file whose body has been walked. -/
def finish : FileStatus → FileStatus
  | loaded .inferred value tree => loaded .finished value tree
  | status => status

end FileStatus

/-- A definition at the top of a module that the walk has not come to. -/
structure Forward where
  type : TypeId
  /-- Places that have read it. -/
  refs : List NodeRef := []

/-- A function whose body is being walked. -/
structure Frame where
  function : TypeId
  /-- What it has yielded so far. -/
  yielded : Option TypeId := none

/-- Paths are the same if their components are. -/
abbrev PathMap (ν : Type) := InsertionMap (List Component) ν

structure State where
  heap : Heap
  bindings : BindingStore
  builtins : Builtins
  /-- The scope around all modules. -/
  global : ScopeId
  /-- Where imports are looked for next to the directory of the importing file. -/
  root : Option Path := none
  modules : PathMap FileStatus := {}
  /-- Directories without a file of their own that were imported. -/
  packages : PathMap TypeId := {}
  failed : List Path := []
  diagnostics : List Diagnostic := []
  nodeTypes : InsertionMap NodeId TypeId := {}
  /-- Functions that have been defined and not been applied, in the order of their definition. -/
  uncalled : List TypeId := []
  /-- Innermost first. -/
  frames : List Frame := []
  functions : InsertionMap NodeId TypeId := {}
  classes : InsertionMap NodeId TypeId := {}
  /-- Scopes of comprehensions by the scope around them. -/
  blocks : InsertionMap (NodeId × ScopeId) ScopeId := {}
  /-- By module table and name. -/
  forward : InsertionMap (ScopeId × String) Forward := {}
  /-- Bound methods by function and receiver. -/
  boundMethods : InsertionMap (TypeId × TypeId) TypeId := {}
  nextNode : NodeId := 0
  /-- Latest first. -/
  journal : List LogRecord := []

namespace State

/-- Nothing has been walked, and there is nothing but what is built in. -/
def ofPrelude (p : Prelude) : State :=
  let (global, scopes) := p.heap.scopes.alloc .global (some p.builtins.scope) ""
  { heap := { p.heap with scopes }, bindings := p.bindings, builtins := p.builtins, global }

def initial : State := ofPrelude Prelude.initial

def log (s : State) (level : LogLevel) (text : String) : State :=
  { s with journal := ⟨level, text⟩ :: s.journal }

def types (s : State) : TypeStore := s.heap.types

def scopes (s : State) : ScopeStore := s.heap.scopes

def status? (s : State) (p : Path) : Option FileStatus := s.modules.get? p.components

end State

/-- Why an analysis stops before its end. -/
inductive Stop
  /-- Values lead from one to the next without end. -/
  | endless
  /-- The file system does not know about a path. -/
  | unseen (path : Path)
deriving Repr, DecidableEq

abbrev Analysis := StateT State (Except Stop)

namespace Analysis

variable {α : Type}

def gets (f : State → α) : Analysis α := return f (← get)

def debug (text : String) : Analysis Unit := modify (·.log .debug text)

def warn (text : String) : Analysis Unit := modify (·.log .warn text)

/-! ### Types -/

def onHeap (f : Heap → α × Heap) : Analysis α := modifyGet fun s =>
  let (a, heap) := f s.heap
  (a, { s with heap })

def onTypes (f : TypeStore → α × TypeStore) : Analysis α := onHeap fun h =>
  let (a, types) := f h.types
  (a, { h with types })

def modifyTypes (f : TypeStore → TypeStore) : Analysis Unit := onTypes fun t => ((), f t)

def modifyScopes (f : ScopeStore → ScopeStore) : Analysis Unit :=
  onHeap fun h => ((), { h with scopes := f h.scopes })

def typeOf (id : TypeId) : Analysis Ty := gets (·.types.get id)

def tableOf (id : TypeId) : Analysis (Option ScopeId) := gets (·.types.tableOf id)

def alternatives (id : TypeId) : Analysis (List TypeId) := gets (·.types.alternatives id)

def contains (id t : TypeId) : Analysis Bool := gets (·.types.contains id t)

def display (id : TypeId) : Analysis String := gets (·.types.display id)

def union (a b : TypeId) : Analysis TypeId := onTypes (·.union a b)

def unionOpt (a : Option TypeId) (b : TypeId) : Analysis TypeId := onTypes (·.unionOpt a b)

def unionAll (ids : List TypeId) : Analysis TypeId := onTypes (·.unionAll ids)

def remove (id t : TypeId) : Analysis (Option TypeId) := onTypes (·.remove id t)

/-- The union of what a function gives for each member of a list, unknown for the empty list. -/
def unionOver {β : Type} (xs : List β) (f : β → Analysis TypeId) : Analysis TypeId := do
  let result ← xs.foldlM (fun (acc : Option TypeId) x => do
    let value ← f x
    return some (← unionOpt acc value)) none
  return result.getD .unknown

def newList (element : TypeId) (positional : List TypeId) (strings : List String) :
    Analysis TypeId := do
  let bases := (← get).builtins.bases
  onHeap (·.newList bases element positional strings)

/-- A list of which only the element type is known. -/
def newListOf (element : TypeId) : Analysis TypeId := newList element [] []

def newDict (key value : TypeId) : Analysis TypeId := do
  let bases := (← get).builtins.bases
  onHeap (·.newDict bases key value)

def newTuple (elements : List TypeId) : Analysis TypeId := do
  let bases := (← get).builtins.bases
  onHeap (·.newTuple bases elements)

def newModule (name : ModuleName) (file : String) : Analysis TypeId := do
  let s ← get
  onHeap (·.newModule s.builtins.bases name file s.global)

def newClass (name path : String) (parent : ScopeId) : Analysis TypeId :=
  onHeap (·.newClass name path parent)

def newFunction (name path : String) (env : ScopeId) (complete : FunctionType → FunctionType) :
    Analysis TypeId := do
  let bases := (← get).builtins.bases
  onHeap (·.newFunctionWith bases name path env complete)

def canonicalInstance (classId : TypeId) : Analysis TypeId := onHeap (·.instanceOf classId)

def addBase (classId base : TypeId) : Analysis Unit := onHeap fun h => ((), h.addBase classId base)

/-- A function bound to a receiver; one value for each pair. -/
def bindMethod (fn receiver : TypeId) : Analysis TypeId := do
  let s ← get
  let origin := s.types.originOf fn
  match s.boundMethods.get? (origin, receiver) with
  | some bound => return bound
  | none =>
    let bound ← onHeap (·.bindMethod origin receiver)
    modify fun s => { s with boundMethods := s.boundMethods.insert (origin, receiver) bound }
    return bound

/-- Puts a value into a list. -/
def widenList (list value : TypeId) : Analysis Unit := modifyTypes (·.widenList list value)

/-! ### Notes -/

/-- Notes the type of a node; a node that is met again has either type. -/
def recordType (node : NodeId) (type : TypeId) : Analysis Unit := do
  let merged ← unionOpt ((← get).nodeTypes.get? node) type
  modify fun s => { s with nodeTypes := s.nodeTypes.insert node merged }

/-- Reports something, once. -/
def report (category : Category) (span : Span) (message : String) : Analysis Unit := do
  let d : Diagnostic := ⟨category, span, message⟩
  if (← get).diagnostics.contains d then pure ()
  else
    debug d.text
    modify fun s => { s with diagnostics := s.diagnostics ++ [d] }

end Analysis
end FlowTypes
