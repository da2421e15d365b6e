import FlowTypes.Analysis.Element
import FlowTypes.Analysis.Expr
import FlowTypes.Analysis.Import

/-! What statements and blocks do. The flow of a statement is the type of what it returns, with
`TypeId.cont` among the alternatives if control can go on after it. -/
namespace FlowTypes.Walker

open Analysis

variable (w : Walker)

def eval (scope : ScopeId) (e : Expr) : Analysis Unit := discard (w.expr scope e)

/-- Introduces the exception that a handler is for, under the name that the handler gives it. -/
def bindException (scope : ScopeId) (h : Handler Stmt) (exception : TypeId) : Analysis Unit := do
  match h.name with
  | some name =>
    discard (bindName scope name ⟨h.node.id, name, h.node.span⟩ exception (← variableKind scope))
  | none => pure ()

/-- The value that a handler gets. -/
def exception (scope : ScopeId) (h : Handler Stmt) : Analysis TypeId := do
  match h.exception with
  | some e => instanceOf (← w.expr scope e)
  | none => return .unknown

/-- A block of a compound statement, which may be that of a handler. -/
inductive Part
  | plain (body : List Stmt)
  | handler (h : Handler Stmt)

def Part.body : Part → List Stmt
  | plain body => body
  | handler h => h.body

def enter (scope : ScopeId) : Part → Analysis Unit
  | .plain _ => pure ()
  | .handler h => do bindException scope h (← w.exception scope h)

def part (scope : ScopeId) (p : Part) : Analysis TypeId := do
  w.enter scope p
  w.block scope p.body

/-- The flow of parts any of which may be gone through. -/
def anyOf (scope : ScopeId) (parts : List Part) : Analysis TypeId := unionOver parts (w.part scope)

/-- The parts of a `try` before its end. -/
def tryParts (body : List Stmt) (handlers : List (Handler Stmt)) (otherwise : List Stmt) :
    List Part :=
  .plain body :: handlers.map .handler ++ if otherwise.isEmpty then [] else [.plain otherwise]

/-- A block that never falls through at the end of a `try` has the last word. -/
def tryBlock (scope : ScopeId) (parts : List Part) (final : List Stmt) : Analysis TypeId := do
  let flow ← w.anyOf scope parts
  if final.isEmpty then return flow
  else
    let last ← w.block scope final
    if ← contains last .cont then return flow else return last

def withItem (scope : ScopeId) (span : Span) (item : WithItem) : Analysis Unit := do
  let context ← w.expr scope item.context
  match item.target with
  | none => pure ()
  | some target =>
    let entered ← w.callMethod context "__enter__" {} span
    w.assign scope target (entered.getD context)

/-- Deleting a name takes it out of its scope. -/
def delete (scope : ScopeId) (target : Expr) : Analysis Unit := do
  w.eval scope target
  match target with
  | .name _ name => modifyScopes (·.undefine scope name)
  | _ => pure ()

def declareNames (scope : ScopeId) (node : Node) (names : List String)
    (declare : ScopeStore → ScopeId → String → ScopeStore) : Analysis Unit :=
  names.forM fun name => do
    modifyScopes (declare · scope name)
    referDeclared scope name ⟨node.id, name, node.span⟩

/-- The value of a declaration: the one it gives, or an instance of its hint. -/
def declared (scope : ScopeId) (hint : TypeId) : Option Expr → Analysis TypeId
  | some value => w.expr scope value
  | none => instanceOf hint

/-- A statement after which control goes on. -/
def simple (scope : ScopeId) : Stmt → Analysis Unit
  | .expression _ e => w.eval scope e
  | .assign _ targets value => do
    let value ← w.expr scope value
    targets.forM fun target => w.assign scope target value
  | .augment n target op value => do
    let current ← w.expr scope target
    let value ← w.expr scope value
    w.assign scope target (← w.binary current op value n.span)
  | .declare _ target hint value => do
    let hint ← w.expr scope hint
    w.assign scope target (← w.declared scope hint value)
  | .function d => w.function scope d
  | .classDef d => w.classDef scope d
  | .raise _ exception cause => (exception.toList ++ cause.toList).forM (w.eval scope)
  | .assert _ test message => (test :: message.toList).forM (w.eval scope)
  | .delete _ targets => targets.forM (w.delete scope)
  | .globals n names => declareNames scope n names ScopeStore.declareGlobal
  | .nonlocals n names => declareNames scope n names ScopeStore.declareNonlocal
  | .imports _ names => w.imports scope names
  | .importFrom n source level names isStar => w.importFrom scope n source level names isStar
  | .print _ destination values _ => (destination.toList ++ values).forM (w.eval scope)
  | _ => pure ()

def stmt (scope : ScopeId) (s : Stmt) : Analysis TypeId := do
  match s with
  | .returns _ value => w.valueOf scope value
  | .branch _ condition yes no =>
    w.eval scope condition
    w.anyOf scope [.plain yes, .plain no]
  | .whileLoop _ condition body otherwise =>
    w.eval scope condition
    w.anyOf scope [.plain body, .plain otherwise]
  | .forLoop n target iter body otherwise _ =>
    let element ← w.element (← w.expr scope iter) n.span
    w.assign scope target element
    w.anyOf scope [.plain body, .plain otherwise]
  | .tryBlock _ body handlers otherwise final =>
    w.tryBlock scope (tryParts body handlers otherwise) final
  | .withBlock n items body _ =>
    items.forM (w.withItem scope n.span)
    w.block scope body
  | s =>
    w.simple scope s
    return .cont

/-- What the statements of a block have returned so far, and whether one of them never falls
through. -/
structure Flow where
  returned : Option TypeId := none
  ended : Bool := false

/-- Adds the flow of a statement. After one that never falls through nothing more is returned. -/
def Flow.add (f : Flow) (flow : TypeId) : Analysis Flow := do
  if f.ended then return f
  else if ← contains flow .cont then
    match ← remove flow .cont with
    | some value => return { f with returned := some (← unionOpt f.returned value) }
    | none => return f
  else return ⟨some (← unionOpt f.returned flow), true⟩

def Flow.type (f : Flow) : Analysis TypeId :=
  if f.ended then return f.returned.getD .cont else unionOpt f.returned .cont

def blockStep (scope : ScopeId) (body : List Stmt) : Analysis TypeId := do
  let flow ← body.foldlM (fun (f : Flow) s => do f.add (← w.stmt scope s)) {}
  flow.type

end FlowTypes.Walker
