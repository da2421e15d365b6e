import FlowTypes.Analysis.Walker

/-! Functions, lambdas and classes. A definition has one value, however often it is walked. -/
namespace FlowTypes.Analysis

/-- What binding a function makes in a scope. -/
def functionKind (scope : ScopeId) (name : String) : Analysis BindingKind := do
  if ((← get).scopes.get scope).kind = .classBody then
    return if name = "__init__" then .constructor else .method
  else return .function

/-- The value of a definition; `complete` adds what is known of a new one. A definition inside of a
function is met on every application, and then belongs to the latest one. -/
def defineValue (scope : ScopeId) (definition : Definition)
    (complete : Scope → FunctionType → FunctionType) : Analysis TypeId := do
  let id := definition.node.id
  match (← get).functions.get? id with
  | some fn =>
    modifyTypes (·.modifyFunction fn fun f => { f with env := scope })
    return fn
  | none =>
    let s ← get
    let path := s.scopes.qualify scope definition.name
    let fn ← newFunction definition.name path scope fun f =>
      complete (s.scopes.get scope) { f with definition := some definition }
    modify fun s => { s with functions := s.functions.insert id fn, uncalled := s.uncalled ++ [fn] }
    return fn

def methodKind (d : FunctionDef Stmt) : MethodKind :=
  if d.hasDecorator "staticmethod" then .staticMethod
  else if d.hasDecorator "classmethod" then .classMethod
  else .instanceMethod

def defineFunction (scope : ScopeId) (d : FunctionDef Stmt) : Analysis TypeId :=
  defineValue scope (.function d) fun outer f =>
    { f with
      classId := if outer.kind = .classBody then outer.owner else none
      method := methodKind d
      isAsync := d.isAsync }

def defineLambda (scope : ScopeId) (node : Node) (parameters : List (Parameter Expr))
    (body : Expr) : Analysis TypeId :=
  defineValue scope (.lambda node parameters body) fun _ f => f

/-- Gives a class the attributes that every class has. -/
def defineClassAttributes (classId : TypeId) : Analysis Unit := do
  match ← tableOf classId with
  | none => pure ()
  | some table =>
    let dict ← newDict .str .unknown
    defineImplicit table "__name__" .str .member
    defineImplicit table "__module__" .str .member
    defineImplicit table "__doc__" .str .member
    defineImplicit table "__dict__" dict .member

def defineClass (scope : ScopeId) (d : ClassDef Stmt) : Analysis TypeId := do
  match (← get).classes.get? d.node.id with
  | some classId => return classId
  | none =>
    let classId ← newClass d.name ((← get).scopes.qualify scope d.name) scope
    modify fun s => { s with classes := s.classes.insert d.node.id classId }
    defineClassAttributes classId
    return classId

/-- Makes the functions and classes at the top of a module known, so that they can be used further
up. Their bindings are made when the walk comes to them. -/
def declareDefinitions (scope : ScopeId) (body : List Stmt) : Analysis Unit :=
  body.forM fun
    | .function d => do declareForward scope d.name (← defineFunction scope d)
    | .classDef d => do declareForward scope d.name (← defineClass scope d)
    | _ => pure ()

/-- A class without bases has the base of all classes. -/
def addDefaultBase (classId : TypeId) (bases : List TypeId) : Analysis Unit := do
  if bases.isEmpty then addBase classId (← get).builtins.object

/-- Makes the bases of a class known as an attribute, when it is defined first. -/
def recordBases (table : ScopeId) (bases : List TypeId) : Analysis Unit := do
  if ((← get).scopes.lookupLocal table "__bases__").isNone then
    defineImplicit table "__bases__" (← newTuple bases) .member

/-- The string literals that a class lists as its slots. -/
def slotNames (body : List Stmt) : List NodeRef :=
  let isSlots : Expr → Bool
    | .name _ name => name = "__slots__"
    | _ => false
  body.flatMap fun
    | .assign _ targets (.list _ elements) | .assign _ targets (.tuple _ elements) =>
      if targets.any isSlots then
        elements.filterMap fun
          | .string n value => some ⟨n.id, value, n.span⟩
          | _ => none
      else []
    | _ => []

/-- Gives the instances of a class an attribute for each slot. -/
def declareSlots (classId : TypeId) (body : List Stmt) : Analysis Unit := do
  let slots := slotNames body
  if slots.isEmpty then pure ()
  else
    match ← tableOf (← canonicalInstance classId) with
    | none => pure ()
    | some table =>
      slots.forM fun node => do
        if ((← get).scopes.lookupLocal table node.text).isNone then
          discard (bindName table node.text node .unknown .member)

end FlowTypes.Analysis

namespace FlowTypes.Walker

open Analysis

variable (w : Walker)

/-- The type of an expression, if it is there. -/
def optional (scope : ScopeId) : Option Expr → Analysis (Option TypeId)
  | some e => return some (← w.expr scope e)
  | none => return none

/-- Types of the default values, one place for each parameter. -/
def defaults (scope : ScopeId) (parameters : List (Parameter Expr)) :
    Analysis (List (Option TypeId)) :=
  parameters.mapM fun p => do
    discard (w.optional scope p.hint)
    w.optional scope p.fallback

def setDefaults (fn : TypeId) (defaults : List (Option TypeId)) : Analysis Unit :=
  modifyTypes (·.modifyFunction fn fun f => { f with defaults })

def function (scope : ScopeId) (d : FunctionDef Stmt) : Analysis Unit := do
  let fn ← defineFunction scope d
  d.decorators.forM fun e => discard (w.expr scope e)
  setDefaults fn (← w.defaults scope d.parameters)
  let kind ← functionKind scope d.name
  discard (bindName scope d.name ⟨d.node.id, d.name, d.nameSpan⟩ fn kind)
  recordType d.node.id fn

def lambda (scope : ScopeId) (node : Node) (parameters : List (Parameter Expr)) (body : Expr) :
    Analysis TypeId := do
  let fn ← defineLambda scope node parameters body
  setDefaults fn (← w.defaults scope parameters)
  return fn

/-- Adds a base of a class. Every alternative that is a class counts. -/
def classBase (scope : ScopeId) (classId : TypeId) (base : Expr) : Analysis (List TypeId) := do
  let base ← w.expr scope base
  let s ← get
  let found := (s.types.alternatives base).filter fun alternative =>
    (s.types.get alternative).isClass
  found.forM (addBase classId)
  return found

def classBases (scope : ScopeId) (classId : TypeId) (bases : List Expr) :
    Analysis (List TypeId) := do
  return (← bases.mapM (w.classBase scope classId)).flatten

def classDef (scope : ScopeId) (d : ClassDef Stmt) : Analysis Unit := do
  let classId ← defineClass scope d
  match ← tableOf classId with
  | none => pure ()
  | some table =>
    let bases ← w.classBases scope classId d.bases
    addDefaultBase classId bases
    recordBases table bases
    d.decorators.forM fun e => discard (w.expr scope e)
    discard (bindName scope d.name ⟨d.node.id, d.name, d.nameSpan⟩ classId .classDef)
    recordType d.node.id classId
    discard (w.block table d.body)
    declareSlots classId d.body

end FlowTypes.Walker
