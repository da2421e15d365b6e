import FlowTypes.Analysis.State

/-! Names: how they are introduced, and what a use of them is noted down for. -/
namespace FlowTypes.Analysis

/-- Adds a use to each of the bindings. -/
def addRefs (bindings : List BindingId) (node : NodeRef) : Analysis Unit :=
  modify fun s => { s with bindings := bindings.foldl (fun b id => b.modify id (·.refer node)) s.bindings }

def unionOfBindings (bindings : List BindingId) : Analysis TypeId := do
  let s ← get
  unionAll (bindings.map s.bindings.typeOf)

/-- Introduces a name that no file holds. -/
def defineSynthetic (table : ScopeId) (name : String) (type : TypeId) (kind : BindingKind)
    (qualified : String) : Analysis Unit :=
  modify fun s =>
    let (id, bindings) := s.bindings.create
      { name, kind, node := ⟨0, name, .null⟩, type, qualified, isSynthetic := true }
    { s with bindings, heap.scopes := s.scopes.define table name [id] }

/-- Introduces an attribute that every module or class has. -/
def defineImplicit (table : ScopeId) (name : String) (type : TypeId) (kind : BindingKind) :
    Analysis Unit := do
  defineSynthetic table name type kind ((← get).scopes.qualify table name)

/-- What a plain name becomes in a scope. -/
def variableKind (scope : ScopeId) : Analysis BindingKind := do
  match ((← get).scopes.get scope).kind with
  | .function => return .localVariable
  | .classBody | .object => return .member
  | _ => return .blockVariable

/-- Takes the early uses of a definition that is now being introduced. -/
def takeForward (scope : ScopeId) (name : String) : Analysis (List NodeRef) := modifyGet fun s =>
  match s.forward.get? (scope, name) with
  | some f => (f.refs, { s with forward := s.forward.erase (scope, name) })
  | none => ([], s)

/-- Widens a binding by another definition of its name. -/
def extendBinding (node : NodeRef) (type : TypeId) (id : BindingId) : Analysis Unit := do
  let merged ← union ((← get).bindings.typeOf id) type
  modify fun s =>
    { s with bindings := s.bindings.modify id fun b => { b with type := merged }.refer node }

/-- Defines a name in a table. The first definition makes its binding; a later one widens the type
and counts as a use. -/
def defineIn (table : ScopeId) (name : String) (node : NodeRef) (type : TypeId)
    (kind : BindingKind) : Analysis (List BindingId) := do
  match (← get).scopes.lookupLocal table name with
  | some existing =>
    existing.forM (extendBinding node type)
    return existing
  | none => modifyGet fun s =>
    let qualified := match s.types.get type with
      | .module d => d.qualified
      | _ => s.scopes.qualify table name
    let (id, bindings) := s.bindings.create { name, kind, node, type, qualified }
    ([id], { s with bindings, heap.scopes := s.scopes.define table name [id] })

/-- Introduces a name. A declaration may send it to another scope. -/
def bindName (scope : ScopeId) (name : String) (node : NodeRef) (type : TypeId)
    (kind : BindingKind) : Analysis (List BindingId) := do
  let table := ((← get).scopes.declaredTarget scope name).getD scope
  let early ← takeForward table name
  let bindings ← defineIn table name node type kind
  early.forM (addRefs bindings)
  return bindings

/-- Lets a definition be seen before the walk comes to it. -/
def declareForward (module : ScopeId) (name : String) (type : TypeId) : Analysis Unit :=
  modify fun s => { s with forward := s.forward.insert (module, name) { type } }

/-- Resolves a read that found no binding among the coming definitions of the module. -/
def readForward (scope : ScopeId) (name : String) (node : NodeRef) : Analysis (Option TypeId) :=
  modifyGet fun s =>
    match (s.scopes.moduleOf scope).bind fun m => (s.forward.get? (m, name)).map (m, ·) with
    | none => (none, s)
    | some (m, f) =>
      let f' := { f with refs := f.refs ++ [node] }
      (some f.type, { s with forward := s.forward.insert (m, name) f' })

/-- The type of a name that is read. -/
def readName (scope : ScopeId) (name : String) (node : NodeRef) : Analysis TypeId := do
  match (← get).scopes.lookup scope name with
  | some bindings =>
    addRefs bindings node
    unionOfBindings bindings
  | none =>
    match ← readForward scope name node with
    | some type => return type
    | none =>
      report .warning node.span s!"unbound variable `{name}`"
      return .unknown

/-- Notes that a declaration mentions the binding it leads to. -/
def referDeclared (scope : ScopeId) (name : String) (node : NodeRef) : Analysis Unit := do
  let s ← get
  match (s.scopes.declaredTarget scope name).bind (s.scopes.lookupLocal · name) with
  | some bindings => addRefs bindings node
  | none => pure ()

/-- The file that a scope belongs to. -/
def fileOf (scope : ScopeId) : Analysis (Option Path) := do
  let s ← get
  match (s.scopes.moduleOf scope).bind fun m => (s.scopes.get m).owner with
  | some owner =>
    match s.types.get owner with
    | .module d => return some (.ofString d.file)
    | _ => return none
  | none => return none

end FlowTypes.Analysis
