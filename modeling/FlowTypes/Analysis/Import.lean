import FlowTypes.Analysis.Load

/-! Import statements. -/
namespace FlowTypes.Analysis

/-- The names that a star stands for: the strings that the module lists, or else all names that do
not start with an underscore. -/
def starNames (s : State) (table : ScopeId) : List String :=
  let listed := ((s.scopes.lookupLocal table "__all__").bind (·.head?)).bind fun id =>
    (s.types.alternatives (s.bindings.typeOf id)).findSome? fun alternative =>
      match s.types.get alternative with
      | .list d => if d.strings.isEmpty then none else some d.strings
      | _ => none
  listed.getD ((s.scopes.get table).names.filter fun name => name.toList.head? ≠ some '_')

/-- The name that an import introduces. -/
def importedName (a : Alias) : String := a.newName.getD a.name

def bindImport (scope : ScopeId) (a : Alias) (value : TypeId) (name : String) : Analysis Unit := do
  discard (bindName scope name ⟨a.node.id, name, a.node.span⟩ value (← variableKind scope))

end FlowTypes.Analysis

namespace FlowTypes.Walker

open Analysis

variable (w : Walker)

/-- Imports a module. Without another name it is the first part of a dotted name that is
introduced. -/
def importModule (scope : ScopeId) (file : Path) (a : Alias) : Analysis Unit := do
  let modules ← w.resolve file a.name
  if modules.getLast?.join.isNone then
    report .warning a.node.span s!"cannot import module `{a.name}`"
  match a.newName with
  | some name => bindImport scope a (modules.getLast?.join.getD .unknown) name
  | none =>
    bindImport scope a (modules.head?.join.getD .unknown) ((ModuleName.parts a.name).headD a.name)

def imports (scope : ScopeId) (names : List Alias) : Analysis Unit := do
  match ← fileOf scope with
  | none => pure ()
  | some file => names.forM (w.importModule scope file)

/-- Introduces all public names of a module. -/
def importStar (scope : ScopeId) (node : Node) (table : ScopeId) : Analysis Unit := do
  let kind ← variableKind scope
  (starNames (← get) table).forM fun name => do
    match (← get).scopes.lookupLocal table name with
    | none => pure ()
    | some bindings =>
      let value ← unionOfBindings bindings
      discard (bindName scope name ⟨node.id, name, node.span⟩ value kind)

/-- The value of a name of a module, which may be a submodule. -/
def importedValue (module : TypeId) (table : ScopeId) (a : Alias) : Analysis TypeId := do
  match (← get).scopes.lookupLocal table a.name with
  | some bindings =>
    addRefs bindings ⟨a.node.id, importedName a, a.node.span⟩
    unionOfBindings bindings
  | none =>
    match ← w.submodule? module a.name with
    | some submodule => return submodule
    | none =>
      report .warning a.node.span s!"cannot import name `{a.name}`"
      return .unknown

/-- The module that names are imported from. -/
def importSource (file : Path) (source : String) (level : Nat) : Analysis (Option TypeId) := do
  if 0 < level then w.resolveRelative file level source
  else return (← w.resolve file source).getLast?.join

/-- The names of an import whose module cannot be found are of unknown type. -/
def importMissing (scope : ScopeId) (node : Node) (source : String) (level : Nat)
    (names : List Alias) : Analysis Unit := do
  let dots := String.ofList (List.replicate level '.')
  report .warning node.span s!"cannot import module `{dots}{source}`"
  names.forM fun a => bindImport scope a .unknown (importedName a)

def importFrom (scope : ScopeId) (node : Node) (source : String) (level : Nat)
    (names : List Alias) (isStar : Bool) : Analysis Unit := do
  match ← fileOf scope with
  | none => pure ()
  | some file =>
    match ← w.importSource file source level with
    | none => importMissing scope node source level names
    | some module =>
      match ← tableOf module with
      | none => importMissing scope node source level names
      | some table =>
        if isStar then importStar scope node table
        else names.forM fun a => do
          bindImport scope a (← w.importedValue module table a) (importedName a)

end FlowTypes.Walker
