import FlowTypes.Analysis.Definition
import FlowTypes.Grammar.Compound

/-! Files become modules. A file is read once; while it is being walked, whoever imports it sees what
is there so far. -/
namespace FlowTypes

namespace State

def setStatus (s : State) (p : Path) (status : FileStatus) : State :=
  { s with modules := s.modules.insert p.components status }

def advance (s : State) (p : Path) (stage : Stage) : State :=
  { s with modules := s.modules.modify p.components (·.advance stage) }

def fail (s : State) (p : Path) : State :=
  { s.setStatus p .failed with failed := s.failed ++ [p] }

end State

namespace Analysis

def setStatus (p : Path) (status : FileStatus) : Analysis Unit := modify (·.setStatus p status)

def advanceTo (p : Path) (stage : Stage) : Analysis Unit := modify (·.advance p stage)

def fail (p : Path) (message : String) : Analysis Unit := do
  warn message
  modify (·.fail p)

/-- Makes the value and the binding of a module that could be parsed. -/
def introduceModule (p : Path) (tree : Module) : Analysis TypeId := do
  let name := ModuleName.ofPath p
  let file := p.toString
  let value ← newModule name file
  modify fun s =>
    let (_, bindings) := s.bindings.create
      { name := name.name, kind := .module, type := value, qualified := name.qualified
        node := ⟨tree.node.id, s!"(module:{file})", tree.node.span⟩ }
    { s with bindings }
  return value

/-- Introduces the attributes that every module has, and what the module defines. -/
def declareModule (table : ScopeId) (tree : Module) : Analysis Unit := do
  defineImplicit table "__name__" .str .blockVariable
  defineImplicit table "__file__" .str .blockVariable
  declareDefinitions table tree.body

/-- Makes a module an attribute of its package, unless the package has that name already. -/
def linkSubmodule (package : TypeId) (name : String) (module : TypeId) : Analysis Unit := do
  let s ← get
  match s.types.tableOf package with
  | none => pure ()
  | some table =>
    if (s.scopes.lookupLocal table name).isSome then pure ()
    else
      let qualified := match s.types.get module with
        | .module d => d.qualified
        | _ => s.scopes.qualify table name
      defineSynthetic table name module .module qualified

end Analysis

namespace Walker

open Analysis

variable (w : Walker)

/-- Walks the body of a module with its table. -/
def walkBody (p : Path) (tree : Module) (table : ScopeId) : Analysis Unit := do
  declareModule table tree
  advanceTo p .bound
  discard (w.block table tree.body)
  advanceTo p .inferred
  debug s!"inferred {p.toString}"

def walkModule (p : Path) (tree : Module) : Analysis TypeId := do
  let value ← introduceModule p tree
  setStatus p (.loaded .parsed value tree)
  match ← tableOf value with
  | none => return value
  | some table =>
    w.walkBody p tree table
    return value

def loadStep (p : Path) : Analysis (Option TypeId) := do
  match (← get).status? p with
  | some status => return status.value?
  | none =>
    setStatus p .unparsed
    match ← w.ask p (·.textOf p) with
    | .error e =>
      fail p e.message
      return none
    | .ok source =>
      match Module.parse source p.toString (← get).nextNode with
      | .error e =>
        fail p s!"failed to parse {p.toString}: {e.message}"
        return none
      | .ok (tree, next) =>
        modify fun s => { s with nextNode := next }
        debug s!"parsed {p.toString}"
        return some (← w.walkModule p tree)

/-- Where a module may be found. -/
inductive ModulePath
  | file (path : Path)
  | package (path : Path)

/-- A directory of the name goes before a file. -/
def modulePath? (dir : Path) (name : String) : Analysis (Option ModulePath) := do
  let package := dir.join name
  if ← w.ask package (·.isDir package) then return some (.package package)
  else
    let file := dir.join (name ++ ".py")
    if ← w.ask file (·.isFile file) then return some (.file file) else return none

/-- The module of a directory: that of its own file, or one without a file. -/
def loadPackage (dir : Path) : Analysis (Option TypeId) := do
  let own := dir.join "__init__.py"
  if ← w.ask own (·.isFile own) then w.load own
  else
    match (← get).packages.get? dir.components with
    | some package => return some package
    | none =>
      let package ← newModule (ModuleName.ofPath dir) dir.toString
      modify fun s => { s with packages := s.packages.insert dir.components package }
      return some package

def loadFound : ModulePath → Analysis (Option TypeId)
  | .file path => w.load path
  | .package path => w.loadPackage path

/-- Where the submodules of a module are looked for. -/
def ModulePath.inside : ModulePath → Path
  | .file path => path.withoutExtension
  | .package path => path

/-- Loads the modules of a dotted name one inside of the other, and links each to the one before. The
first that is not there ends it. -/
def loadChain (dir : Path) (parent : Option TypeId) : List String → Analysis (List (Option TypeId))
  | [] => return []
  | part :: parts => do
    match ← w.modulePath? dir part with
    | none => return List.replicate (parts.length + 1) none
    | some found =>
      match ← w.loadFound found with
      | none => return List.replicate (parts.length + 1) none
      | some module =>
        parent.forM fun parent => linkSubmodule parent part module
        return some module :: (← loadChain found.inside (some module) parts)

/-- The modules of a dotted name, for each part of it, as a file imports it: from the directory of
the file, else from the root. -/
def resolve (importer : Path) (name : String) : Analysis (List (Option TypeId)) := do
  let parts := ModuleName.parts name
  let dirs := importer.parent?.toList
  let dirs := dirs ++ ((← get).root.toList.filter fun root => !dirs.any (·.same root))
  let found ← dirs.filterM fun dir => do
    return (← w.modulePath? dir (parts.headD "")).isSome
  match found with
  | dir :: _ => w.loadChain dir none parts
  | [] => return parts.map fun _ => none

/-- The directory so many levels above a file. -/
def ancestor? (file : Path) : Nat → Option Path
  | 0 => file.parent?
  | n + 1 => (ancestor? file n).bind (·.parent?)

/-- The module that a relative import starts from. One dot stands for the directory of the file. -/
def resolveRelative (importer : Path) (level : Nat) (name : String) :
    Analysis (Option TypeId) := do
  match ancestor? importer (level - 1) with
  | none => return none
  | some dir =>
    if name = "" then w.loadPackage dir
    else return (← w.loadChain dir none (ModuleName.parts name)).getLast?.join

/-- The directory in which the submodules of a module are found. -/
def packageDir? (module : TypeId) : Analysis (Option Path) := do
  match ← typeOf module with
  | .module d =>
    let file := Path.ofString d.file
    if file.fileName? = some "__init__.py".toList then return file.parent?
    else if ← w.ask file (·.isDir file) then return some file
    else return none
  | _ => return none

/-- A submodule that is imported from its package. -/
def submodule? (package : TypeId) (name : String) : Analysis (Option TypeId) := do
  match ← w.packageDir? package with
  | none => return none
  | some dir =>
    match ← w.modulePath? dir name with
    | none => return none
    | some found =>
      match ← w.loadFound found with
      | none => return none
      | some module =>
        linkSubmodule package name module
        return some module

end Walker
end FlowTypes
