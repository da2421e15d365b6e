import FlowTypes.Ident
import FlowTypes.Tree.Expr

/-! Bindings: what a name stands for, where it was introduced and where it is used. -/
namespace FlowTypes

inductive BindingKind
  /-- Set with a dot on some other value. -/
  | member
  | classDef
  | constructor
  | function
  | method
  | module
  | parameter
  /-- A variable of a module or a block. -/
  | blockVariable
  /-- A variable of a function. -/
  | localVariable
deriving Repr, DecidableEq

def BindingKind.text : BindingKind → String
  | member => "ATTRIBUTE"
  | classDef => "CLASS"
  | constructor => "CONSTRUCTOR"
  | function => "FUNCTION"
  | method => "METHOD"
  | module => "MODULE"
  | parameter => "PARAMETER"
  | blockVariable => "SCOPE"
  | localVariable => "VARIABLE"

/-- A place where a name is introduced or used. -/
structure NodeRef where
  id : NodeId
  /-- The name as it is written there. -/
  text : String
  span : Span
deriving Repr, DecidableEq

structure Binding where
  name : String
  kind : BindingKind
  node : NodeRef
  type : TypeId
  qualified : String
  /-- The other places, each once and in the order in which they were met. -/
  refs : List NodeRef := []
  isBuiltin : Bool := false
  /-- Made up for a value, not written in any file. -/
  isSynthetic : Bool := false

namespace Binding

def addRef (b : Binding) (node : NodeRef) : Binding :=
  if b.refs.contains node then b else { b with refs := b.refs ++ [node] }

/-- Adds a use, unless it is the place that introduces the name. -/
def refer (b : Binding) (node : NodeRef) : Binding := if b.node = node then b else b.addRef node

/-- The uses as text; past ten, the first and how many more. -/
def refsText (b : Binding) : String :=
  match b.refs with
  | first :: others =>
    if 10 < b.refs.length then s!"[{first.text}, ...({others.length} more)]"
    else "[" ++ ",".intercalate (b.refs.map (·.text)) ++ "]"
  | [] => "[]"

end Binding

/-- All bindings of a run, in the order in which they were made. -/
structure BindingStore where
  bindings : Array Binding := #[]

namespace BindingStore

def size (s : BindingStore) : Nat := s.bindings.size

def get? (s : BindingStore) (id : BindingId) : Option Binding := s.bindings[id.index]?

def typeOf (s : BindingStore) (id : BindingId) : TypeId :=
  ((s.get? id).map (·.type)).getD .unknown

def modify (s : BindingStore) (id : BindingId) (f : Binding → Binding) : BindingStore :=
  ⟨s.bindings.modify id.index f⟩

def create (s : BindingStore) (b : Binding) : BindingId × BindingStore :=
  (⟨s.size⟩, ⟨s.bindings.push b⟩)

/-- The bindings together with their identities. -/
def all (s : BindingStore) : List (BindingId × Binding) :=
  s.bindings.toList.zipIdx.map fun (b, i) => (⟨i⟩, b)

end BindingStore
end FlowTypes
