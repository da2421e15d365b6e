import FlowTypes.Analysis.State

/-! What an analysis has found out. -/
namespace FlowTypes.State

/-- The bindings that files introduce, in the order in which they were met. -/
def sourceBindings (s : State) : List Binding :=
  s.bindings.bindings.toList.filter fun b => !b.isBuiltin && !b.isSynthetic

def bindingText (s : State) (b : Binding) : String :=
  s!"(binding:kind={b.kind.text}:node={b.node.text}:type={s.types.display b.type}:qname={b.qualified}:refs={b.refsText})"

/-- The type of every node. A node that introduces a name has the type of the name, with all that was
assigned to it anywhere. -/
def typeMap (s : State) : InsertionMap NodeId TypeId :=
  s.sourceBindings.foldl (fun m b => m.insert b.node.id b.type) s.nodeTypes

def moduleValue? (s : State) (p : Path) : Option TypeId := (s.status? p).bind (·.value?)

/-- The binding of a name at the top of a file. -/
def moduleBinding? (s : State) (p : Path) (name : String) : Option Binding := do
  let table ← s.types.tableOf (← s.moduleValue? p)
  s.bindings.get? (← (← s.scopes.lookupLocal table name).head?)

/-- The bindings of an attribute of a name at the top of a file. -/
def moduleAttribute? (s : State) (p : Path) (name member : String) : Option (List Binding) := do
  let table ← s.types.tableOf (← s.moduleBinding? p name).type
  return (← s.scopes.lookupAttribute table member).filterMap s.bindings.get?

end FlowTypes.State
