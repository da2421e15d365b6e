/-! Identities of types, scopes and bindings: their places in the stores that hold them. -/
namespace FlowTypes

structure TypeId where
  index : Nat
deriving Repr, DecidableEq, Inhabited

structure ScopeId where
  index : Nat
deriving Repr, DecidableEq, Inhabited

structure BindingId where
  index : Nat
deriving Repr, DecidableEq, Inhabited

namespace TypeId

/-! The simple types stand at the start of every store. -/

def unknown : TypeId := ⟨0⟩
def none : TypeId := ⟨1⟩
/-- Control falls through the end of a block. -/
def cont : TypeId := ⟨2⟩
def bool : TypeId := ⟨3⟩
def true : TypeId := ⟨4⟩
def false : TypeId := ⟨5⟩
def int : TypeId := ⟨6⟩
def float : TypeId := ⟨7⟩
def complex : TypeId := ⟨8⟩
def str : TypeId := ⟨9⟩

/-- How many simple types there are. -/
def simpleCount : Nat := 10

def isSimple (t : TypeId) : Bool := t.index < simpleCount

def toString (t : TypeId) : String := s!"#{t.index}"

end TypeId
end FlowTypes
