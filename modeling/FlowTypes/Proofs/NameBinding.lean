import FlowTypes.Proofs.BindingHistory

/-! What introducing a name does to a state, in one piece. A declaration may send the name to another
table. A name that the table does not know gets a binding there, a known one is widened, and the
places that have read the coming definition become uses of the binding. -/
namespace FlowTypes

namespace InsertionMap

variable {κ ν : Type} [DecidableEq κ] {m : InsertionMap κ ν} {k : κ}

theorem erase_of_missing (missing : m.get? k = none) : m.erase k = m := by
  have absent : ∀ e ∈ m.entries, e.1 ≠ k := fun e member same => by
    simpa [same] using List.lookup_eq_none_iff.mp missing e member
  rw [erase, List.filter_eq_self.mpr fun e member => decide_eq_true (absent e member)]

end InsertionMap

namespace State

variable {s : State} {table : ScopeId} {name : String}

/-- A binding is widened by another definition of its name. -/
def widen (s : State) (node : NodeRef) (type : TypeId) (id : BindingId) : State := { s with
  heap.types := (s.types.union (s.bindings.typeOf id) type).2
  bindings := s.bindings.modify id fun b =>
    { b with type := (s.types.union (s.bindings.typeOf id) type).1 }.refer node }

/-- A place becomes a use of the bindings. -/
def refer (s : State) (ids : List BindingId) (node : NodeRef) : State := { s with
  bindings := ids.foldl (fun b id => b.modify id (·.refer node)) s.bindings }

/-- The places that have read a coming definition. -/
def earlyReads (s : State) (table : ScopeId) (name : String) : List NodeRef :=
  ((s.forward.get? (table, name)).map (·.refs)).getD []

/-- A definition is not ahead any more. -/
def arrive (s : State) (table : ScopeId) (name : String) : State :=
  { s with forward := s.forward.erase (table, name) }

/-- Defines a name in a table. -/
def defineIn (s : State) (table : ScopeId) (name : String) (node : NodeRef) (type : TypeId)
    (kind : BindingKind) : List BindingId × State :=
  match s.scopes.lookupLocal table name with
  | some ids => (ids, ids.foldl (fun s id => s.widen node type id) s)
  | none => ([⟨s.bindings.size⟩], s.introduce table
      { name, kind, node, type, qualified := s.heap.qualified table name type })

/-- The table that a name is introduced in. -/
def bindingTable (s : State) (scope : ScopeId) (name : String) : ScopeId :=
  (s.scopes.declaredTarget scope name).getD scope

def bindName (s : State) (scope : ScopeId) (name : String) (node : NodeRef) (type : TypeId)
    (kind : BindingKind) : List BindingId × State :=
  let table := s.bindingTable scope name
  let defined := (s.arrive table name).defineIn table name node type kind
  (defined.1, (s.earlyReads table name).foldl (·.refer defined.1) defined.2)

end State

namespace Analysis

variable {s : State}

theorem run_forM_modify {α : Type} {f : α → Analysis Unit} {change : State → α → State}
    (each : ∀ s x, (f x).run s = .ok ((), change s x)) (xs : List α) (s : State) :
    (xs.forM f).run s = .ok ((), xs.foldl change s) := by
  induction xs generalizing s with
  | nil => rfl
  | cons x xs ih => exact (Walks.run_bind_eq (each s x)).trans (ih _)

theorem run_extendBinding (node : NodeRef) (type : TypeId) (id : BindingId) (s : State) :
    (extendBinding node type id).run s = .ok ((), s.widen node type id) := rfl

theorem run_takeForward :
    (takeForward table name).run s = .ok (s.earlyReads table name, s.arrive table name) := by
  simp only [takeForward, StateT.run_modifyGet, State.earlyReads, State.arrive]
  cases ahead : s.forward.get? (table, name) with
  | some f => rfl
  | none =>
    rw [InsertionMap.erase_of_missing ahead]
    rfl

theorem run_defineIn {table : ScopeId} {name : String} {node : NodeRef} {type : TypeId}
    {kind : BindingKind} {s : State} :
    (defineIn table name node type kind).run s = .ok (s.defineIn table name node type kind) := by
  unfold defineIn State.defineIn
  rw [StateT.run_bind, StateT.run_get]
  show StateT.run _ s = _
  cases s.scopes.lookupLocal table name with
  | some ids =>
    exact Walks.run_bind_eq (run_forM_modify (fun s id => run_extendBinding node type id s) ids s)
  | none => rfl

/-- Introducing a name always succeeds, and this is what it leads to. -/
theorem run_bindName {scope : ScopeId} {name : String} {node : NodeRef} {type : TypeId}
    {kind : BindingKind} {s : State} :
    (bindName scope name node type kind).run s = .ok (s.bindName scope name node type kind) := by
  refine (Walks.run_bind_eq (show StateT.run get s = Except.ok (s, s) from rfl)).trans ?_
  refine (Walks.run_bind_eq run_takeForward).trans ?_
  refine (Walks.run_bind_eq (run_defineIn ..)).trans ?_
  exact Walks.run_bind_eq (run_forM_modify (fun _ _ => rfl) _ _)

end Analysis

namespace State

variable {s : State} {table : ScopeId} {name : String}

/-! ### What it keeps -/

theorem foldl_keeps {σ α : Type} {R : σ → Prop} {change : σ → α → σ} {s : σ}
    (each : ∀ s x, R s → R (change s x)) (xs : List α) (first : R s) : R (xs.foldl change s) := by
  induction xs generalizing s with
  | nil => exact first
  | cons x xs ih => exact ih (each s x first)

/-! ### What it does to scopes -/

theorem scopes_foldl {α : Type} (change : State → α → State)
    (same : ∀ s x, (change s x).scopes = s.scopes) (xs : List α) (s : State) :
    (xs.foldl change s).scopes = s.scopes :=
  foldl_keeps (R := fun s' => s'.scopes = s.scopes) (fun s x kept => (same s x).trans kept) xs rfl

theorem scopes_bindName :
    (s.bindName scope name node type kind).2.scopes =
      ((s.arrive (s.bindingTable scope name) name).defineIn (s.bindingTable scope name) name node
        type kind).2.scopes := by
  unfold bindName
  exact scopes_foldl (fun s node => s.refer _ node) (fun _ _ => rfl) _ _

theorem defineIn_known (known : s.scopes.lookupLocal table name = some ids) (node : NodeRef)
    (type : TypeId) (kind : BindingKind) :
    s.defineIn table name node type kind =
      (ids, ids.foldl (fun s id => s.widen node type id) s) := by
  rw [defineIn, known]

theorem defineIn_new (new : s.scopes.lookupLocal table name = none) (node : NodeRef)
    (type : TypeId) (kind : BindingKind) :
    s.defineIn table name node type kind = ([⟨s.bindings.size⟩], s.introduce table
      { name, kind, node, type, qualified := s.heap.qualified table name type }) := by
  rw [defineIn, new]

theorem bindName_known (known : s.scopes.lookupLocal (s.bindingTable scope name) name = some ids) :
    (s.bindName scope name node type kind).1 = ids ∧
      (s.bindName scope name node type kind).2.scopes = s.scopes := by
  have defined := defineIn_known (s := s.arrive (s.bindingTable scope name) name) known node type
    kind
  rw [scopes_bindName, defined]
  have same := scopes_foldl (fun s id => s.widen node type id) (fun _ _ => rfl) ids
  exact ⟨congrArg Prod.fst defined, same _⟩

theorem bindName_new (new : s.scopes.lookupLocal (s.bindingTable scope name) name = none) :
    (s.bindName scope name node type kind).1 = [⟨s.bindings.size⟩] ∧
      (s.bindName scope name node type kind).2.scopes =
        s.scopes.define (s.bindingTable scope name) name [⟨s.bindings.size⟩] := by
  have defined := defineIn_new (s := s.arrive (s.bindingTable scope name) name) new node type kind
  rw [scopes_bindName, defined]
  exact ⟨congrArg Prod.fst defined, rfl⟩

end State
end FlowTypes
