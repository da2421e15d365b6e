import FlowTypes.Analysis.Names

/-! Attributes of values. -/
namespace FlowTypes.Analysis

/-- The table that holds the attributes of a value, or those of its class. -/
def attributeTable (s : State) (object : TypeId) : Option ScopeId :=
  (s.types.tableOf object).or ((s.builtins.classOf? s.types object).bind s.types.tableOf)

def attributeBindings (s : State) (object : TypeId) (name : String) : Option (List BindingId) :=
  (attributeTable s object).bind (s.scopes.lookupAttribute · name)

/-- What a function becomes when it is reached through a value. A method of instances is bound to the
value, a method of the class to its class; what is reached through a class or a module stays as it
is. -/
def bindTo (object : TypeId) (value : TypeId) : Analysis TypeId := do
  let s ← get
  let method : Option MethodKind := ((s.types.function? value).filter fun f =>
    f.classId.isSome && f.receiver.isNone).map (·.method)
  match method, s.types.get object with
  | some .instanceMethod, .classType _ | some .instanceMethod, .module _ => return value
  | some .instanceMethod, _ => bindMethod value object
  | some .classMethod, .classType _ => bindMethod value object
  | some .classMethod, .instanceOf d => bindMethod value d.classId
  | _, _ => return value

/-- The bindings of an attribute and its type, methods bound to their receiver. -/
def attribute? (object : TypeId) (name : String) :
    Analysis (Option (List BindingId × TypeId)) := do
  match attributeBindings (← get) object name with
  | none => return none
  | some bindings =>
    let raw ← unionOfBindings bindings
    let values ← (← alternatives raw).mapM (bindTo object)
    return some (bindings, ← unionAll values)

/-- The classes a search goes on to from a class. -/
def superclasses (s : State) (classId : TypeId) : List TypeId :=
  match s.types.tableOf classId with
  | some table => s.heap.basesOf table
  | none => []

/-- The links that lead on from the first `n` types, without those that were seen. -/
def linksAhead (s : State) (seen : List TypeId) : Nat → Nat
  | 0 => 0
  | n + 1 => linksAhead s seen n + if ⟨n⟩ ∈ seen then 0 else (superclasses s ⟨n⟩).length

theorem linksAhead_cons {s : State} {id : TypeId} {seen : List TypeId} (new : id ∉ seen) (n : Nat) :
    linksAhead s seen n = linksAhead s (id :: seen) n +
      if id.index < n then (superclasses s id).length else 0 := by
  induction n with
  | zero => rfl
  | succ n ih =>
    rw [linksAhead, linksAhead, ih]
    by_cases here : id = ⟨n⟩
    · subst here
      simp [new]
    · have other : id.index ≠ n := fun same => here (by rw [← same])
      have before : id.index < n + 1 ↔ id.index < n := by omega
      simp only [List.mem_cons, Ne.symm here, false_or, before]
      omega

/-- Only types of the store have links. -/
theorem superclasses_outside {s : State} {id : TypeId} (outside : s.types.size ≤ id.index) :
    superclasses s id = [] := by
  simp [superclasses, TypeStore.tableOf, TypeStore.get_of_le outside, Ty.table?]

/-- Whether a class is among the pending ones or reached from them, last pending first. -/
def reaches (s : State) (ancestor : TypeId) (seen pending : List TypeId) : Bool :=
  match pending with
  | [] => false
  | current :: pending =>
    if current = ancestor then true
    else if _known : current ∈ seen then reaches s ancestor seen pending
    else reaches s ancestor (current :: seen) ((superclasses s current).reverse ++ pending)
-- Each class is expanded once, however often it is pending.
termination_by linksAhead s seen s.types.size + pending.length
decreasing_by
  · simp
  · rw [linksAhead_cons _known]
    rcases Nat.lt_or_ge current.index s.types.size with inside | outside
    · rw [if_pos inside, List.length_append, List.length_reverse, List.length_cons]
      omega
    · simp [superclasses_outside outside, Nat.not_lt.mpr outside]

def isSubclass (s : State) (classId ancestor : TypeId) : Bool := reaches s ancestor [] [classId]

/-- The class of the method whose body is being walked. -/
def methodOwner (s : State) : Option TypeId :=
  s.frames.head?.bind fun frame => (s.types.function? frame.function).bind (·.classId)

/-- The value whose table gets an attribute. What a method of a base class assigns to an instance of
a subclass belongs to the instances of the base class. -/
def attributeTarget (object : TypeId) : Analysis TypeId := do
  let s ← get
  match s.types.get object, methodOwner s with
  | .instanceOf d, some owner =>
    if d.classId ≠ owner && isSubclass s d.classId owner then canonicalInstance owner
    else return object
  | _, _ => return object

/-- Assigns an attribute on every alternative of a value. -/
def setAttribute (object : TypeId) (name : String) (node : NodeRef) (value : TypeId) :
    Analysis Unit := do
  (← alternatives object).forM fun alternative => do
    match ← tableOf (← attributeTarget alternative) with
    | some table => discard (bindName table name node value .member)
    | none => pure ()

end FlowTypes.Analysis
