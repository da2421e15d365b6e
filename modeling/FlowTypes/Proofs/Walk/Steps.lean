import FlowTypes.Analysis.Session
import FlowTypes.Proofs.NameTables
import FlowTypes.Proofs.Values

/-! The steps that a walk over a program is made of. Each of them is given what it refers to as values
of the state it starts from, and leaves a state in which everything that is referred to is a value
again. -/
namespace FlowTypes

namespace Heap

open TypeStore

variable {h h' h'' : Heap}

/-- What a step does to a heap. -/
structure Evolves (h h' : Heap) : Prop where
  changes : Changes Value h.types h'.types
  owned : h.Owned Value h'

/-- A heap in which everything that is referred to is there and is no mark of a block's end. -/
structure Valid (h : Heap) : Prop where
  first : Kept TypeStore.initial h.types
  sound : Sound Value h.types
  owners : ∀ id o, (h.scopes.get id).owner = some o → h.types.Value o

theorem Extends.evolves (step : h.Extends Value h') : h.Evolves h' :=
  ⟨step.changes, step.owned⟩

theorem Evolves.refl (h : Heap) : h.Evolves h := Extends.refl.evolves

theorem Evolves.trans (first : h.Evolves h') (second : h'.Evolves h'') : h.Evolves h'' :=
  ⟨first.changes.trans second.changes, first.owned.trans second.owned second.changes.kept⟩

theorem Evolves.valid (evolves : h.Evolves h') (valid : h.Valid) : h'.Valid where
  first := valid.first.trans evolves.changes.kept
  sound := evolves.changes.sound valid.sound
  owners := fun id o owned => by
    rcases evolves.owned id o owned with owned | new
    · exact (valid.owners id o owned).mono evolves.changes.kept
    · exact new

theorem evolves_types {types : TypeStore} (changes : Changes Value h.types types) :
    h.Evolves { h with types } :=
  ⟨changes, fun _ _ owned => .inl owned⟩

theorem evolves_scopes {scopes : ScopeStore}
    (owners : ∀ id, (scopes.get id).owner = (h.scopes.get id).owner) :
    h.Evolves { h with scopes } :=
  (extends_scopes owners).evolves

/-- A step that touches nothing but the heap. -/
inductive Move : Heap → Heap → Prop
  | newList {h : Heap} (bases : Bases) {element : TypeId} {positional : List TypeId}
      (strings : List String) (he : h.types.Value element)
      (hp : ∀ p ∈ positional, h.types.Value p) :
      Move h (h.newList bases element positional strings).2
  | newDict {h : Heap} (bases : Bases) {key value : TypeId} (hk : h.types.Value key)
      (hv : h.types.Value value) : Move h (h.newDict bases key value).2
  | newTuple {h : Heap} (bases : Bases) {elements : List TypeId}
      (he : ∀ e ∈ elements, h.types.Value e) : Move h (h.newTuple bases elements).2
  | newModule {h : Heap} (bases : Bases) (name : ModuleName) (file : String) (parent : ScopeId) :
      Move h (h.newModule bases name file parent).2
  | newClass {h : Heap} (name path : String) (parent : ScopeId) :
      Move h (h.newClass name path parent).2
  | newFunction {h : Heap} (bases : Bases) (name path : String) (env : ScopeId)
      {complete : FunctionType → FunctionType}
      (own : ∀ table, (complete { name, table, env }).table = table)
      (unbound : ∀ table, (complete { name, table, env }).origin = none)
      (refers : ∀ table, ∀ m ∈ (complete { name, table, env }).mentions, h.types.Value m) :
      Move h (h.newFunctionWith bases name path env complete).2
  | instanceOf {h : Heap} (classId : TypeId) : Move h (h.instanceOf classId).2
  | addBase {h : Heap} (classId base : TypeId) : Move h (h.addBase classId base)
  | canonicalArguments {h : Heap} (bases : Bases) (fn : TypeId) {arguments : TypeId}
      (ha : h.types.Value arguments) : Move h (h.canonicalArguments bases fn arguments).2
  | insertArrow {h : Heap} (fn : TypeId) {arrow : Arrow} (limits : Limits)
      (ha : h.types.Value arrow.arguments) (hr : h.types.Value arrow.result) :
      Move h { h with types := (h.types.insertArrow fn arrow limits).2 }
  /-- A definition that is met again belongs to the scope in which it was met last. -/
  | reopen {h : Heap} (fn : TypeId) (env : ScopeId) :
      Move h { h with types := h.types.modifyFunction fn fun f => { f with env } }
  | setDefaults {h : Heap} (fn : TypeId) {defaults : List (Option TypeId)}
      (hd : ∀ d ∈ defaults, ∀ v, d = some v → h.types.Value v) :
      Move h { h with types := h.types.modifyFunction fn fun f => { f with defaults } }
  | union {h : Heap} {a b : TypeId} (ha : h.types.Has a) (hb : h.types.Has b) :
      Move h { h with types := (h.types.union a b).2 }
  | remove {h : Heap} {a : TypeId} (t : TypeId) (ha : h.types.Has a) :
      Move h { h with types := (h.types.remove a t).2 }
  | widenList {h : Heap} (list : TypeId) {value : TypeId} (hv : h.types.Value value) :
      Move h { h with types := h.types.widenList list value }
  | widenEntry {h : Heap} (dict : TypeId) {index value : TypeId} (hi : h.types.Value index)
      (hv : h.types.Value value) : Move h { h with types := h.types.widenEntry dict index value }
  | newScope {h : Heap} (kind : ScopeKind) (parent : Option ScopeId) (path : String) :
      Move h { h with scopes := (h.scopes.alloc kind parent path).2 }
  /-- A name is taken out of a table or declared to belong to another one. -/
  | rename {h : Heap} {f : Scope → Scope} (id : ScopeId)
      (keeps : ∀ scope, (f scope).role = scope.role ∧ (f scope).supers = scope.supers)
      (fewer : ∀ scope, (f scope).table.entries.Sublist scope.table.entries) :
      Move h { h with scopes := h.scopes.modify id f }

/-- The qualified name of a binding that is introduced with a type. -/
def qualified (h : Heap) (table : ScopeId) (name : String) (type : TypeId) : String :=
  match h.types.get type with
  | .module d => d.qualified
  | _ => h.scopes.qualify table name

theorem Move.evolves (move : Move h h') (valid : h.Valid) : h.Evolves h' := by
  have sound := valid.sound
  cases move with
  | newList bases strings he hp => exact (gives_newList bases strings he hp).extension.evolves
  | newDict bases hk hv => exact (gives_newDict bases hk hv).extension.evolves
  | newTuple bases he => exact (gives_newTuple bases he).extension.evolves
  | newModule bases name file parent =>
    exact (gives_newModule h bases name file parent).extension.evolves
  | newClass name path parent => exact (gives_newClass h name path parent).extension.evolves
  | newFunction bases name path env _ unbound refers =>
    exact (gives_newFunctionWith bases name path env unbound refers).extension.evolves
  | instanceOf classId => exact (gives_instanceOf classId sound).extension.evolves
  | addBase classId base => exact (extends_addBase classId base sound).evolves
  | canonicalArguments bases fn ha =>
    exact (gives_canonicalArguments bases fn sound ha).extension.evolves
  | insertArrow fn limits ha hr => exact evolves_types (sound.insertArrow fn ha hr limits).changes
  | reopen fn env =>
    refine evolves_types (modifyFunction_additions (f := fun f => { f with env })
      (fun f found => ?_) (fun _ => rfl) (fun _ => rfl) fun _ => rfl).changes
    exact fun m member => sound.mention found member
  | @setDefaults fn defaults hd =>
    refine evolves_types (modifyFunction_additions (f := fun f => { f with defaults })
      (fun f found => ?_) (fun _ => rfl) (fun _ => rfl) fun _ => rfl).changes
    obtain ⟨arrows, classId, receiver, _, native⟩ := sound.function found
    exact FunctionType.forall_mentions.mpr ⟨arrows, classId, receiver, hd, native⟩
  | union ha hb => exact evolves_types (sound.union_flow ha hb).1.changes
  | remove t ha => exact evolves_types (sound.remove ha).changes
  | widenList list hv => exact evolves_types (sound.widenList hv)
  | widenEntry dict hi hv => exact evolves_types (sound.widenEntry hi hv)
  | newScope kind parent path => exact evolves_scopes (by simp)
  | rename id keeps =>
    exact evolves_scopes fun _ => ScopeStore.owner_modify fun scope =>
      congrArg (·.2.2.2) (keeps scope).1

theorem Move.noNewNames (move : Move h h') : h.scopes.NoNewNames h'.scopes := by
  cases move with
  | newList => exact (edits_newList h).grows.noNewNames
  | newDict => exact (edits_newDict h).grows.noNewNames
  | newTuple => exact (edits_newTuple h).grows.noNewNames
  | newModule => exact (edits_newModule h).grows.noNewNames
  | newClass => exact (edits_newClass h).grows.noNewNames
  | newFunction => exact (grows_newFunctionWith h).noNewNames
  | instanceOf => exact (edits_instanceOf h).grows.noNewNames
  | addBase => exact (edits_addBase h).grows.noNewNames
  | canonicalArguments => exact (edits_canonicalArguments h).grows.noNewNames
  | newScope => exact .alloc
  | rename id keeps fewer => exact .modify fewer fun scope => (keeps scope).1
  | insertArrow | reopen | setDefaults | union | remove | widenList | widenEntry => exact .refl _

end Heap

/-! ### States -/

@[simp] theorem Binding.type_refer (b : Binding) {node : NodeRef} :
    (b.refer node).type = b.type := by
  unfold refer addRef
  split
  · rfl
  · split <;> rfl

namespace BindingStore

variable {s : BindingStore} {b : Binding}

theorem mem_modify {id : BindingId} (h : b ∈ (s.modify id f).bindings) :
    b ∈ s.bindings ∨ ∃ b' ∈ s.bindings, f b' = b := by
  obtain ⟨i, found⟩ := Array.mem_iff_getElem?.mp h
  simp only [modify, Array.getElem?_modify] at found
  split at found
  · obtain ⟨b', old, changed⟩ := Option.map_eq_some_iff.mp found
    exact .inr ⟨b', Array.mem_of_getElem? old, changed⟩
  · exact .inl (Array.mem_of_getElem? found)

theorem mem_refer {ids : List BindingId}
    (h : b ∈ (ids.foldl (fun s id => s.modify id (·.refer node)) s).bindings) :
    ∃ b' ∈ s.bindings, b'.type = b.type := by
  induction ids generalizing s with
  | nil => exact ⟨b, h, rfl⟩
  | cons id ids ih =>
    obtain ⟨b', member, same⟩ := ih h
    rcases mem_modify member with old | ⟨b'', old, rfl⟩
    · exact ⟨b', old, same⟩
    · exact ⟨b'', old, b''.type_refer.symm.trans same⟩

end BindingStore

def FileStatus.Valid (types : TypeStore) (status : FileStatus) : Prop :=
  ∀ v, status.value? = some v → types.Value v

/-- What is known about the classes that every module sees gives values. -/
structure Builtins.Valid (b : Builtins) (types : TypeStore) : Prop where
  setInstance : types.Value b.setInstance
  constructors : ∀ entry ∈ b.constructors, ∀ m ∈ entry.2.mentions, types.Value m
  simple : ∀ entry ∈ b.simpleClasses, types.Value entry.2

namespace State

open TypeStore

variable {s s' s'' : State}

def Value (s : State) (id : TypeId) : Prop := s.heap.types.Value id

/-- The value is a module that sees what every module sees. -/
def IsModule (s : State) (value : TypeId) : Prop :=
  ∃ table, s.heap.IsModule s.global value table

theorem IsModule.value (isModule : s.IsModule v) : s.Value v := by
  obtain ⟨_, d, path, type, _⟩ := isModule
  exact value_of_plain (has_of_get (by simp [type])) (by simp [isUnion, type]) (by simp [type])

/-- A state that refers to values only. -/
structure Valid (s : State) : Prop where
  heap : s.heap.Valid
  builtins : s.builtins.Valid s.heap.types
  bindings : ∀ b ∈ s.bindings.bindings, s.Value b.type
  modules : ∀ status ∈ s.modules.values, status.Valid s.heap.types
  packages : ∀ v ∈ s.packages.values, s.Value v
  nodeTypes : ∀ v ∈ s.nodeTypes.values, s.Value v
  uncalled : ∀ fn ∈ s.uncalled, s.Value fn
  frames : ∀ frame ∈ s.frames, ∀ v, frame.yielded = some v → s.Value v
  functions : ∀ v ∈ s.functions.values, s.Value v
  classes : ∀ v ∈ s.classes.values, s.Value v
  forward : ∀ f ∈ s.forward.values, s.Value f.type
  boundMethods : ∀ v ∈ s.boundMethods.values, s.Value v

theorem Valid.evolve (valid : s.Valid) (evolves : s.heap.Evolves h) :
    { s with heap := h }.Valid := by
  have kept : ∀ {id}, s.Value id → h.types.Value id := .mono evolves.changes.kept
  exact {
    heap := evolves.valid valid.heap
    builtins := {
      setInstance := kept valid.builtins.setInstance
      constructors := fun e member m mention =>
        kept (valid.builtins.constructors e member m mention)
      simple := fun e member => kept (valid.builtins.simple e member) }
    bindings := fun b member => kept (valid.bindings b member)
    modules := fun status member v found => kept (valid.modules status member v found)
    packages := fun v member => kept (valid.packages v member)
    nodeTypes := fun v member => kept (valid.nodeTypes v member)
    uncalled := fun fn member => kept (valid.uncalled fn member)
    frames := fun frame member v found => kept (valid.frames frame member v found)
    functions := fun v member => kept (valid.functions v member)
    classes := fun v member => kept (valid.classes v member)
    forward := fun f member => kept (valid.forward f member)
    boundMethods := fun v member => kept (valid.boundMethods v member) }

/-- One step of a walk, with what it is given. -/
inductive Step : State → State → Prop
  | log {s : State} (record : LogRecord) : Step s { s with journal := record :: s.journal }
  | report {s : State} {d : Diagnostic} (new : d ∉ s.diagnostics) :
      Step s { s with diagnostics := s.diagnostics ++ [d] }
  | heap {s : State} {h : Heap} (move : s.heap.Move h) : Step s { s with heap := h }
  | recordType {s : State} (node : NodeId) {type : TypeId} (value : s.Value type) :
      Step s { s with
        heap.types := (s.types.unionOpt (s.nodeTypes.get? node) type).2
        nodeTypes := s.nodeTypes.insert node (s.types.unionOpt (s.nodeTypes.get? node) type).1 }
  /-- A name is introduced and becomes known in a table. -/
  | bind {s : State} {b : Binding} (table : ScopeId) (value : s.Value b.type)
      (plain : b.isBuiltin = false) (unused : b.refs = [])
      (named : b.qualified = s.heap.qualified table b.name b.type) :
      Step s { s with
        bindings := (s.bindings.create b).2
        heap.scopes := s.scopes.define table b.name [(s.bindings.create b).1] }
  | bindModule {s : State} {b : Binding} (value : s.Value b.type) (kind : b.kind = .module)
      (plain : b.isBuiltin = false) (unused : b.refs = []) :
      Step s { s with bindings := (s.bindings.create b).2 }
  | extendBinding {s : State} (node : NodeRef) {type : TypeId} (id : BindingId)
      (value : s.Value type) :
      Step s { s with
        heap.types := (s.types.union (s.bindings.typeOf id) type).2
        bindings := s.bindings.modify id fun b =>
          { b with type := (s.types.union (s.bindings.typeOf id) type).1 }.refer node }
  | refer {s : State} (bindings : List BindingId) (node : NodeRef) :
      Step s { s with
        bindings := bindings.foldl (fun b id => b.modify id (·.refer node)) s.bindings }
  | takeForward {s : State} (key : ScopeId × String) :
      Step s { s with forward := s.forward.erase key }
  /-- A coming definition is made known or read. -/
  | forward {s : State} (key : ScopeId × String) {f : Forward} (value : s.Value f.type) :
      Step s { s with forward := s.forward.insert key f }
  | bindMethod {s : State} {fn receiver : TypeId} (source : s.Value fn)
      (value : s.Value receiver) :
      Step s { s with
        heap := (s.heap.bindMethod fn receiver).2
        boundMethods := s.boundMethods.insert (fn, receiver) (s.heap.bindMethod fn receiver).1 }
  | yieldValue {s : State} {frame : Frame} {frames : List Frame} {value : TypeId}
      (innermost : s.frames = frame :: frames) (hv : s.Value value) :
      Step s { s with
        heap.types := (s.types.unionOpt frame.yielded value).2
        frames :=
          { frame with yielded := some (s.types.unionOpt frame.yielded value).1 } :: frames }
  /-- A function that is called is not waiting for it any more. -/
  | called {s : State} (fn : TypeId) : Step s { s with uncalled := s.uncalled.filter (· ≠ fn) }
  | define {s : State} {node : NodeId} {fn : TypeId} (new : s.functions.get? node = none)
      (value : s.Value fn) :
      Step s { s with
        functions := s.functions.insert node fn, uncalled := s.uncalled ++ [fn] }
  | defineClass {s : State} {node : NodeId} {classId : TypeId}
      (new : s.classes.get? node = none) (value : s.Value classId)
      (isClass : (s.types.get classId).isClass = true) :
      Step s { s with classes := s.classes.insert node classId }
  | comprehension {s : State} {node : NodeId} {scope : ScopeId} (path : String)
      (new : s.blocks.get? (node, scope) = none) :
      Step s { s with
        heap.scopes := (s.scopes.alloc .plain (some scope) path).2
        blocks := s.blocks.insert (node, scope) (s.scopes.alloc .plain (some scope) path).1 }
  | package {s : State} {dir : Path} {value : TypeId}
      (new : s.packages.get? dir.components = none) (hv : s.IsModule value) :
      Step s { s with packages := s.packages.insert dir.components value }

theorem Valid.typeOf (valid : s.Valid) {id : BindingId} : s.Value (s.bindings.typeOf id) := by
  unfold BindingStore.typeOf
  cases found : s.bindings.get? id with
  | none => exact valid.heap.sound.unknown
  | some b => exact valid.bindings b (Array.mem_of_getElem? found)

theorem Valid.yields_unionOpt (valid : s.Valid) (ha : ∀ v, a = some v → s.Value v) (hb : s.Value b) :
    Yields TypeStore.Value s.types (s.types.unionOpt a b) := by
  cases a with
  | none => exact ⟨.refl, hb⟩
  | some a => exact valid.heap.sound.union (ha a rfl) hb

theorem Valid.yields_recorded (valid : s.Valid) (value : s.Value type) :
    Yields TypeStore.Value s.types (s.types.unionOpt (s.nodeTypes.get? node) type) :=
  valid.yields_unionOpt
    (fun v found => valid.nodeTypes v (InsertionMap.mem_values_of_get? found)) value

theorem Step.evolves (step : Step s s') (valid : s.Valid) : s.heap.Evolves s'.heap := by
  have sound := valid.heap.sound
  cases step with
  | heap move => exact move.evolves valid.heap
  | recordType node value =>
    exact Heap.evolves_types (valid.yields_recorded value).changes
  | bind table value => exact Heap.evolves_scopes fun _ => ScopeStore.owner_modify fun _ => rfl
  | extendBinding node id value =>
    exact Heap.evolves_types (sound.union valid.typeOf value).changes
  | bindMethod source value =>
    exact (Heap.gives_bindMethod sound source value).extension.evolves
  | yieldValue innermost hv =>
    refine Heap.evolves_types (valid.yields_unionOpt (fun v found => ?_) hv).changes
    exact valid.frames _ (by simp [innermost]) v found
  | comprehension path new => exact Heap.evolves_scopes (by simp [State.scopes])
  | log | report | bindModule | refer | takeForward | forward | called | define | defineClass
  | package => exact .refl _

theorem Step.valid (step : Step s s') (valid : s.Valid) : s'.Valid := by
  have sound := valid.heap.sound
  have evolved := valid.evolve (step.evolves valid)
  cases step with
  | heap => exact evolved
  | log | report | comprehension => exact { evolved with }
  | called fn =>
    exact { evolved with
      uncalled := fun f member => evolved.uncalled f (List.mem_filter.mp member).1 }
  | recordType node value =>
    exact { evolved with nodeTypes :=
      InsertionMap.forall_values_insert (valid.yields_recorded value).refers evolved.nodeTypes }
  | bind table value =>
    refine { evolved with bindings := fun b member => ?_ }
    rcases Array.mem_push.mp member with member | rfl
    · exact evolved.bindings b member
    · exact value
  | bindModule value =>
    refine { evolved with bindings := fun b member => ?_ }
    rcases Array.mem_push.mp member with member | rfl
    · exact evolved.bindings b member
    · exact value
  | extendBinding node id value =>
    refine { evolved with bindings := fun b member => ?_ }
    rcases BindingStore.mem_modify member with member | ⟨b, member, rfl⟩
    · exact evolved.bindings b member
    · rw [Binding.type_refer]
      exact (sound.union valid.typeOf value).refers
  | refer bindings node =>
    refine { evolved with bindings := fun b member => ?_ }
    obtain ⟨b', member, same⟩ := BindingStore.mem_refer member
    exact same ▸ evolved.bindings b' member
  | takeForward key =>
    exact { evolved with
      forward := fun f member => evolved.forward f (InsertionMap.mem_values_erase member) }
  | forward key value =>
    exact { evolved with forward := InsertionMap.forall_values_insert value evolved.forward }
  | bindMethod source value =>
    have bound := (Heap.gives_bindMethod sound source value).refers
    exact { evolved with
      boundMethods := InsertionMap.forall_values_insert bound evolved.boundMethods }
  | @yieldValue frame frames value innermost hv =>
    refine { evolved with frames := fun f member v found => ?_ }
    rcases List.mem_cons.mp member with rfl | member
    · obtain rfl := Option.some.inj found
      refine (valid.yields_unionOpt (fun v found => ?_) hv).refers
      exact valid.frames frame (by simp [innermost]) v found
    · exact evolved.frames f (by simp [innermost, member]) v found
  | define new value =>
    refine { evolved with
      uncalled := fun f member => ?_
      functions := InsertionMap.forall_values_insert value evolved.functions }
    rcases List.mem_append.mp member with member | member
    · exact evolved.uncalled f member
    · exact List.mem_singleton.mp member ▸ value
  | defineClass new value =>
    exact { evolved with classes := InsertionMap.forall_values_insert value evolved.classes }
  | package new hv =>
    exact { evolved with packages := InsertionMap.forall_values_insert hv.value evolved.packages }

end State
end FlowTypes
