import FlowTypes.Proofs.ObjectTables
import FlowTypes.Proofs.Walk.Logic

/-! What there is before the first file is read refers to values only, its values for instances mirror
the classes, and its names and its bindings are in step. -/
namespace FlowTypes

open TypeStore

namespace Prelude

variable {p p' p'' : Prelude}

structure Valid (p : Prelude) : Prop where
  heap : p.heap.Valid
  ordered : p.heap.Ordered
  builtins : p.builtins.Valid p.heap.types
  classes : ∀ id ∈ p.builtins.classes.values, p.heap.types.Value id
  bindings : ∀ b ∈ p.bindings.bindings, p.heap.types.Value b.type
  inStep : InStep p.heap.scopes p.bindings
  builtIn : AllBuiltIn p.heap.scopes p.bindings

def Value (p : Prelude) (id : TypeId) : Prop := p.heap.types.Value id

/-- A valid prelude that is built on another one. -/
structure Onward (p p' : Prelude) : Prop where
  valid : p'.Valid
  evolves : p.heap.Evolves p'.heap

/-- Nothing is known of the result. -/
abbrev Anything {α : Type} (_ : Prelude) (_ : α) : Prop := True

theorem Onward.refl (valid : p.Valid) : Onward p p := ⟨valid, .refl _⟩

theorem Onward.trans (first : Onward p p') (second : Onward p' p'') : Onward p p'' :=
  ⟨second.valid, first.evolves.trans second.evolves⟩

theorem Onward.value (on : Onward p p') {id : TypeId} (h : p.Value id) : p'.Value id :=
  h.mono on.evolves.changes.kept

theorem Onward.move (valid : p.Valid) (move : p.heap.Move h) : Onward p { p with heap := h } := by
  have evolves := move.evolves valid.heap
  have kept : ∀ {id}, p.heap.types.Value id → h.types.Value id := .mono evolves.changes.kept
  refine ⟨?_, evolves⟩
  exact {
    heap := evolves.valid valid.heap
    ordered := move.ordered valid.ordered
    builtins := {
      setInstance := kept valid.builtins.setInstance
      constructors := fun e member m mention =>
        kept (valid.builtins.constructors e member m mention)
      simple := fun e member => kept (valid.builtins.simple e member) }
    classes := fun id member => kept (valid.classes id member)
    bindings := fun b member => kept (valid.bindings b member)
    inStep := valid.inStep.noNewNames move.noNewNames
    builtIn := valid.builtIn.noNewNames move.noNewNames }

/-- A part of the setup goes on from a valid prelude to a valid one. -/
def Builds {α : Type} (m : Setup α) (p : Prelude) (Q : Prelude → α → Prop) : Prop :=
  Onward p (m.run p).2 ∧ Q (m.run p).2 (m.run p).1

namespace Builds

variable {α β : Type} {m : Setup α} {f : α → Setup β} {Q : Prelude → α → Prop}
  {R : Prelude → β → Prop}

theorem pure {a : α} (valid : p.Valid) (h : Q p a) : Builds (pure a) p Q := ⟨.refl valid, h⟩

theorem bind (first : Builds m p Q)
    (next : ∀ a p', Onward p p' → Q p' a → Builds (f a) p' R) : Builds (m >>= f) p R := by
  obtain ⟨on, known⟩ := first
  obtain ⟨on', known'⟩ := next _ _ on known
  exact ⟨on.trans on', known'⟩

theorem get_bind {f : Prelude → Setup β} (next : Builds (f p) p R) : Builds (get >>= f) p R :=
  next

theorem modify {f : Prelude → Prelude} (on : Onward p (f p)) : Builds (modify f) p Anything :=
  ⟨on, trivial⟩

theorem onHeap {f : Heap → α × Heap} (valid : p.Valid) (move : p.heap.Move (f p.heap).2)
    (h : Q { p with heap := (f p.heap).2 } (f p.heap).1) : Builds (onHeap f) p Q :=
  ⟨.move valid move, h⟩

theorem forM {xs : List α} {f : α → Setup Unit} (valid : p.Valid)
    (each : ∀ x ∈ xs, ∀ p', Onward p p' → Builds (f x) p' Anything) :
    Builds (xs.forM f) p Anything := by
  induction xs generalizing p with
  | nil => exact .pure valid trivial
  | cons x xs ih =>
    refine (each x List.mem_cons_self p (.refl valid)).bind fun _ p₁ on _ => ?_
    exact ih on.valid fun y member p' on' =>
      each y (List.mem_cons_of_mem x member) p' (on.trans on')

end Builds

theorem Valid.simple (valid : p.Valid) {id : TypeId} (h : id.index < 10 ∧ id ≠ .cont) :
    p.Value id :=
  valid.heap.sound.simple id h.1 h.2

theorem Valid.class? (valid : p.Valid) {id : TypeId} (found : p.builtins.class? name = some id) :
    p.Value id :=
  valid.classes id (InsertionMap.mem_values_of_get? found)

theorem Onward.define (valid : p.Valid) (table : ScopeId) (hv : p.Value b.type)
    (unused : b.refs = []) (own : b.isBuiltin = true)
    (qualified : b.qualified = p.heap.scopes.qualify table b.name) :
    Onward p { p with
      bindings := (p.bindings.create b).2
      heap.scopes := p.heap.scopes.define table b.name [(p.bindings.create b).1] } := by
  have evolves : p.heap.Evolves { p.heap with
      scopes := p.heap.scopes.define table b.name [(p.bindings.create b).1] } :=
    Heap.evolves_scopes fun _ => ScopeStore.owner_modify fun _ => rfl
  refine ⟨?_, evolves⟩
  exact {
    heap := evolves.valid valid.heap
    ordered := valid.ordered.define
    builtins := valid.builtins
    classes := valid.classes
    bindings := fun b member => by
      rcases Array.mem_push.mp member with member | rfl
      · exact valid.bindings b member
      · exact hv
    inStep := valid.inStep.define (.of_refs unused) table
    builtIn := valid.builtIn.define valid.inStep own qualified }

theorem builds_define (valid : p.Valid)
    (hv : p.Value type) : Builds (define table name type kind) p Anything :=
  .modify (.define (b := {
    name, kind, node := ⟨0, name, .null⟩, type
    qualified := p.heap.scopes.qualify table name, isBuiltin := true }) valid table hv rfl rfl rfl)

theorem builds_classFor (valid : p.Valid) : Builds (classFor name) p Value := by
  refine .get_bind ?_
  split
  · next id found => exact .pure valid (valid.class? found)
  · have made := Heap.gives_newClass (P := TypeStore.Value) p.heap name name p.builtins.scope
    have built : Builds (onHeap (·.newClass name name p.builtins.scope)) p Value :=
      .onHeap valid (.newClass ..) made.refers
    refine built.bind fun id p₁ on₁ hi => ?_
    have noted : Builds (modify fun p => { p with
        builtins.classes := p.builtins.classes.insert name id }) p₁ Anything := by
      have builtins : Builtins.Valid
          { p₁.builtins with classes := p₁.builtins.classes.insert name id } p₁.heap.types :=
        { on₁.valid.builtins with }
      have classes := InsertionMap.forall_values_insert (k := name) hi on₁.valid.classes
      exact .modify ⟨{ on₁.valid with builtins, classes }, .refl _⟩
    exact noted.bind fun _ p₂ on₂ _ => .pure on₂.valid (on₂.value hi)

theorem builds_addBase {id : TypeId} {base : Option String} (valid : p.Valid) :
    Builds (addBase id base) p Anything := by
  refine .modify ?_
  split
  · exact .move valid (.addBase ..)
  · exact .refl valid

theorem builds_addClass (valid : p.Valid) : Builds (addClass name base) p Anything := by
  refine (builds_classFor valid).bind fun id p₁ on₁ hi => ?_
  refine (builds_addBase on₁.valid).bind fun _ p₂ on₂ _ => .get_bind ?_
  exact builds_define on₂.valid (on₂.value hi)

theorem builds_addConstructor (valid : p.Valid) (hop : ∀ m ∈ op.mentions, p.Value m) :
    Builds (addConstructor name op) p Anything := by
  refine .modify ?_
  split
  · next id _ =>
    refine ⟨{ valid with builtins := { valid.builtins with
      constructors := fun entry member => ?_ } }, .refl _⟩
    rcases List.mem_append.mp member with member | member
    · exact valid.builtins.constructors entry member
    · obtain rfl := List.mem_singleton.mp member
      exact hop
  · exact .refl valid

theorem builds_addSimple (valid : p.Valid) (hv : p.Value type) :
    Builds (addSimple name type) p Anything := by
  have noted : Builds (addSimpleClass name type) p Anything := by
    refine .modify ?_
    split
    · next id _ =>
      refine ⟨{ valid with builtins := { valid.builtins with
        simple := fun entry member => ?_ } }, .refl _⟩
      rcases List.mem_append.mp member with member | member
      · exact valid.builtins.simple entry member
      · obtain rfl := List.mem_singleton.mp member
        exact hv
    · exact .refl valid
  refine noted.bind fun _ p₁ on₁ _ => builds_addConstructor on₁.valid ?_
  simpa [NativeOp.mentions] using on₁.value hv

theorem builds_instanceOf (valid : p.Valid) : Builds (instanceOf name) p Value := by
  refine .get_bind ?_
  split
  · next id _ =>
    exact .onHeap valid (.instanceOf id) (Heap.gives_instanceOf id valid.heap.sound).refers
  · exact .pure valid valid.heap.sound.unknown

theorem builds_addFunction (valid : p.Valid)
    (hop : ∀ m ∈ op.mentions, p.Value m) (hc : ∀ c, classId = some c → p.Value c) :
    Builds (addFunction table name op classId) p Anything := by
  have refers : ∀ table, ∀ m ∈ FunctionType.mentions {
      name, table, env := p.builtins.scope, native := some op, classId },
        p.heap.types.Value m := fun _ =>
    FunctionType.forall_mentions.mpr ⟨by simp, hc, by simp, by simp, by rintro _ ⟨⟩; exact hop⟩
  have made : p.heap.Gives TypeStore.Value (p.heap.newFunctionWith p.builtins.bases name
      (p.heap.scopes.qualify table name) p.builtins.scope fun f =>
        { f with native := some op, classId }) :=
    Heap.gives_newFunctionWith _ _ _ _ (fun _ => rfl) refers
  have built : Builds (onHeap fun h => h.newFunctionWith p.builtins.bases name
      (h.scopes.qualify table name) p.builtins.scope fun f =>
        { f with native := some op, classId }) p Value :=
    .onHeap valid (.newFunction _ _ _ _ (fun _ => rfl) (fun _ => rfl) refers) made.refers
  exact .get_bind (built.bind fun id p₁ on₁ hi => builds_define on₁.valid hi)

theorem builds_addMethod (valid : p.Valid)
    (hop : ∀ m ∈ op.mentions, p.Value m) : Builds (addMethod className name op) p Anything := by
  refine .get_bind ?_
  split
  · next id found =>
    split
    · refine builds_addFunction valid hop ?_
      rintro _ ⟨⟩
      exact valid.class? found
    · exact .pure valid trivial
  · exact .pure valid trivial

theorem builds_addClasses (valid : p.Valid) : Builds addClasses p Anything := by
  have classes : ∀ {p : Prelude} (names : List String), p.Valid →
      Builds (names.forM fun name => addClass name (some "object")) p Anything :=
    fun names valid => .forM valid fun name _ _ on => builds_addClass on.valid
  have exceptions : ∀ {p : Prelude}, p.Valid →
      Builds (Builtins.exceptions.forM fun entry => addClass entry.1 (some entry.2)) p
        Anything :=
    fun valid => .forM valid fun entry _ _ on => builds_addClass on.valid
  have simple : ∀ {p : Prelude}, p.Valid →
      Builds (Builtins.simpleClassNames.forM fun entry => addSimple entry.1 entry.2) p
        Anything := by
    refine fun valid => .forM valid fun entry member _ on =>
      builds_addSimple on.valid (on.valid.simple ?_)
    have all : ∀ e ∈ Builtins.simpleClassNames, e.2.index < 10 ∧ e.2 ≠ .cont := by decide
    exact all entry member
  refine (classes _ valid).bind fun _ p₁ on₁ _ => ?_
  refine (builds_addClass on₁.valid).bind fun _ p₂ on₂ _ => ?_
  refine (classes _ on₂.valid).bind fun _ p₃ on₃ _ => ?_
  refine (exceptions on₃.valid).bind fun _ p₄ on₄ _ => ?_
  refine (simple on₄.valid).bind fun _ p₅ on₅ _ => ?_
  refine (builds_instanceOf on₅.valid).bind fun sets p₆ on₆ hs => ?_
  have noted : Builds (modify fun p => { p with builtins.setInstance := sets }) p₆ Anything :=
    .modify ⟨{ on₆.valid with builtins := { on₆.valid.builtins with setInstance := hs } }, .refl _⟩
  refine noted.bind fun _ p₇ on₇ _ => ?_
  have set : ∀ m ∈ (NativeOp.returns sets).mentions, p₇.Value m := by
    simpa [NativeOp.mentions] using on₇.value hs
  refine (builds_addConstructor on₇.valid set).bind fun _ p₈ on₈ _ => ?_
  refine (builds_addConstructor on₈.valid (by simp [NativeOp.mentions])).bind
    fun _ p₉ on₉ _ => ?_
  refine (builds_addConstructor on₉.valid (by simp [NativeOp.mentions])).bind
    fun _ p₁₀ on₁₀ _ => ?_
  exact builds_addConstructor on₁₀.valid (by simp [NativeOp.mentions])

/-- A known function gives a simple type or an instance of the class of files. -/
theorem mentions_functions : ∀ entry ∈ Builtins.functions file,
    ∀ m ∈ entry.2.mentions, m = file ∨ m.index < 10 ∧ m ≠ .cont := by
  have small : ∀ id ∈ [TypeId.int, .none, .bool, .str, .unknown], id.index < 10 ∧ id ≠ .cont := by
    decide
  simp only [List.forall_mem_cons] at small
  simp only [Builtins.functions, NativeOp.mentions, List.forall_mem_cons, List.not_mem_nil, small,
    not_false_eq_true, ne_eq, false_implies, implies_true, and_self, true_or, or_true]

theorem mentions_methods : ∀ entry ∈ Builtins.methods, ∀ method ∈ entry.2,
    ∀ m ∈ method.2.mentions, m.index < 10 ∧ m ≠ .cont := by
  decide

theorem builds_addFunctions (valid : p.Valid) : Builds addFunctions p Anything := by
  refine .get_bind ((builds_instanceOf valid).bind fun file p₁ on₁ hf => ?_)
  have added : Builds ((Builtins.functions file).forM fun entry =>
      addFunction p.builtins.scope entry.1 entry.2 none) p₁ Anything := by
    refine .forM on₁.valid fun entry member p₂ on₂ => ?_
    refine builds_addFunction on₂.valid (fun m mention => ?_) (by simp)
    rcases mentions_functions entry member m mention with rfl | small
    · exact on₂.value hf
    · exact on₂.valid.simple small
  refine added.bind fun _ p₂ on₂ _ => ?_
  exact builds_define on₂.valid (on₂.valid.simple (by decide))

theorem builds_addMethods (valid : p.Valid) : Builds addMethods p Anything := by
  have added : Builds (Builtins.methods.forM fun entry =>
      entry.2.forM fun method => addMethod entry.1 method.1 method.2) p Anything :=
    .forM valid fun entry member _ on => .forM on.valid fun method there _ on' =>
      builds_addMethod on'.valid fun m mention =>
        on'.valid.simple (mentions_methods entry member method there m mention)
  refine added.bind fun _ p₁ on₁ _ => .get_bind ?_
  have str : p₁.Value .str := on₁.valid.simple (by decide)
  have made := Heap.gives_newList p₁.builtins.bases [] str (List.forall_mem_nil _)
  have built : Builds (onHeap (·.newListOf p₁.builtins.bases .str)) p₁ Value :=
    .onHeap on₁.valid (.newList _ [] str (List.forall_mem_nil _)) made.refers
  refine built.bind fun lines p₂ on₂ hl => ?_
  have returns : ∀ {p : Prelude}, p.Value lines →
      ∀ m ∈ (NativeOp.returns lines).mentions, p.Value m := fun h => by
    simpa [NativeOp.mentions] using h
  refine (builds_addMethod on₂.valid (returns hl)).bind fun _ p₃ on₃ _ => ?_
  exact builds_addMethod on₃.valid (returns (on₃.value hl))

theorem blank_entries (table : ScopeId) : (blank.heap.scopes.get table).table.entries = [] :=
  List.sublist_nil.mp (ScopeStore.NoNewNames.alloc.entries table)

theorem blank_valid : blank.Valid where
  heap := {
    first := .refl
    sound := initial_sound
    owners := fun id o owned => by
      have owned : ((({} : ScopeStore).alloc .global none "").2.get id).owner = some o := owned
      rw [ScopeStore.owner_alloc] at owned
      cases owned }
  ordered := Heap.ordered_initial
  builtins := ⟨initial_sound.unknown, List.forall_mem_nil _, List.forall_mem_nil _⟩
  classes := List.forall_mem_nil _
  bindings := by simp [blank]
  inStep := .of_empty blank_entries rfl
  builtIn := fun table name id b entry => absurd entry (by simp [blank_entries])

theorem builds_addBases (valid : p.Valid) : Builds addBases p Anything := by
  refine (builds_classFor valid).bind fun object p₁ on₁ _ => ?_
  refine (builds_classFor on₁.valid).bind fun list p₂ on₂ _ => ?_
  refine (builds_classFor on₂.valid).bind fun dict p₃ on₃ _ => ?_
  refine (builds_classFor on₃.valid).bind fun tuple p₄ on₄ _ => ?_
  refine (builds_classFor on₄.valid).bind fun module p₅ on₅ _ => ?_
  refine (builds_classFor on₅.valid).bind fun function p₆ on₆ _ => ?_
  exact .modify ⟨{ on₆.valid with builtins := { on₆.valid.builtins with } }, .refl _⟩

theorem builds_setup (valid : p.Valid) : Builds setup p Anything := by
  refine (builds_addBases valid).bind fun _ p₁ on₁ _ => ?_
  refine (builds_addClasses on₁.valid).bind fun _ p₂ on₂ _ => ?_
  refine (builds_addFunctions on₂.valid).bind fun _ p₃ on₃ _ => ?_
  exact builds_addMethods on₃.valid

theorem build_valid (built : Builds m blank Anything) : (build m).Valid :=
  built.1.valid

theorem initial_valid : initial.Valid := build_valid (builds_setup blank_valid)

end Prelude

namespace State

theorem ofPrelude_valid (valid : p.Valid) : (ofPrelude p).Valid := by
  have evolved := (Prelude.Onward.move valid (.newScope .global (some p.builtins.scope) "")).valid
  exact {
    heap := evolved.heap
    builtins := evolved.builtins
    bindings := evolved.bindings
    modules := List.forall_mem_nil _
    packages := List.forall_mem_nil _
    nodeTypes := List.forall_mem_nil _
    uncalled := List.forall_mem_nil _
    frames := List.forall_mem_nil _
    functions := List.forall_mem_nil _
    classes := List.forall_mem_nil _
    forward := List.forall_mem_nil _
    boundMethods := List.forall_mem_nil _ }

theorem ofPrelude_names (valid : p.Valid) : InStep (ofPrelude p).scopes (ofPrelude p).bindings ∧
      AllBuiltIn (ofPrelude p).scopes (ofPrelude p).bindings :=
  ⟨valid.inStep.noNewNames .alloc, valid.builtIn.noNewNames .alloc⟩

theorem initial_valid : initial.Valid := ofPrelude_valid Prelude.initial_valid

theorem initial_ordered : initial.heap.Ordered := Prelude.initial_valid.ordered.alloc

theorem initial_names :
    InStep initial.scopes initial.bindings ∧ AllBuiltIn initial.scopes initial.bindings :=
  ofPrelude_names Prelude.initial_valid

end State
end FlowTypes
