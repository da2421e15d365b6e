import FlowTypes.Analysis.Result
import FlowTypes.Proofs.Join
import FlowTypes.Proofs.NameLookup
import Mathlib.Data.List.Induction

/-! What the map of types shows of a node. A node can introduce several bindings, one for each time its
function is applied or one for each name of an import, and a type may have been recorded for it as
well; the map keeps the binding that came last. -/
namespace FlowTypes

/-- Of several values for a key the last one stays. -/
theorem InsertionMap.get?_foldl_insert {α : Type} [DecidableEq κ] {key : α → κ} {value : α → ν}
    {entries : List α} {m : InsertionMap κ ν} {k : κ} :
    (entries.foldl (fun m e => m.insert (key e) (value e)) m).get? k =
      ((entries.filter fun e => key e = k).getLast?.map value).or (m.get? k) := by
  induction entries using List.reverseRecOn with
  | nil => rfl
  | append_singleton entries e ih =>
    rw [List.foldl_append, List.foldl_cons, List.foldl_nil, get?_insert, ih, List.filter_append]
    by_cases own : key e = k
    · simp [own]
    · simp [own, Ne.symm own]

/-- Every alternative of the one type is an alternative of the other. -/
def TypeStore.Covers (s : TypeStore) (a b : TypeId) : Prop :=
  ∀ x ∈ s.alternatives b, s.contains a x = true

instance (s : TypeStore) (a b : TypeId) : Decidable (s.Covers a b) :=
  inferInstanceAs (Decidable (∀ x ∈ _, _))

theorem TypeStore.Covers.refl {s : TypeStore} {a : TypeId} : s.Covers a a :=
  fun x member => List.any_eq_true.mpr ⟨x, member, equal_refl x⟩

/-- A type that covers what was recorded still does when both are united with a value. -/
theorem TypeStore.Proper.covers_unionOpt {s t t' : TypeStore} {a v u m : TypeId} {r : Option TypeId}
    (proper : s.Proper) (ha : s.Has a) (hv : s.Has v) (hr : ∀ x ∈ r, s.Has x ∧ s.Covers a x)
    (first : s.union a v = (u, t)) (second : t.unionOpt r v = (m, t')) : t'.Covers u m := by
  have one := proper.unites_alternatives ha hv
  rw [first] at one
  have value := one.grows.alternatives hv
  cases r with
  | none =>
    cases second
    intro x member
    rw [value] at member
    rw [one.proper.contains_of_amounts one.amounts]
    exact covered_of_mem (List.mem_append_right _ member)
  | some r =>
    obtain ⟨hr, covers⟩ := hr r rfl
    have two := one.proper.unites_alternatives (one.grows.has hr) (one.grows.has hv)
    rw [show t.union r v = (m, t') from second, value, one.grows.alternatives hr] at two
    have amounts := one.amounts.grows one.proper two.grows
    intro x member
    rw [two.proper.contains_of_amounts amounts]
    refine covered_trans two.proper.trans (fun y member => ?_) (two.amounts.same.1 x member)
    rcases List.mem_append.mp member with inRecord | inValue
    · have known : t'.covered (s.alternatives a) y = true := by
        rw [proper.toClosed.covered (one.grows.trans two.grows)
          (fun z inside => (proper.alternatives_plain ha z inside).1)
          (proper.alternatives_plain hr y inRecord).1]
        exact covers y inRecord
      exact covered_append.mpr (.inl known)
    · exact covered_of_mem (List.mem_append_right _ inValue)

namespace State

/-- The bindings that a node introduces, in the order in which they were made. -/
def introducedAt (s : State) (node : NodeId) : List Binding :=
  s.sourceBindings.filter fun b => b.node.id = node

/-- The map shows a type that covers the given one. -/
def Shows (s : State) (node : NodeId) (type : TypeId) : Prop :=
  ∃ shown ∈ s.typeMap.get? node, s.types.Covers shown type

/-- Nothing that is known of the node is missing from the map: neither the type of a binding that it
introduces nor the type that was recorded for it. -/
def Remembers (s : State) (node : NodeId) : Prop :=
  (∀ b ∈ s.introducedAt node, s.Shows node b.type) ∧
    ∀ type ∈ s.nodeTypes.get? node, s.Shows node type

instance (s : State) (node : NodeId) (type : TypeId) : Decidable (s.Shows node type) :=
  inferInstanceAs (Decidable (∃ shown ∈ _, _))

instance (s : State) (node : NodeId) : Decidable (s.Remembers node) :=
  inferInstanceAs (Decidable (_ ∧ _))

/-- What was recorded for a node is covered by the binding that a table has for a name. -/
def Backed (s : State) (table : ScopeId) (name : String) (node : NodeId) : Prop :=
  ∀ type ∈ s.nodeTypes.get? node, ∃ id, s.scopes.lookupLocal table name = some [id] ∧
    s.types.Covers (s.bindings.typeOf id) type

theorem get?_typeMap (s : State) (node : NodeId) : s.typeMap.get? node =
    ((s.introducedAt node).getLast?.map (·.type)).or (s.nodeTypes.get? node) :=
  InsertionMap.get?_foldl_insert

theorem remembers_of_introducedAt_eq_nil {s : State} (none : s.introducedAt node = []) :
    s.Remembers node := by
  have shown := s.get?_typeMap node
  rw [none] at shown
  refine ⟨by simp [none], fun type recorded => ?_⟩
  exact ⟨type, shown.trans recorded, .refl⟩

theorem shows_iff {s : State} (found : (s.introducedAt node).getLast? = some last) :
    s.Shows node type ↔ s.types.Covers last.type type := by
  have shown := s.get?_typeMap node
  rw [found] at shown
  simp [Shows, shown]

/-- What an assignment to a name binds it also records, so that the record stays backed. -/
theorem Backed.assignStep {s : State} {n : Node} (w : Walker)
    (backed : s.Backed (s.bindingTable scope name) name n.id) (valid : s.Valid)
    (proper : s.types.Proper) (inStep : InStep s.scopes s.bindings)
    (has : s.scopes.Has (s.bindingTable scope name)) (value : s.Value v) :
    ∃ s', (w.assignStep scope (.name n name) v).run s = .ok ((), s') ∧
      s'.Backed (s.bindingTable scope name) name n.id := by
  obtain ⟨kind, asked⟩ : ∃ kind, (Analysis.variableKind scope).run s = .ok (kind, s) := by
    unfold Analysis.variableKind
    rw [Walks.run_bind_eq (rfl : (get : Analysis State).run s = .ok (s, s))]
    split <;> exact ⟨_, rfl⟩
  obtain ⟨id, assigned⟩ := assigned_bindName ⟨n.id, name, n.span⟩ v kind inStep rfl has
  let s₁ := (s.bindName scope name ⟨n.id, name, n.span⟩ v kind).2
  let merged := s₁.types.unionOpt (s₁.nodeTypes.get? n.id) v
  refine ⟨{ s₁ with heap.types := merged.2, nodeTypes := s₁.nodeTypes.insert n.id merged.1 },
    (Walks.run_bind_eq asked).trans (Walks.run_bind_eq (Walks.run_bind_eq (f := fun _ => pure ())
      Analysis.run_bindName)), fun type found => ⟨id, assigned.known, ?_⟩⟩
  obtain rfl : merged.1 = type := by simpa [InsertionMap.get?_insert] using found
  show merged.2.Covers (s₁.bindings.typeOf id) merged.1
  have same : merged = s₁.types.unionOpt (s.nodeTypes.get? n.id) v := by rw [← assigned.recorded]
  rcases assigned.binding with ⟨new, _, typeOf, types⟩ | ⟨known, united⟩
  · have nothing : s.nodeTypes.get? n.id = none := by
      refine Option.eq_none_iff_forall_not_mem.mpr fun type there => ?_
      obtain ⟨_, known, _⟩ := backed type there
      cases new.symm.trans known
    rw [same, nothing, typeOf]
    exact .refl
  · refine proper.covers_unionOpt valid.typeOf.has value.has (fun r there => ?_) united same.symm
    obtain ⟨_, known', covers⟩ := backed r there
    cases known.symm.trans known'
    exact ⟨(valid.nodeTypes r (InsertionMap.mem_values_of_get? there)).has, covers⟩

/-- Of all bindings that a node introduces the map of types shows the last one, and what was recorded
only if there is none. So nothing is missing from the map exactly if the last binding covers every
other one and the recorded type. This holds where the one binding that a node introduces backs what was
recorded, which assignments to the name keep up as long as unions are told apart. -/
theorem typeMap_remembers_iff (s : State) (node : NodeId) : s.typeMap.get? node =
      ((s.introducedAt node).getLast?.map (·.type)).or (s.nodeTypes.get? node) ∧
    (s.Remembers node ↔ ∀ last ∈ (s.introducedAt node).getLast?,
      (∀ b ∈ s.introducedAt node, s.types.Covers last.type b.type) ∧
        ∀ type ∈ s.nodeTypes.get? node, s.types.Covers last.type type) ∧
    (∀ b id table name, s.introducedAt node = [b] → s.bindings.typeOf id = b.type →
      s.scopes.lookupLocal table name = some [id] → s.Backed table name node → s.Remembers node) ∧
    (∀ (w : Walker) scope name n v, s.Backed (s.bindingTable scope name) name n.id → s.Valid →
      s.types.Proper → InStep s.scopes s.bindings → s.scopes.Has (s.bindingTable scope name) →
      s.Value v → ∃ s', (w.assignStep scope (.name n name) v).run s = .ok ((), s') ∧
        s'.Backed (s.bindingTable scope name) name n.id) := by
  refine ⟨s.get?_typeMap node, ?_, fun b id table name only type known backed => ?_,
    fun w _ _ _ _ backed => backed.assignStep w⟩
  · cases found : (s.introducedAt node).getLast? with
    | none =>
      have remembers := remembers_of_introducedAt_eq_nil (List.getLast?_eq_none_iff.mp found)
      exact iff_of_true remembers (by simp)
    | some last => simp only [Remembers, shows_iff found, Option.mem_some_iff, forall_eq']
  · have last : (s.introducedAt node).getLast? = some b := by simp [only]
    simp only [Remembers, shows_iff last, only, List.forall_mem_singleton]
    refine ⟨.refl, fun recorded there => ?_⟩
    obtain ⟨_, known', covers⟩ := backed recorded there
    cases known.symm.trans known'
    exact type ▸ covers

/-- A name is assigned for the first time. -/
theorem assignment_remembered : ∃ s',
    ((walker (MemoryTree.fileSystem {}) {} 0).assignStep initial.global
      (.name default "x") .int).run initial = .ok ((), s') ∧
    s'.Backed (initial.bindingTable initial.global "x") "x" 0 ∧ s'.Remembers 0 := by
  have proper : initial.types.Proper := initial_valid.heap.sound.proper (by decide +kernel)
  have has : initial.scopes.Has (initial.bindingTable initial.global "x") := by decide +kernel
  obtain ⟨s', ran, backed⟩ := (typeMap_remembers_iff initial 0).2.2.2
    (walker (MemoryTree.fileSystem {}) {} 0) initial.global "x" default .int (by rintro _ ⟨⟩)
    initial_valid proper initial_names.1 has (initial_valid.simple (by decide))
  obtain ⟨_, _, evaluated, types, known⟩ : ∃ a t,
      ((walker (MemoryTree.fileSystem {}) {} 0).assignStep initial.global
        (.name default "x") .int).run initial = .ok (a, t) ∧
      (t.introducedAt 0).map (·.type) = [t.bindings.typeOf ⟨105⟩] ∧
      t.scopes.lookupLocal (initial.bindingTable initial.global "x") "x" = some [⟨105⟩] :=
    Walks.exists_run (by decide +kernel)
  cases ran.symm.trans evaluated
  obtain ⟨b, only, type⟩ := List.map_eq_singleton_iff.mp types
  exact ⟨s', ran, backed,
    (typeMap_remembers_iff s' 0).2.2.1 b ⟨105⟩ _ "x" only type.symm known backed⟩

end State

/-- A function with one local that gets the value of its parameter. It is called with an integer and with
a string. -/
def twoShapes : FileSystem :=
  (MemoryTree.file {} "a.py" "def f(x):\n y=x\nf(1)\nf(\x27s\x27)").fileSystem

/-- The integer is missing where the parameter is introduced, and where the local is, although it was
recorded there. -/
theorem twoShapes_forgotten : ∃ s s' answer, Session s ∧
    (Call.finish.run (Walker.of twoShapes {})).run s = .ok (answer, s') ∧
    ((s'.introducedAt 1).map (·.type) = [.int, .str] ∧ s'.typeMap.get? 1 = some .str ∧
      ¬s'.Remembers 1) ∧
    (s'.nodeTypes.get? 2).map s'.types.alternatives = some [.int, .str] ∧
      s'.typeMap.get? 2 = some .str ∧ ¬s'.Remembers 2 :=
  Session.exists_whole _ (by decide +kernel)

end FlowTypes
