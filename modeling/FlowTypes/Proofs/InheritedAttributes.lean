import FlowTypes.Proofs.AttributeSearch
import FlowTypes.Proofs.NameLookup
import FlowTypes.Proofs.Subclasses

/-! Attributes that a method of a base class sets. The classes above a class with a value for its instances
have such values too, which the value inherits from. So what the method sets on the value of a subclass
goes to the value of its own class, where the search for attributes finds it from both. -/
namespace FlowTypes

open Relation (ReflTransGen)
open Analysis

theorem Heap.instanceOf_made {h : Heap} (found : h.types.get classId = .classType c)
    (made : c.instance? = some i) : h.instanceOf classId = (i, h) := by
  rw [instanceOf, instanceWithin, TypeStore.class?_eq_some.mpr found]
  simp only [made]

namespace ScopeStore

variable {s : ScopeStore}

theorem lookupAttribute_self (known : s.lookupLocal t name = some ids) :
    s.lookupAttribute t name = some ids := by
  rw [lookupAttribute_eq_findSome?, preorder, walk_new List.not_mem_nil, List.findSome?_cons, known]

theorem lookupAttribute_of_reaches (reaches : s.Reaches t t')
    (known : s.lookupLocal t' name = some ids) : (s.lookupAttribute t name).isSome = true := by
  rw [lookupAttribute_eq_findSome?, List.findSome?_isSome_iff]
  exact ⟨t', mem_preorder.mpr reaches, by rw [known]; rfl⟩

end ScopeStore

namespace State

variable {s s' : State}

theorem Turns.ordered (turns : State.initial.Turns s) : s.heap.Ordered := by
  induction turns with
  | refl => exact initial_ordered
  | tail _ turn ih =>
    cases turn with
    | step step => exact step.ordered ih
    | enter | leave | failure | parse | hold | advance | root | taken | finished => exact ih

/-! ### The classes above -/

/-- The tables that the table of a class reaches belong to the classes above it. If the class has a value,
they have values too, and its table reaches theirs. -/
theorem above_of_reaches (mirrors : s.heap.Mirrors) (isLower : s.types.get lower = .classType d)
    (made : s.heap.instanceTable? lower = some own) (reaches : s.scopes.Reaches d.table table) :
    ∃ upper b above, s.types.get upper = .classType b ∧ b.table = table ∧
      ReflTransGen s.Extends lower upper ∧ s.heap.instanceTable? upper = some above ∧
      s.scopes.Reaches own above := by
  induction reaches with
  | refl => exact ⟨lower, d, own, isLower, rfl, .refl, made, .refl⟩
  | tail _ inherits ih =>
    obtain ⟨mid, m, middle, isMid, rfl, path, made, reaches⟩ := ih
    obtain ⟨upper, b, isUpper, rfl⟩ := mirrors.bases isMid _ inherits
    have owner := mirrors.classOwner isUpper
    have step : s.Extends mid upper :=
      ⟨m.table, congrArg Ty.table? isMid, b.table, inherits, owner⟩
    -- The value for the class in the middle inherits from that for the upper one.
    obtain ⟨m', i, _, _, isValue⟩ := mirrors.toClassGraph.instanceTable? made
    have links : s.heap.LinksTo ⟨mid, middle⟩ m (s.heap.basesOf m.table) :=
      mirrors.linked isValue m isMid
    have member : s.heap.instanceTable? upper ∈ (s.scopes.get middle).supers.map some := by
      rw [State.scopes, links]
      refine List.mem_cons_of_mem _ (List.mem_map_of_mem ?_)
      exact List.mem_filterMap.mpr ⟨b.table, inherits, owner⟩
    obtain ⟨above, inherits', same⟩ := List.mem_map.mp member
    exact ⟨upper, b, above, isUpper, rfl, path.tail step, same.symm, reaches.tail inherits'⟩

theorem isSubclass_of_extends (path : ReflTransGen s.Extends lower upper) :
    isSubclass s lower upper = true := by
  have start : s.Searching upper [] [lower] := ⟨List.not_mem_nil, by simp⟩
  rw [isSubclass, start.reaches_iff]
  exact ⟨lower, List.mem_cons_self, path⟩

/-! ### Assignments -/

theorem bindingTable_object (kind : (s.scopes.get table).kind = .object)
    (root : (s.scopes.get table).parent = none) : s.bindingTable table name = table := by
  have outside : ∀ n, s.scopes.chain n none = [] := fun n => by cases n <;> rfl
  have module : s.scopes.moduleOf table = none := by
    unfold ScopeStore.moduleOf ScopeStore.closest ScopeStore.enclosing
    cases s.scopes.size with
    | zero => rfl
    | succ n => simp [ScopeStore.chain, root, outside, kind]
  simp [bindingTable, ScopeStore.declaredTarget, module, root, ScopeStore.enclosing, outside,
    ScopeStore.functionDefining]

/-- A method of a class above sets an attribute on the value of that class. -/
theorem run_setAttribute (value : s.types.get object = .instanceOf ⟨lower, own⟩)
    (inner : methodOwner s = some upper) (other : lower ≠ upper)
    (sub : isSubclass s lower upper = true) (isUpper : s.types.get upper = .classType b)
    (made : b.instance? = some target) (value' : s.types.get target = .instanceOf ⟨upper, above⟩) :
    (setAttribute object name node type).run s =
      .ok ((), (s.bindName above name node type .member).2) := by
  have single : (Analysis.alternatives object).run s = .ok ([object], s) := by
    show Except.ok (s.types.alternatives object, s) = _
    rw [TypeStore.alternatives, value]
  have redirected : (attributeTarget object).run s = .ok (target, s) := by
    refine (Walks.run_bind_eq (show StateT.run get s = Except.ok (s, s) from rfl)).trans ?_
    rw [value, inner]
    simp only [other, sub, ne_eq, not_false_eq_true, decide_true, Bool.and_self, if_true]
    show Except.ok ((s.heap.instanceOf upper).1, { s with heap := (s.heap.instanceOf upper).2 }) = _
    rw [Heap.instanceOf_made isUpper made]
  have table : (Analysis.tableOf target).run s = .ok (some above, s) := by
    show Except.ok (s.types.tableOf target, s) = _
    rw [TypeStore.tableOf, value']
    rfl
  refine (Walks.run_bind_eq single).trans ?_
  refine Walks.run_bind_eq (a := ()) ?_
  refine (Walks.run_bind_eq redirected).trans ?_
  refine (Walks.run_bind_eq table).trans ?_
  exact Walks.run_bind_eq (f := fun _ => Pure.pure ()) run_bindName

/-- What a method of a class sets on the value of a class below belongs to the value of its own class.
There the name gets a binding, or the one that it has is widened. All other tables stay as they were, that
of the value below among them, and the search for the attribute finds it from both values. Turns lead to
all states of a session, and from each of them to those that a block leads to. -/
theorem attributes_set_above :
    (∀ s, Session s → State.initial.Turns s) ∧
    (∀ files limits n scope body flow s s', State.initial.Turns s →
      ((walker files limits n).block scope body).run s = .ok (flow, s') → State.initial.Turns s') ∧
    ∀ s, State.initial.Turns s → ∀ upper lower b d object,
      s.types.get upper = .classType b → s.types.get lower = .classType d → lower ≠ upper →
      s.scopes.Reaches d.table b.table → d.instance? = some object → methodOwner s = some upper →
      ∃ target above own, b.instance? = some target ∧
        s.types.get target = .instanceOf ⟨upper, above⟩ ∧
        s.types.get object = .instanceOf ⟨lower, own⟩ ∧ own ≠ above ∧
        ∀ name node type, ∃ s' id, (setAttribute object name node type).run s = .ok ((), s') ∧
          s.Assigned s' above name type id ∧ s'.scopes.get own = s.scopes.get own ∧
          s'.scopes.lookupAttribute above name = some [id] ∧
          (s'.scopes.lookupAttribute own name).isSome = true := by
  refine ⟨fun _ session => session.called.turns, ?_, ?_⟩
  · intro files limits n scope body flow s s' turns ran
    have valid := (Turns.evolves turns initial_valid).1
    obtain ⟨on, _⟩ := (walker_sound n).block scope body valid flow s' ran
    exact turns.trans on.walked.turns
  intro s turns upper lower b d object isUpper isLower other reaches made inner
  obtain ⟨mirrors, objects⟩ := Turns.ordered turns
  have graph := mirrors.toClassGraph
  obtain ⟨own, value⟩ := graph.noted isLower made
  have table := Heap.instanceTable?_eq_some isLower made value
  obtain ⟨upper', b', above, isUpper', same, path, table', inherits⟩ :=
    above_of_reaches mirrors isLower table reaches
  -- Tables of classes have one owner.
  have owner : (s.heap.scopes.get b.table).owner = some upper' := same ▸ graph.classOwner isUpper'
  obtain rfl := Option.some.inj ((graph.classOwner isUpper).symm.trans owner)
  obtain ⟨_, target, isUpper', made', value'⟩ := graph.instanceTable? table'
  cases isUpper.symm.trans isUpper'
  have apart : own ≠ above := by
    rintro rfl
    exact other (graph.instanceTable?_inj table table')
  refine ⟨target, above, own, made', value', value, apart, fun name node type => ?_⟩
  obtain ⟨kind, root⟩ := objects target _ value'
  have has : s.scopes.Has above := ScopeStore.has_of_kind (by simp [State.scopes, kind])
  obtain ⟨id, assigned⟩ := assigned_bindName node type .member
    (Turns.inStep turns initial_names.1) (bindingTable_object kind root) has
  refine ⟨_, id, run_setAttribute value inner other (isSubclass_of_extends path) isUpper made' value',
    assigned, assigned.others own apart, ScopeStore.lookupAttribute_self assigned.known, ?_⟩
  refine ScopeStore.lookupAttribute_of_reaches (ReflTransGen.mono ?_ _ _ inherits) assigned.known
  intro t t' inherits
  rwa [ScopeStore.Inherits, assigned.supers]

/-- The type that a qualified name has. -/
def typeNamed (s : State) (qualified : String) : TypeId :=
  ((s.bindings.bindings.find? (·.qualified = qualified)).map (·.type)).getD .unknown

/-- A class two steps above another one, whose value exists. -/
def layers : FileSystem :=
  (MemoryTree.file {} "a.py" ("class A:\n def m(self):1\nclass B(A):1\nclass C(B):1\nC()")).fileSystem

/-- While the method of the class above is applied to the value below, the value above gets the
attributes. -/
theorem layers_attribute_set_above : ∃ s : State, State.initial.Turns s ∧
    methodOwner s = some (s.typeNamed ".a.A") ∧ ∃ upper lower object target,
      s.types.get (s.typeNamed ".a.A") = .classType upper ∧
      s.types.get (s.typeNamed ".a.C") = .classType lower ∧
      s.scopes.Reaches lower.table upper.table ∧ lower.instance? = some object ∧
      upper.instance? = some target ∧ ∀ name node type, ∃ s' above id,
        (setAttribute object name node type).run s = .ok ((), s') ∧
        s.types.tableOf target = some above ∧ s.Assigned s' above name type id := by
  obtain ⟨answer, s, ran, other, free, inner, upper, isUpper, mid, _, lower, isLower, first, second,
      made⟩ :
      ∃ answer s, ((Call.analyze (.ofString "/a.py")).run (Walker.of layers {})).run State.initial =
        .ok (answer, s) ∧ s.typeNamed ".a.C" ≠ s.typeNamed ".a.A" ∧ s.frames = [] ∧
      methodOwner (s.enter (s.typeNamed ".a.A.m")) = some (s.typeNamed ".a.A") ∧
      ∃ upper ∈ s.types.class? (s.typeNamed ".a.A"), ∃ mid ∈ s.types.class? (s.typeNamed ".a.B"),
        ∃ lower ∈ s.types.class? (s.typeNamed ".a.C"),
          mid.table ∈ (s.scopes.get lower.table).supers ∧
          upper.table ∈ (s.scopes.get mid.table).supers ∧ lower.instance?.isSome = true :=
    Walks.exists_run (by decide +kernel)
  obtain ⟨object, made⟩ := Option.isSome_iff_exists.mp made
  have turns : State.initial.Turns (s.enter (s.typeNamed ".a.A.m")) :=
    (attributes_set_above.1 s (.call .start ran)).tail (.enter (by simp [free]))
  have isUpper := TypeStore.class?_eq_some.mp isUpper
  have isLower := TypeStore.class?_eq_some.mp isLower
  have reaches : s.scopes.Reaches lower.table upper.table := .tail (.single first) second
  obtain ⟨target, above, own, made', value', _, _, set⟩ := attributes_set_above.2.2 _ turns _ _ upper
    lower object isUpper isLower other reaches made inner
  refine ⟨_, turns, inner, upper, lower, object, target, isUpper, isLower, reaches, made, made', ?_⟩
  intro name node type
  obtain ⟨s', id, run, assigned, _⟩ := set name node type
  exact ⟨s', above, id, run, congrArg Ty.table? value', assigned⟩

end State
end FlowTypes
