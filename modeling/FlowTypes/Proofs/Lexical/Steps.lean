import FlowTypes.Proofs.Lexical.Invariant

/-! The steps in which functions and classes come or change. -/
namespace FlowTypes

namespace TypeStore

variable {s : TypeStore} {id fn o : TypeId} {f g : FunctionType}

theorem originOf_of_unbound (found : s.get id = .function f) (free : f.origin = none) :
    s.originOf id = id :=
  originOf_root (lineage?_of_facts? (facts?_of_function? (function?_eq_some.mpr found))) free

theorem originOf_of_bound (found : s.get id = .function f) (origin : f.origin = some o)
    (root : s.get o = .function g) (free : g.origin = none) : s.originOf id = o :=
  originOf_bound (lineage?_of_facts? (facts?_of_function? (function?_eq_some.mpr found))) origin
    (lineage?_of_facts? (facts?_of_function? (function?_eq_some.mpr root))) free

theorem get_modifyFunction_self (found : s.get fn = .function f) :
    (s.modifyFunction fn change).get fn = .function (change f) := by
  have has : s.Has fn := has_of_get (by simp [found])
  unfold modifyFunction
  rw [found]
  exact get_set_self has _

theorem get_modifyFunction_of_ne (other : id ≠ fn) :
    (s.modifyFunction fn change).get id = s.get id := by
  unfold modifyFunction
  split
  · exact get_set_of_ne other _
  · rfl

theorem modifyFunction_of_none (none : ∀ f, s.get fn ≠ .function f) :
    s.modifyFunction fn change = s := by
  unfold modifyFunction
  split
  · next f found => exact absurd found (none f)
  · rfl

theorem insertArrow_cases (s : TypeStore) : (s.insertArrow fn arrow limits).2 = s ∨
      ∃ arrows, (s.insertArrow fn arrow limits).2 =
        s.modifyFunction (s.originOf fn) fun f => { f with arrows } := by
  unfold insertArrow
  dsimp only
  split
  · exact .inl rfl
  · split
    · exact .inl rfl
    · split
      · exact .inr ⟨_, rfl⟩
      · split
        · exact .inl rfl
        · exact .inr ⟨_, rfl⟩

end TypeStore

theorem Definition.eq_of_treeNode {d' : Definition} (same : d.phrase.treeNode = d'.phrase.treeNode) :
    d = d' := by
  cases d <;> cases d' <;> cases same <;> rfl

namespace State

variable {s s' : State} {fn : TypeId} {f : FunctionType}

/-- The function that a value leads back to is not bound, and belongs to the same class. -/
theorem Lexical.root (lexical : s.Lexical) (found : s.types.get fn = .function f) :
    ∃ g, s.types.get (s.types.originOf fn) = .function g ∧ g.origin = none ∧
      g.classId = f.classId := by
  cases origin : f.origin with
  | none =>
    rw [TypeStore.originOf_of_unbound found origin]
    exact ⟨f, found, origin, rfl⟩
  | some o =>
    obtain ⟨_, _, g, root, free, copied, _⟩ := lexical.bound found origin
    rw [TypeStore.originOf_of_bound found origin root free]
    exact ⟨g, root, free, by rw [copied]⟩

theorem Lexical.rooted (lexical : s.Lexical) : s.types.Rooted := by
  intro id l o found origin
  obtain ⟨arrows, known⟩ := TypeStore.facts?_of_lineage? found
  obtain ⟨f, here, rfl, _⟩ := TypeStore.function?_of_facts? known
  obtain ⟨_, _, g, root, free, _⟩ := lexical.bound (TypeStore.function?_eq_some.mp here) origin
  have root := TypeStore.facts?_of_function? (TypeStore.function?_eq_some.mpr root)
  exact ⟨g.lineage, TypeStore.lineage?_of_facts? root, free⟩

theorem Lexical.known (lexical : s.Lexical) (locates : s.Locates o d.phrase.treeNode)
    (known : s.functions.get? d.node.id = some fn) :
    ∃ f, s.types.get fn = .function f ∧ f.origin = none ∧ f.definition = some d ∧
      s.Stands f (d.owner o) := by
  obtain ⟨f, d', found, free, definition, node⟩ := lexical.functions known
  obtain ⟨o', locates', stands⟩ := lexical.defined found definition
  have same : d'.phrase.treeNode.node.id = d.phrase.treeNode.node.id := by
    rw [d'.node_phrase, d.node_phrase, node]
  obtain ⟨rfl, nodes⟩ := lexical.numbered.locates_unique locates' locates same
  obtain rfl := Definition.eq_of_treeNode nodes
  exact ⟨f, found, free, definition, stands⟩

/-- A function that is not bound may be retouched, if its body stays where it is. -/
theorem Lexical.retouch (lexical : s.Lexical) (change : FunctionType → FunctionType)
    (found : s.types.get fn = .function f) (free : f.origin = none)
    (retouched : f.Retouched (change f))
    (fixed : f.definition = none → (change f).defaults = f.defaults ∧ (change f).env = f.env)
    (inside : ∀ k, s.Stands f (some k) → (change f).env = f.env)
    (defaults : ∀ d, f.definition = some d → DefaultsFit d.parameters f.defaults →
      DefaultsFit d.parameters (change f).defaults) :
    s.Puts fn (change f) { s.heap with types := s.types.modifyFunction fn change } where
  put := TypeStore.get_modifyFunction_self found
  others := fun _ other => TypeStore.get_modifyFunction_of_ne other
  before := .inr ⟨f, found, free, retouched, fixed⟩
  grows := .refl
  defined := fun d definition => by
    rw [retouched.definition] at definition
    obtain ⟨o, locates, stands⟩ := lexical.defined found definition
    refine ⟨o, locates, ?_⟩
    have member : (change f).classId = f.classId := by rw [retouched]
    cases owner : d.owner o with
    | none =>
      rw [owner] at stands
      exact member.trans stands
    | some k =>
      rw [owner] at stands
      exact ⟨member.trans stands.1, inside k stands ▸ stands.2⟩
  defaults := fun d definition => by
    rw [retouched.definition] at definition
    exact defaults d definition (lexical.defaults found definition)
  unbound := fun _ => by
    have same : (change f).receiver = f.receiver := by rw [retouched]
    exact same.trans (lexical.unbound found free)
  bound := fun o origin => by
    rw [retouched.origin, free] at origin
    cases origin

theorem Lexical.insertArrow (lexical : s.Lexical) :
    let s' := { s with heap := { s.heap with types := (s.types.insertArrow fn arrow limits).2 } }
    s'.Lexical ∧ s.Persists own s' := by
  rcases s.types.insertArrow_cases with same | ⟨arrows, changed⟩
  · rw [same]
    exact ⟨lexical, .refl⟩
  · rw [changed]
    cases found : s.types.get (s.types.originOf fn) with
    | function g =>
      have root := TypeStore.facts?_of_function? (TypeStore.function?_eq_some.mpr found)
      have free : g.origin = none := lexical.rooted.originOf (TypeStore.lineage?_of_facts? root)
      have puts := lexical.retouch (fun f => { f with arrows }) found free rfl
        (fun _ => ⟨rfl, rfl⟩) (fun _ _ => rfl) fun _ _ fit => fit
      exact ⟨puts.lexical lexical, puts.persists _⟩
    | _ =>
      rw [TypeStore.modifyFunction_of_none (by simp [found])]
      exact ⟨lexical, .refl⟩

theorem puts_alloc (heap : Heap) (types : heap.types = (s.types.alloc (.function f)).2)
    (grows : s.scopes.Grows heap.scopes)
    (defined : ∀ d, f.definition = some d →
      ∃ o, s.Locates o d.phrase.treeNode ∧ s.Stands f (d.owner o))
    (defaults : ∀ d, f.definition = some d → DefaultsFit d.parameters f.defaults)
    (unbound : f.origin = none → f.receiver = none) (bound : ∀ o, f.origin = some o → s.Bound f o) :
    s.Puts ⟨s.types.size⟩ f heap where
  put := by
    rw [types]
    exact TypeStore.get_alloc_new ..
  others := by
    intro id other
    rw [types]
    exact (s.types.get_alloc_cases _ id).resolve_right fun new => other new.1
  before := .inl (TypeStore.get_of_le (Nat.le_refl _))
  grows := grows
  defined := defined
  defaults := defaults
  unbound := unbound
  bound := bound

theorem puts_newFunctionWith (bases : Bases) (name path : String)
    (complete : FunctionType → FunctionType)
    (defined : ∀ d, (complete { name, table := ⟨s.scopes.size⟩, env }).definition = some d →
      ∃ o, s.Locates o d.phrase.treeNode ∧
        s.Stands (complete { name, table := ⟨s.scopes.size⟩, env }) (d.owner o))
    (defaults : ∀ d, (complete { name, table := ⟨s.scopes.size⟩, env }).definition = some d →
      DefaultsFit d.parameters (complete { name, table := ⟨s.scopes.size⟩, env }).defaults)
    (free : (complete { name, table := ⟨s.scopes.size⟩, env }).origin = none)
    (receiver : (complete { name, table := ⟨s.scopes.size⟩, env }).receiver = none) :
    s.Puts ⟨s.types.size⟩ (complete { name, table := ⟨s.scopes.size⟩, env })
      (s.heap.newFunctionWith bases name path env complete).2 := by
  refine puts_alloc _ ?_ ?_ defined defaults (fun _ => receiver) fun o origin => ?_
  · exact Heap.types_inheritTable ..
  · exact s.heap.grows_newFunctionWith
  · rw [free] at origin
    cases origin

theorem Lexical.bindMethod (lexical : s.Lexical) (found : s.types.get fn = .function f)
    (method : f.classId.isSome = true) :
    let s' := { s with heap := (s.heap.bindMethod (s.types.originOf fn) receiver).2 }
    s'.Lexical ∧ s.Persists own s' := by
  obtain ⟨g, root, free, member⟩ := lexical.root found
  have own : s.types.originOf (s.types.originOf fn) = s.types.originOf fn :=
    TypeStore.originOf_of_unbound root free
  have bound : s.heap.bindMethod (s.types.originOf fn) receiver =
      (⟨s.types.size⟩, { s.heap with types := (s.types.alloc (.function { g with
        arrows := [], origin := some (s.types.originOf fn), receiver := some receiver })).2 }) := by
    unfold Heap.bindMethod
    dsimp only
    rw [show s.heap.types.originOf (s.types.originOf fn) = s.types.originOf fn from own,
      show s.heap.types.function? (s.types.originOf fn) = some g from
        TypeStore.function?_eq_some.mpr root]
    rfl
  rw [bound]
  have puts := puts_alloc { s.heap with types := (s.types.alloc (.function { g with
      arrows := [], origin := some (s.types.originOf fn), receiver := some receiver })).2 }
    rfl .refl ?_ ?_ (fun none => nomatch none) ?_
  · exact ⟨puts.lexical lexical, puts.persists _⟩
  · intro d definition
    obtain ⟨o, locates, stands⟩ := lexical.defined root definition
    refine ⟨o, locates, ?_⟩
    cases owner : d.owner o with
    | none => rw [owner] at stands; exact stands
    | some k => rw [owner] at stands; exact stands
  · intro d definition
    have fit : DefaultsFit d.parameters g.defaults := lexical.defaults root definition
    exact fit
  · rintro _ ⟨⟩
    exact ⟨member ▸ method, rfl, g, root, free, rfl, fun _ => ⟨rfl, rfl⟩⟩

theorem Lexical.onward (lexical : s.Lexical) (persists : s.Persists own s') (heap : s'.heap = s.heap)
    (numbered : s'.Numbered)
    (classes : ∀ {k c}, s'.classes.get? k = some c → ∃ d, s.types.get c = .classType d ∧
      (s.scopes.get d.table).kind = .classBody ∧ (s.scopes.get d.table).owner = some c)
    (functions : ∀ {n fn}, s'.functions.get? n = some fn → ∃ f d, s.types.get fn = .function f ∧
      f.origin = none ∧ f.definition = some d ∧ d.node.id = n) : s'.Lexical := by
  have types : s'.types = s.types := congrArg Heap.types heap
  have scopes : s'.scopes = s.scopes := congrArg Heap.scopes heap
  constructor
  case numbered => exact numbered
  case classes =>
    rw [types, scopes]
    exact classes
  case functions =>
    rw [types]
    exact functions
  case defined =>
    intro id f d found definition
    rw [types] at found
    obtain ⟨o, locates, stands⟩ := lexical.defined found definition
    exact ⟨o, persists.locates locates, persists.stands stands⟩
  case defaults =>
    rw [types]
    exact lexical.defaults
  case unbound =>
    rw [types]
    exact lexical.unbound
  case bound =>
    intro id f o found origin
    rw [types] at found
    obtain ⟨method, receiver, copied⟩ := lexical.bound found origin
    exact ⟨method, receiver, types.symm ▸ copied⟩

theorem Lexical.addClass (lexical : s.Lexical) (new : s.classes.get? k = none)
    (found : s.types.get c = .classType d) (kind : (s.scopes.get d.table).kind = .classBody)
    (owner : (s.scopes.get d.table).owner = some c) :
    { s with classes := s.classes.insert k c }.Lexical ∧
      s.Persists own { s with classes := s.classes.insert k c } := by
  have persists : s.Persists own { s with classes := s.classes.insert k c } := by
    refine { Persists.refl with classes := fun {k' c'} known => ?_ }
    rw [InsertionMap.get?_insert, if_neg]
    · exact known
    · rintro rfl
      rw [new] at known
      cases known
  refine ⟨lexical.onward persists rfl ?_ ?_ lexical.functions, persists⟩
  · exact ⟨lexical.numbered.distinct, lexical.numbered.given, lexical.numbered.apart⟩
  · intro k' c' known
    rw [InsertionMap.get?_insert] at known
    split at known
    · cases known
      exact ⟨d, found, kind, owner⟩
    · exact lexical.classes known

theorem Lexical.addFunction (lexical : s.Lexical) (new : s.functions.get? n = none)
    (found : s.types.get fn = .function f) (free : f.origin = none)
    (definition : f.definition = some d) (node : d.node.id = n) {uncalled : List TypeId} :
    { s with functions := s.functions.insert n fn, uncalled }.Lexical ∧
      s.Persists own { s with functions := s.functions.insert n fn, uncalled } := by
  have persists : s.Persists own { s with functions := s.functions.insert n fn, uncalled } := by
    refine { Persists.refl with functions := fun {n' fn'} known => ?_ }
    rw [InsertionMap.get?_insert, if_neg]
    · exact known
    · rintro rfl
      rw [new] at known
      cases known
  refine ⟨lexical.onward persists rfl ?_ lexical.classes ?_, persists⟩
  · exact ⟨lexical.numbered.distinct, lexical.numbered.given, lexical.numbered.apart⟩
  · intro n' fn' known
    rw [InsertionMap.get?_insert] at known
    split at known
    · next same =>
      cases known
      exact ⟨f, d, found, free, definition, node.trans same.symm⟩
    · exact lexical.functions known

theorem Lexical.hold (lexical : s.Lexical) (vacant : s.tree? p = none) (distinct : tree.ids.Nodup)
    (given : ∀ i ∈ tree.ids, i < s.nextNode)
    (others : ∀ {q t}, s.tree? q = some t → t.ids.Disjoint tree.ids) :
    (s.setStatus p (.loaded .parsed value tree)).Lexical ∧
      s.Persists own (s.setStatus p (.loaded .parsed value tree)) := by
  have persists : s.Persists own (s.setStatus p (.loaded .parsed value tree)) := by
    refine { Persists.refl with trees := fun {q m} held => ?_ }
    rw [tree?_setStatus, if_neg]
    · exact held
    · intro same
      rw [tree?, status?_congr same, ← tree?, vacant] at held
      cases held
  refine ⟨lexical.onward persists rfl ?_ lexical.classes lexical.functions, persists⟩
  exact lexical.numbered.hold distinct given others

end State
end FlowTypes
