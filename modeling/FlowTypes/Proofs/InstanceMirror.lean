import FlowTypes.Proofs.Instances

/-! New classes and new bases keep the values of classes in line with the classes, and so does every
other step of a run. -/
namespace FlowTypes.Heap

open TypeStore

variable {h h' : Heap} {classId base id i j : TypeId} {c b : ClassType} {d : InstanceType}
  {table : ScopeId}

/-! ### New classes -/

theorem types_newClass_new : (h.newClass name path parent).2.types.get ⟨h.types.size⟩ =
      .classType { name, table := ⟨h.scopes.size⟩ } :=
  TypeStore.get_alloc_new _ _

theorem types_newClass_of_ne (other : id ≠ ⟨h.types.size⟩) :
    (h.newClass name path parent).2.types.get id = h.types.get id := by
  rcases h.types.get_alloc_cases (.classType { name, table := ⟨h.scopes.size⟩ }) id with
    same | ⟨new, _⟩
  · exact same
  · exact absurd new other

theorem class_newClass (found : (h.newClass name path parent).2.types.get id = .classType c) :
    id = ⟨h.types.size⟩ ∧ c = { name, table := ⟨h.scopes.size⟩ } ∨
      h.types.get id = .classType c := by
  by_cases new : id = ⟨h.types.size⟩
  · subst new
    rw [types_newClass_new] at found
    cases found
    exact .inl ⟨rfl, rfl⟩
  · rw [types_newClass_of_ne new] at found
    exact .inr found

theorem instance_newClass : (h.newClass name path parent).2.types.get i = .instanceOf d ↔
      h.types.get i = .instanceOf d := by
  constructor
  · intro value
    have old : i ≠ ⟨h.types.size⟩ := by
      rintro rfl
      rw [types_newClass_new] at value
      cases value
    rwa [types_newClass_of_ne old] at value
  · intro value
    rwa [types_newClass_of_ne (ne_fresh (by simp [value]))]

theorem class_newClass_old (found : h.types.get id = .classType c) (name path : String)
    (parent : ScopeId) : (h.newClass name path parent).2.types.get id = .classType c := by
  rwa [types_newClass_of_ne (ne_fresh (by simp [found]))]

theorem scopes_newClass (owned : (h.scopes.get table).owner = some o) :
    (h.newClass name path parent).2.scopes.get table = h.scopes.get table :=
  scopes_allocWithTable_of_ne (ScopeStore.ne_fresh owned) _ _ _ _

theorem ClassGraph.basesOf_newClass (graph : h.ClassGraph) (found : h.types.get id = .classType c) :
    (h.newClass name path parent).2.basesOf c.table = h.basesOf c.table := by
  apply basesOf_congr (by rw [scopes_newClass (graph.classOwner found)])
  intro sup inherits
  obtain ⟨base, b, isClass, rfl⟩ := graph.bases found sup inherits
  rw [scopes_newClass (graph.classOwner isClass)]

theorem ClassGraph.newClass (graph : h.ClassGraph) :
    (h.newClass name path parent).2.ClassGraph := by
  have own : (h.newClass name path parent).2.scopes.get ⟨h.scopes.size⟩ = _ :=
    scopes_allocWithTable_new _ _ _ _ _
  constructor
  case classOwner =>
    intro id c found
    rcases class_newClass found with ⟨rfl, rfl⟩ | old
    · rw [own]
    · have owner := graph.classOwner old
      rwa [scopes_newClass owner]
  case bases =>
    intro id c found sup inherits
    rcases class_newClass found with ⟨rfl, rfl⟩ | old
    · rw [own] at inherits
      cases inherits
    · rw [scopes_newClass (graph.classOwner old)] at inherits
      obtain ⟨base, b, isClass, same⟩ := graph.bases old sup inherits
      exact ⟨base, b, class_newClass_old isClass name path parent, same⟩
  case distinct =>
    intro id c found
    rcases class_newClass found with ⟨rfl, rfl⟩ | old
    · rw [own]
      exact List.nodup_nil
    · rw [scopes_newClass (graph.classOwner old)]
      exact graph.distinct old
  case superclass =>
    intro id c found
    rcases class_newClass found with ⟨rfl, rfl⟩ | old
    · simp [basesOf, own]
    · rw [graph.basesOf_newClass old]
      exact graph.superclass old
  case instanceOwner =>
    intro i d value
    have owner := graph.instanceOwner (instance_newClass.mp value)
    rwa [scopes_newClass owner]
  case noted =>
    intro id c i found made
    rcases class_newClass found with ⟨rfl, rfl⟩ | old
    · cases made
    · obtain ⟨table, value⟩ := graph.noted old made
      exact ⟨table, instance_newClass.mpr value⟩
  case only =>
    intro i d value
    obtain ⟨c, found, made⟩ := graph.only (instance_newClass.mp value)
    exact ⟨c, class_newClass_old found name path parent, made⟩

theorem Mirrors.newClass (mirrors : h.Mirrors) (name path : String) (parent : ScopeId) :
    (h.newClass name path parent).2.Mirrors where
  toClassGraph := mirrors.toClassGraph.newClass
  linked := fun {i d} value c found => by
    have value := instance_newClass.mp value
    have graph := mirrors.toClassGraph
    obtain ⟨c', old, _⟩ := graph.only value
    have same := class_newClass_old old name path parent
    rw [found] at same
    cases same
    rw [graph.basesOf_newClass old]
    refine (mirrors.linked value c old).of_keeps rfl
      (by rw [scopes_newClass (graph.instanceOwner value)]) fun classId table linked => ?_
    obtain ⟨c', j, isClass, noted, other⟩ := graph.instanceTable? linked
    exact instanceTable?_eq_some (class_newClass_old isClass name path parent) noted
      (instance_newClass.mpr other)

/-! ### New bases -/

/-- A class and its new base, before the link between their values. -/
def withBase (h : Heap) (classId base : TypeId) (c b : ClassType) : Heap :=
  ⟨h.types.modifyClass classId fun c => { c with superclass := c.superclass.or (some base) },
    h.scopes.addSuper c.table b.table⟩

section WithBase

variable (found : h.types.get classId = .classType c)

include found

theorem types_withBase_self (base : TypeId) (b : ClassType) :
    (h.withBase classId base c b).types.get classId =
      .classType { c with superclass := c.superclass.or (some base) } := by
  have has : h.types.Has classId := has_of_get (by simp [found])
  simp only [withBase, modifyClass, found]
  exact get_set_self has _

theorem types_withBase_of_ne (other : id ≠ classId) :
    (h.withBase classId base c b).types.get id = h.types.get id := by
  simp only [withBase, modifyClass, found]
  exact get_set_of_ne other _

theorem instance_withBase : (h.withBase classId base c b).types.get i = .instanceOf d ↔
    h.types.get i = .instanceOf d := by
  by_cases own : i = classId
  · subst own
    simp [types_withBase_self found, found]
  · rw [types_withBase_of_ne found own]

theorem class_withBase (known : (h.withBase classId base c b).types.get id = .classType c') :
    (id = classId ∧ c' = { c with superclass := c.superclass.or (some base) }) ∨
      id ≠ classId ∧ h.types.get id = .classType c' := by
  by_cases own : id = classId
  · subst own
    rw [types_withBase_self found] at known
    cases known
    exact .inl ⟨rfl, rfl⟩
  · rw [types_withBase_of_ne found own] at known
    exact .inr ⟨own, known⟩

theorem class_withBase_of (known : h.types.get id = .classType b) (base : TypeId)
    (b' : ClassType) : ∃ c', (h.withBase classId base c b').types.get id = .classType c' ∧
      c'.table = b.table ∧ c'.instance? = b.instance? := by
  by_cases own : id = classId
  · subst own
    rw [found] at known
    cases known
    exact ⟨_, types_withBase_self found base b', rfl, rfl⟩
  · exact ⟨b, (types_withBase_of_ne found own).trans known, rfl, rfl⟩

theorem instanceTable?_withBase (graph : h.ClassGraph) (linked : h.instanceTable? id = some table) :
    (h.withBase classId base c b).instanceTable? id = some table := by
  obtain ⟨c', j, isClass, noted, value⟩ := graph.instanceTable? linked
  obtain ⟨c'', isClass', _, same⟩ := class_withBase_of found isClass base b
  exact instanceTable?_eq_some isClass' (same.trans noted) ((instance_withBase found).mpr value)

omit found in
theorem scopes_withBase_of_ne (other : table ≠ c.table) :
    (h.withBase classId base c b).scopes.get table = h.scopes.get table :=
  ScopeStore.get_modify_of_ne other

omit found in
theorem owner_withBase (table : ScopeId) :
    ((h.withBase classId base c b).scopes.get table).owner = (h.scopes.get table).owner :=
  ScopeStore.owner_addSuper

theorem supers_withBase (graph : h.ClassGraph) :
    ((h.withBase classId base c b).scopes.get c.table).supers =
      if b.table ∈ (h.scopes.get c.table).supers then (h.scopes.get c.table).supers
      else (h.scopes.get c.table).supers ++ [b.table] := by
  have inside := ScopeStore.inside_of_owner (graph.classOwner found)
  simp only [withBase, ScopeStore.addSuper]
  rw [ScopeStore.get_modify_self inside]
  simp only [List.contains_iff_mem]
  split <;> rfl

theorem ClassGraph.table_ne_of_ne (graph : h.ClassGraph) (other : id ≠ classId)
    (known : h.types.get id = .classType c') : c'.table ≠ c.table := by
  intro same
  have owner := graph.classOwner known
  rw [same, graph.classOwner found] at owner
  exact other (Option.some.inj owner).symm

theorem ClassGraph.basesOf_withBase_of_ne (graph : h.ClassGraph) (other : id ≠ classId)
    (known : h.types.get id = .classType c') :
    (h.withBase classId base c b).basesOf c'.table = h.basesOf c'.table := by
  apply basesOf_congr
  · rw [scopes_withBase_of_ne (graph.table_ne_of_ne found other known)]
  · exact fun sup _ => owner_withBase sup

theorem Mirrors.linked_withBase_of_ne (mirrors : h.Mirrors)
    (value : h.types.get i = .instanceOf d) (other : d.classId ≠ classId) :
    (h.withBase classId base c b).Linked d := by
  have graph := mirrors.toClassGraph
  intro c' known
  rcases class_withBase found known with ⟨same, _⟩ | ⟨_, old⟩
  · exact absurd same other
  · rw [graph.basesOf_withBase_of_ne found other old]
    refine (mirrors.linked value c' old).of_keeps rfl ?_ fun _ _ =>
      instanceTable?_withBase found graph
    rw [scopes_withBase_of_ne (graph.table_ne found value).symm]

theorem Mirrors.linksTo_withBase (mirrors : h.Mirrors)
    (value : h.types.get i = .instanceOf d) (own : d.classId = classId) (base : TypeId)
    (b : ClassType) : (h.withBase classId base c b).LinksTo d
      { c with superclass := c.superclass.or (some base) } (h.basesOf c.table) := by
  have graph := mirrors.toClassGraph
  refine (mirrors.linked value c (own ▸ found)).of_keeps rfl ?_ fun _ _ =>
    instanceTable?_withBase found graph
  rw [scopes_withBase_of_ne (graph.table_ne found value).symm]

variable (foundBase : h.types.get base = .classType b)

include foundBase

theorem ClassGraph.mem_basesOf_iff (graph : h.ClassGraph) :
    base ∈ h.basesOf c.table ↔ b.table ∈ (h.scopes.get c.table).supers := by
  constructor
  · intro member
    have inherits := List.mem_map_of_mem (f := h.types.tableOf) member
    rw [graph.map_basesOf found] at inherits
    simpa [tableOf, foundBase, Ty.table?] using inherits
  · exact fun inherits => List.mem_filterMap.mpr ⟨b.table, inherits, graph.classOwner foundBase⟩

theorem ClassGraph.basesOf_withBase (graph : h.ClassGraph) :
    (h.withBase classId base c b).basesOf c.table =
      if base ∈ h.basesOf c.table then h.basesOf c.table else h.basesOf c.table ++ [base] := by
  have member := graph.mem_basesOf_iff found foundBase
  have owners : (fun sup => ((h.withBase classId base c b).scopes.get sup).owner) =
      fun sup => (h.scopes.get sup).owner := funext owner_withBase
  conv_lhs => unfold basesOf
  rw [owners, supers_withBase found graph]
  by_cases inherits : b.table ∈ (h.scopes.get c.table).supers
  · rw [if_pos inherits, if_pos (member.mpr inherits)]
    rfl
  · rw [if_neg inherits, if_neg fun known => inherits (member.mp known), List.filterMap_append]
    simp [basesOf, graph.classOwner foundBase]

theorem ClassGraph.withBase (graph : h.ClassGraph) : (h.withBase classId base c b).ClassGraph := by
  constructor
  case classOwner =>
    intro id c' known
    have owner := graph.classOwner found
    rw [owner_withBase]
    rcases class_withBase found known with ⟨rfl, rfl⟩ | ⟨_, old⟩
    · exact owner
    · exact graph.classOwner old
  case bases =>
    intro id c' known sup inherits
    have before : (∃ id₀ c₀, h.types.get id₀ = .classType c₀ ∧
        sup ∈ (h.scopes.get c₀.table).supers) ∨ sup = b.table := by
      rcases class_withBase found known with ⟨rfl, rfl⟩ | ⟨other, old⟩
      · rw [supers_withBase found graph] at inherits
        split at inherits
        · exact .inl ⟨_, c, found, inherits⟩
        · rcases List.mem_append.mp inherits with inherits | new
          · exact .inl ⟨_, c, found, inherits⟩
          · exact .inr (List.mem_singleton.mp new)
      · rw [scopes_withBase_of_ne (graph.table_ne_of_ne found other old)] at inherits
        exact .inl ⟨_, c', old, inherits⟩
    rcases before with ⟨id₀, c₀, old, inherits⟩ | rfl
    · obtain ⟨base', b', isClass, same⟩ := graph.bases old sup inherits
      obtain ⟨b'', isClass', own, _⟩ := class_withBase_of found isClass base b
      exact ⟨base', b'', isClass', own.trans same⟩
    · obtain ⟨b'', isClass', own, _⟩ := class_withBase_of found foundBase base b
      exact ⟨base, b'', isClass', own⟩
  case distinct =>
    intro id c' known
    rcases class_withBase found known with ⟨rfl, rfl⟩ | ⟨other, old⟩
    · rw [supers_withBase found graph]
      split
      · exact graph.distinct found
      · next new =>
        exact (graph.distinct found).append (List.nodup_singleton _) (List.disjoint_singleton.mpr new)
    · rw [scopes_withBase_of_ne (graph.table_ne_of_ne found other old)]
      exact graph.distinct old
  case superclass =>
    intro id c' known
    rcases class_withBase found known with ⟨rfl, rfl⟩ | ⟨other, old⟩
    · have first := graph.superclass found
      dsimp only
      rw [graph.basesOf_withBase found foundBase, first]
      cases bases : h.basesOf c.table with
      | nil => simp
      | cons x xs => split <;> simp
    · rw [graph.basesOf_withBase_of_ne found other old]
      exact graph.superclass old
  case instanceOwner =>
    intro i d value
    rw [owner_withBase]
    exact graph.instanceOwner ((instance_withBase found).mp value)
  case noted =>
    intro id c' i known made
    have before : ∃ c₀, h.types.get id = .classType c₀ ∧ c₀.instance? = some i := by
      rcases class_withBase found known with ⟨rfl, rfl⟩ | ⟨_, old⟩
      · exact ⟨c, found, made⟩
      · exact ⟨c', old, made⟩
    obtain ⟨c₀, old, made⟩ := before
    obtain ⟨table, value⟩ := graph.noted old made
    exact ⟨table, (instance_withBase found).mpr value⟩
  case only =>
    intro i d value
    obtain ⟨c₀, old, made⟩ := graph.only ((instance_withBase found).mp value)
    obtain ⟨c', known, _, same⟩ := class_withBase_of found old base b
    exact ⟨c', known, same.trans made⟩

end WithBase

theorem Mirrors.withBase_unmade (mirrors : h.Mirrors) (found : h.types.get classId = .classType c)
    (foundBase : h.types.get base = .classType b) (none : c.instance? = none) :
    (h.withBase classId base c b).Mirrors where
  toClassGraph := mirrors.toClassGraph.withBase found foundBase
  linked := fun {i d} value => by
    have value := (instance_withBase found).mp value
    apply mirrors.linked_withBase_of_ne found value
    intro own
    obtain ⟨c', known, made⟩ := mirrors.only value
    rw [own, found] at known
    cases known
    rw [none] at made
    cases made

theorem Connected.mirrors (connected : Connected d h h') (graph : h.ClassGraph)
    (value : h.types.get i = .instanceOf d)
    (linked : ∀ j e, h.types.get j = .instanceOf e → e.classId ≠ d.classId → h.Linked e) :
    h'.Mirrors where
  toClassGraph := connected.graph
  linked := fun {j e} known => by
    by_cases old : h.types.get j = .instanceOf e
    · by_cases own : e.classId = d.classId
      · obtain ⟨c, found, made⟩ := graph.only value
        obtain ⟨c', found', made'⟩ := graph.only old
        rw [own, found] at found'
        cases found'
        rw [made] at made'
        obtain rfl := Option.some.inj made'
        rw [value] at old
        cases old
        exact connected.own
      · have other : e.table ≠ d.table := by
          intro same
          have owner := graph.instanceOwner old
          rw [same, graph.instanceOwner value] at owner
          obtain rfl := Option.some.inj owner
          rw [value] at old
          cases old
          exact own rfl
        exact connected.fills.linked graph (graph.apart value) old other (linked j e old own)
    · exact connected.linked j e known old

theorem apart_inheritTable (own : h.types.tableOf i = some table)
    (other : h.types.tableOf j = some sup) (known : sup ∈ (h.scopes.get table).supers) :
    h.Apart Ty.role (h.inheritTable i j) := by
  rw [inheritTable_eq own other]
  refine ⟨.refl _, fun table' o owned => ⟨by rwa [ScopeStore.owner_addSuper], ?_⟩⟩
  dsimp only [ScopeStore.addSuper]
  rcases h.scopes.get_modify table table'
    with same | ⟨rfl, changed⟩
  · rw [same]
  · rw [changed, if_pos (List.contains_iff_mem.mpr known)]

theorem Mirrors.withBase_known (mirrors : h.Mirrors) (found : h.types.get classId = .classType c)
    (foundBase : h.types.get base = .classType b) (value : h.types.get i = .instanceOf d)
    (own : d.classId = classId) (member : base ∈ h.basesOf c.table) :
    (h.withBase classId base c b).Mirrors ∧ ∃ j e, b.instance? = some j ∧
      (h.withBase classId base c b).types.get j = .instanceOf e ∧
      e.table ∈ ((h.withBase classId base c b).scopes.get d.table).supers := by
  have graph := mirrors.toClassGraph
  have links := mirrors.linksTo_withBase found value own base b
  constructor
  · refine ⟨graph.withBase found foundBase, fun {j e} known => ?_⟩
    have known := (instance_withBase found).mp known
    by_cases same : e.classId = classId
    · intro c' found'
      rw [same, types_withBase_self found] at found'
      cases found'
      rw [graph.basesOf_withBase found foundBase, if_pos member]
      exact mirrors.linksTo_withBase found known same base b
    · exact mirrors.linked_withBase_of_ne found known same
  · have linked : (h.withBase classId base c b).instanceTable? base ∈
        ((h.withBase classId base c b).scopes.get d.table).supers.map some := by
      rw [links]
      exact List.mem_cons_of_mem _ (List.mem_map_of_mem member)
    obtain ⟨table, inherits, same⟩ := List.mem_map.mp linked
    obtain ⟨b', j, isClass, noted, other⟩ :=
      (graph.withBase found foundBase).instanceTable? same.symm
    obtain ⟨b'', isClass', _, made⟩ := class_withBase_of found foundBase base b
    rw [isClass] at isClass'
    cases isClass'
    exact ⟨j, _, made ▸ noted, other, inherits⟩

theorem Mirrors.addBase (mirrors : h.Mirrors) : (h.addBase classId base).Mirrors := by
  have graph := mirrors.toClassGraph
  unfold Heap.addBase
  split
  · next c b isClass isBase =>
    have found := class?_eq_some.mp isClass
    have foundBase := class?_eq_some.mp isBase
    split
    · exact mirrors
    · cases made : c.instance? with
      | none => exact mirrors.withBase_unmade found foundBase made
      | some i =>
        change Mirrors (((h.withBase classId base c b).instanceOf base).2.inheritTable i
          ((h.withBase classId base c b).instanceOf base).1)
        obtain ⟨table, value⟩ := graph.noted found made
        have value' : (h.withBase classId base c b).types.get i = _ :=
          (instance_withBase found).mpr value
        have graph' := graph.withBase found foundBase
        by_cases member : base ∈ h.basesOf c.table
        · obtain ⟨mirrors', j, e, noted, other, inherits⟩ :=
            mirrors.withBase_known found foundBase value rfl member
          have cached : (h.withBase classId base c b).instanceOf base =
              (j, h.withBase classId base c b) := by
            obtain ⟨b', isClass', _, same⟩ := class_withBase_of found foundBase base b
            simp [Heap.instanceOf, instanceWithin, class?, isClass', same, noted]
          rw [cached]
          exact (apart_inheritTable (congrArg Ty.table? value') (congrArg Ty.table? other)
            inherits).mirrors mirrors'
        · have awaits : Awaits i ⟨classId, table⟩ (h.withBase classId base c b) [base] := by
            refine ⟨graph', value', _, h.basesOf c.table, types_withBase_self found base b, ?_,
              mirrors.linksTo_withBase found value rfl base b⟩
            rw [graph.basesOf_withBase found foundBase, if_neg member]
          have connected := connected_cons awaits
            (makes_instanceOf.completes graph') connected_nil
          refine connected.mirrors graph' value' fun j e known other => ?_
          exact mirrors.linked_withBase_of_ne found ((instance_withBase found).mp known)
            other
  · exact mirrors

/-! ### Runs -/

section Apart

variable (h)

theorem apart_newFunction : h.Apart Ty.role (h.newFunction bases name path env).2 :=
  apart_new rfl (fun table => .function { name, table, env }) (fun _ => rfl)
    (fun _ => rfl)

theorem apart_bindMethod : h.Apart Ty.role (h.bindMethod fn receiver).2 := by
  unfold bindMethod
  dsimp only
  split
  · exact .refl h
  · exact apart_types (agrees_alloc rfl rfl)

end Apart

theorem Mirrors.canonicalArguments (mirrors : h.Mirrors) :
    (h.canonicalArguments bases fn arguments).2.Mirrors := by
  unfold Heap.canonicalArguments
  dsimp only
  split
  · next classId d _ _ =>
    have made := mirrors.instanceOf classId
    split
    · split
      · exact made
      · exact (apart_newTuple overlooks_role _).mirrors made
    · exact mirrors
  · exact mirrors

theorem Mirrors.recordArrow (mirrors : h.Mirrors) :
    (h.recordArrow bases fn arguments result limits).2.Mirrors :=
  (apart_types (agrees_insertArrow (fun _ _ => rfl))).mirrors
    mirrors.canonicalArguments

theorem Step.mirrors (step : Step h h') (mirrors : h.Mirrors) : h'.Mirrors := by
  cases step with
  | @newList bases element positional strings _ _ =>
    exact (apart_newList overlooks_role h).mirrors mirrors
  | @newDict bases key value _ _ => exact (apart_newDict overlooks_role h).mirrors mirrors
  | @newTuple bases elements _ => exact (apart_newTuple overlooks_role h).mirrors mirrors
  | newModule bases name file parent =>
    exact (apart_newModule rfl (fun _ => rfl)).mirrors mirrors
  | newClass name path parent => exact mirrors.newClass name path parent
  | newFunction bases name path env =>
    exact (apart_newFunction h).mirrors mirrors
  | instanceOf classId => exact mirrors.instanceOf classId
  | addBase classId base => exact mirrors.addBase
  | @bindMethod fn receiver _ => exact (apart_bindMethod h).mirrors mirrors
  | @recordArrow bases fn arguments result limits _ _ =>
    exact mirrors.recordArrow
  | @union a b _ _ => exact (apart_types (agrees_union overlooks_role h.types a b)).mirrors mirrors
  | @remove a b _ _ => exact (apart_types (agrees_remove overlooks_role)).mirrors mirrors
  | @widenList list value _ =>
    exact (apart_types (agrees_widenList overlooks_role)).mirrors mirrors
  | @widenEntry dict index value _ _ =>
    exact (apart_types (agrees_widenEntry overlooks_role)).mirrors mirrors
  | @setItem tuple i value _ =>
    exact (apart_types (agrees_setItem overlooks_role)).mirrors mirrors

theorem mirrors_initial {scopes : ScopeStore} : Mirrors ⟨.initial, scopes⟩ := by
  have roles : ∀ t ∈ TypeStore.initial.types.toList, t.role = none := by
    simp [TypeStore.initial, Ty.role]
  have simple : ∀ id, (TypeStore.initial.get id).role = none := forall_initial roles
  have noClass : ∀ {id c}, TypeStore.initial.get id ≠ .classType c := by
    intro id c found
    have none := simple id
    rw [Ty.role_eq_class.mpr found] at none
    cases none
  have noInstance : ∀ {i d}, TypeStore.initial.get i ≠ .instanceOf d := by
    intro i d value
    have none := simple i
    rw [Ty.role_eq_instance.mpr value] at none
    cases none
  exact {
    classOwner := fun found => absurd found noClass
    bases := fun found => absurd found noClass
    distinct := fun found => absurd found noClass
    superclass := fun found => absurd found noClass
    instanceOwner := fun value => absurd value noInstance
    noted := fun found => absurd found noClass
    only := fun value => absurd value noInstance
    linked := fun value => absurd value noInstance }

theorem Reachable.mirrors (reachable : h.Reachable) : h.Mirrors := by
  obtain ⟨scopes, run⟩ := reachable
  induction run with
  | refl => exact mirrors_initial
  | tail _ step ih => exact step.mirrors ih

theorem Mirrors.supers (mirrors : h.Mirrors) (found : h.types.get classId = .classType c)
    (made : c.instance? = some i) : ∃ table links,
      h.types.get i = .instanceOf ⟨classId, table⟩ ∧
      (h.scopes.get table).supers = c.table :: links ∧
      links.map some = (h.basesOf c.table).map h.instanceTable? ∧ (c.table :: links).Nodup := by
  have graph := mirrors.toClassGraph
  obtain ⟨table, value⟩ := graph.noted found made
  have links : (h.scopes.get table).supers.map some = _ := mirrors.linked value c found
  cases supers : (h.scopes.get table).supers with
  | nil => simp [supers] at links
  | cons first rest =>
    rw [supers, List.map_cons, List.cons.injEq] at links
    obtain ⟨same, rest'⟩ := links
    obtain rfl := Option.some.inj same
    refine ⟨table, rest, value, supers, rest', List.nodup_cons.mpr ⟨?_, ?_⟩⟩
    · intro member
      have linked := List.mem_map_of_mem (f := some) member
      rw [rest'] at linked
      obtain ⟨base, _, own⟩ := List.mem_map.mp linked
      obtain ⟨_, j, _, _, other⟩ := graph.instanceTable? own
      exact graph.table_ne found other rfl
    · apply List.Nodup.of_map some
      rw [rest']
      apply (graph.nodup_basesOf found).map_on
      intro x hx y hy same
      have linked : h.instanceTable? x ∈ rest.map some := by
        rw [rest']
        exact List.mem_map_of_mem hx
      obtain ⟨table', _, own⟩ := List.mem_map.mp linked
      exact graph.instanceTable?_inj own.symm (same ▸ own.symm)

/-- The values for instances mirror the classes. A class has one value at most, the one noted for
it; the table of that value inherits from the class and then from the values of the bases of the
class, in their order and each once; the superclass is the first base. The search for a value ends,
also where classes inherit in a circle, and gives the noted one. -/
theorem reachable_instances_mirror_classes {h : Heap} (reachable : h.Reachable) :
    (∀ classId c, h.types.get classId = .classType c →
      c.superclass = (h.basesOf c.table).head? ∧
      (h.basesOf c.table).map h.types.tableOf = (h.scopes.get c.table).supers.map some ∧
      (∀ i d, h.types.get i = .instanceOf d → d.classId = classId → c.instance? = some i) ∧
      ∀ i, c.instance? = some i → ∃ table links,
        h.types.get i = .instanceOf ⟨classId, table⟩ ∧
        (h.scopes.get table).supers = c.table :: links ∧
        links.map some = (h.basesOf c.table).map h.instanceTable? ∧ (c.table :: links).Nodup) ∧
    (∀ i d, h.types.get i = .instanceOf d → ∃ c, h.types.get d.classId = .classType c) ∧
    ∀ classId, Makes h classId (h.instanceOf classId) ∧
      ∀ c, h.types.get classId = .classType c → ∃ c',
        (h.instanceOf classId).2.types.get classId = .classType c' ∧
          c'.instance? = some (h.instanceOf classId).1 := by
  have mirrors := reachable.mirrors
  refine ⟨fun classId c found => ⟨mirrors.superclass found, mirrors.map_basesOf found, ?_, ?_⟩,
    fun i d value => ?_, fun classId => ⟨makes_instanceOf, ?_⟩⟩
  · rintro i d value rfl
    obtain ⟨c', found', made⟩ := mirrors.only value
    rw [found] at found'
    cases found'
    exact made
  · exact fun i made => mirrors.supers found made
  · obtain ⟨c, found, _⟩ := mirrors.only value
    exact ⟨c, found⟩
  · exact (makes_instanceOf.completes mirrors.toClassGraph).noted

/-- Two classes that inherit from each other; the value of the first is made, and then that class
gets a third one as base and its old base once more. -/
def circle : Heap :=
  let (a, h) := newClass ⟨.initial, {}⟩ "A" "m.A" ⟨0⟩
  let (b, h) := h.newClass "B" "m.B" ⟨0⟩
  let h := ((h.addBase a b).addBase b a).instanceOf a |>.2
  let (c, h) := h.newClass "C" "m.C" ⟨0⟩
  (h.addBase a c).addBase a b

theorem circle_reachable : circle.Reachable := by
  have start : Reachable ⟨.initial, {}⟩ := ⟨{}, .refl⟩
  have classes := (start.step (.newClass "A" "m.A" ⟨0⟩)).step (.newClass "B" "m.B" ⟨0⟩)
  have inherits := (classes.step (.addBase ⟨10⟩ ⟨11⟩)).step (.addBase ⟨11⟩ ⟨10⟩)
  have third := (inherits.step (.instanceOf ⟨10⟩)).step (.newClass "C" "m.C" ⟨0⟩)
  exact (third.step (.addBase ⟨10⟩ ⟨14⟩)).step (.addBase ⟨10⟩ ⟨11⟩)

theorem circle_mirrored : circle.Reachable ∧ ∃ table links,
    circle.types.get ⟨12⟩ = .instanceOf ⟨⟨10⟩, table⟩ ∧
    (circle.scopes.get table).supers = ⟨0⟩ :: links ∧
    links.map some = [⟨11⟩, ⟨14⟩].map circle.instanceTable? ∧ (⟨0⟩ :: links).Nodup :=
  ⟨circle_reachable, ((reachable_instances_mirror_classes circle_reachable).1 ⟨10⟩ _ rfl).2.2.2
    ⟨12⟩ rfl⟩

end FlowTypes.Heap
