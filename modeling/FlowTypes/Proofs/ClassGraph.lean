import FlowTypes.Proofs.Views
import Mathlib.Data.List.Nodup

/-! The values for instances mirror the classes. Whatever the order in which classes, bases and values
come, and also where classes inherit from each other in a circle, the table of the value for a class
inherits from the class and then from the values of its bases. -/
namespace FlowTypes

/-- What a type says about classes: it is one, or it stands for the instances of one. -/
def Ty.role : Ty → Option (ClassType ⊕ InstanceType)
  | classType c => some (.inl c)
  | instanceOf d => some (.inr d)
  | _ => Option.none

theorem Ty.role_eq_class {t : Ty} : t.role = some (.inl c) ↔ t = .classType c := by
  cases t <;> simp [role]

theorem Ty.role_eq_instance {t : Ty} : t.role = some (.inr d) ↔ t = .instanceOf d := by
  cases t <;> simp [role]

theorem overlooks_role : TypeStore.Overlooks Ty.role where
  unknown := rfl
  union := fun _ => rfl
  list := fun _ => rfl
  dict := fun _ => rfl
  tuple := fun _ => rfl

namespace Heap

open TypeStore

variable {h h' h'' : Heap} {classId base id i j : TypeId} {c b : ClassType} {d e : InstanceType}
  {table pending : ScopeId}

/-- The table of the value for a class, if there is one. -/
def instanceTable? (h : Heap) (classId : TypeId) : Option ScopeId :=
  ((h.types.class? classId).bind (·.instance?)).bind h.types.tableOf

/-- The table of the value `d` inherits from its class and then from the values for `bases`. -/
def LinksTo (h : Heap) (d : InstanceType) (c : ClassType) (bases : List TypeId) : Prop :=
  (h.scopes.get d.table).supers.map some = some c.table :: bases.map h.instanceTable?

/-- The value `d` has the links that it should have. -/
def Linked (h : Heap) (d : InstanceType) : Prop :=
  ∀ c, h.types.get d.classId = .classType c → h.LinksTo d c (h.basesOf c.table)

/-- What holds of classes and their values at any time, also while links are still missing. -/
structure ClassGraph (h : Heap) : Prop where
  classOwner : ∀ {id c}, h.types.get id = .classType c → (h.scopes.get c.table).owner = some id
  bases : ∀ {id c}, h.types.get id = .classType c → ∀ sup ∈ (h.scopes.get c.table).supers,
    ∃ base b, h.types.get base = .classType b ∧ b.table = sup
  distinct : ∀ {id c}, h.types.get id = .classType c → (h.scopes.get c.table).supers.Nodup
  superclass : ∀ {id c}, h.types.get id = .classType c → c.superclass = (h.basesOf c.table).head?
  instanceOwner : ∀ {i d}, h.types.get i = .instanceOf d → (h.scopes.get d.table).owner = some i
  noted : ∀ {id c i}, h.types.get id = .classType c → c.instance? = some i →
    ∃ table, h.types.get i = .instanceOf ⟨id, table⟩
  only : ∀ {i d}, h.types.get i = .instanceOf d →
    ∃ c, h.types.get d.classId = .classType c ∧ c.instance? = some i

/-- The values have their links as well. -/
structure Mirrors (h : Heap) : Prop extends ClassGraph h where
  linked : ∀ {i d}, h.types.get i = .instanceOf d → h.Linked d

/-! ### Bases -/

theorem basesOf_congr (supers : (h'.scopes.get table).supers = (h.scopes.get table).supers)
    (owners : ∀ sup ∈ (h.scopes.get table).supers,
      (h'.scopes.get sup).owner = (h.scopes.get sup).owner) :
    h'.basesOf table = h.basesOf table := by
  unfold basesOf
  rw [supers]
  exact List.filterMap_congr owners

theorem ClassGraph.of_mem_basesOf (graph : h.ClassGraph) (found : h.types.get id = .classType c)
    (member : base ∈ h.basesOf c.table) : ∃ b, h.types.get base = .classType b := by
  obtain ⟨sup, inherits, owner⟩ := List.mem_filterMap.mp member
  obtain ⟨base', b, isClass, rfl⟩ := graph.bases found sup inherits
  rw [graph.classOwner isClass] at owner
  obtain rfl := Option.some.inj owner
  exact ⟨b, isClass⟩

theorem ClassGraph.map_basesOf (graph : h.ClassGraph) (found : h.types.get id = .classType c) :
    (h.basesOf c.table).map h.types.tableOf = (h.scopes.get c.table).supers.map some := by
  have bases := graph.bases found
  unfold basesOf
  generalize (h.scopes.get c.table).supers = supers at bases ⊢
  induction supers with
  | nil => rfl
  | cons sup supers ih =>
    obtain ⟨base, b, isClass, rfl⟩ := bases sup List.mem_cons_self
    have rest := ih fun sup member => bases sup (List.mem_cons_of_mem _ member)
    simp only [List.filterMap_cons, graph.classOwner isClass, List.map_cons, rest]
    simp [tableOf, isClass, Ty.table?]

theorem ClassGraph.nodup_basesOf (graph : h.ClassGraph) (found : h.types.get id = .classType c) :
    (h.basesOf c.table).Nodup := by
  apply List.Nodup.of_map h.types.tableOf
  rw [graph.map_basesOf found]
  exact (graph.distinct found).map fun _ _ => Option.some.inj

theorem instanceTable?_eq_some (found : h.types.get classId = .classType c)
    (made : c.instance? = some i) (value : h.types.get i = .instanceOf d) :
    h.instanceTable? classId = some d.table := by
  simp [instanceTable?, class?, found, made, tableOf, value, Ty.table?]

theorem ClassGraph.instanceTable? (graph : h.ClassGraph)
    (linked : h.instanceTable? classId = some table) : ∃ c i, h.types.get classId = .classType c ∧
      c.instance? = some i ∧ h.types.get i = .instanceOf ⟨classId, table⟩ := by
  obtain ⟨i, noted, owns⟩ := Option.bind_eq_some_iff.mp linked
  obtain ⟨c, found, noted⟩ := Option.bind_eq_some_iff.mp noted
  have found := class?_eq_some.mp found
  obtain ⟨table', value⟩ := graph.noted found noted
  simp only [tableOf, value, Ty.table?, Option.some.injEq] at owns
  subst owns
  exact ⟨c, i, found, noted, value⟩

theorem ClassGraph.instanceTable?_inj (graph : h.ClassGraph)
    (first : h.instanceTable? classId = some table) (second : h.instanceTable? base = some table) :
    classId = base := by
  obtain ⟨_, i, _, _, left⟩ := graph.instanceTable? first
  obtain ⟨_, j, _, _, right⟩ := graph.instanceTable? second
  have owner := graph.instanceOwner left
  have owner' := graph.instanceOwner right
  obtain rfl : i = j := Option.some.inj (owner.symm.trans owner')
  rw [left] at right
  cases right
  rfl

theorem ClassGraph.table_ne (graph : h.ClassGraph) (found : h.types.get id = .classType c)
    (value : h.types.get i = .instanceOf d) : c.table ≠ d.table := by
  intro same
  have owner := graph.classOwner found
  rw [same, graph.instanceOwner value] at owner
  obtain rfl := Option.some.inj owner
  rw [found] at value
  cases value

theorem ClassGraph.unlinked (graph : h.ClassGraph) (found : h.types.get id = .classType c)
    (links : h.LinksTo d c done) (fresh : base ∉ done) (value : h.instanceTable? base = some table) :
    table ∉ (h.scopes.get d.table).supers := by
  intro member
  have member : some table ∈ some c.table :: done.map h.instanceTable? := by
    rw [← links]
    exact List.mem_map_of_mem member
  obtain ⟨_, i, _, _, isValue⟩ := graph.instanceTable? value
  rcases List.mem_cons.mp member with same | member
  · exact graph.table_ne found isValue (Option.some.inj same).symm
  · obtain ⟨other, known, same⟩ := List.mem_map.mp member
    exact fresh (graph.instanceTable?_inj same value ▸ known)

/-! ### Steps that concern no class -/

theorem Apart.class_iff (apart : h.Apart Ty.role h') :
    h'.types.get id = .classType c ↔ h.types.get id = .classType c := by
  rw [← Ty.role_eq_class, apart.types id, Ty.role_eq_class]

theorem Apart.instance_iff (apart : h.Apart Ty.role h') :
    h'.types.get i = .instanceOf d ↔ h.types.get i = .instanceOf d := by
  rw [← Ty.role_eq_instance, apart.types i, Ty.role_eq_instance]

theorem Apart.basesOf (apart : h.Apart Ty.role h') (graph : h.ClassGraph)
    (found : h.types.get id = .classType c) : h'.basesOf c.table = h.basesOf c.table := by
  apply basesOf_congr (apart.tables _ _ (graph.classOwner found)).2
  intro sup inherits
  obtain ⟨base, b, isClass, rfl⟩ := graph.bases found sup inherits
  have owner := graph.classOwner isClass
  rw [owner, (apart.tables _ _ owner).1]

theorem Apart.instanceTable? (apart : h.Apart Ty.role h') (graph : h.ClassGraph)
    (found : h.instanceTable? classId = some table) : h'.instanceTable? classId = some table := by
  obtain ⟨c, i, isClass, noted, value⟩ := graph.instanceTable? found
  exact instanceTable?_eq_some (apart.class_iff.mpr isClass) noted (apart.instance_iff.mpr value)

theorem LinksTo.of_keeps (links : h.LinksTo d c bases) (own : c'.table = c.table)
    (supers : (h'.scopes.get d.table).supers = (h.scopes.get d.table).supers)
    (keeps : ∀ classId table, h.instanceTable? classId = some table →
      h'.instanceTable? classId = some table) :
    h'.LinksTo d c' bases := by
  unfold LinksTo at links ⊢
  rw [supers, links, own]
  refine congrArg _ (List.map_congr_left fun base member => ?_)
  have linked : h.instanceTable? base ∈ (h.scopes.get d.table).supers.map some := by
    rw [links]
    exact List.mem_cons_of_mem _ (List.mem_map_of_mem member)
  obtain ⟨table, _, same⟩ := List.mem_map.mp linked
  rw [← same, keeps base table same.symm]

theorem Apart.classGraph (apart : h.Apart Ty.role h') (graph : h.ClassGraph) : h'.ClassGraph where
  classOwner := fun found => (apart.tables _ _ (graph.classOwner (apart.class_iff.mp found))).1
  bases := fun found sup inherits => by
    have found := apart.class_iff.mp found
    rw [(apart.tables _ _ (graph.classOwner found)).2] at inherits
    obtain ⟨base, b, isClass, own⟩ := graph.bases found sup inherits
    exact ⟨base, b, apart.class_iff.mpr isClass, own⟩
  distinct := fun found => by
    have found := apart.class_iff.mp found
    rw [(apart.tables _ _ (graph.classOwner found)).2]
    exact graph.distinct found
  superclass := fun found => by
    have found := apart.class_iff.mp found
    rw [apart.basesOf graph found]
    exact graph.superclass found
  instanceOwner := fun value =>
    (apart.tables _ _ (graph.instanceOwner (apart.instance_iff.mp value))).1
  noted := fun found made => by
    obtain ⟨table, value⟩ := graph.noted (apart.class_iff.mp found) made
    exact ⟨table, apart.instance_iff.mpr value⟩
  only := fun value => by
    obtain ⟨c, found, made⟩ := graph.only (apart.instance_iff.mp value)
    exact ⟨c, apart.class_iff.mpr found, made⟩

theorem Apart.mirrors (apart : h.Apart Ty.role h') (mirrors : h.Mirrors) : h'.Mirrors where
  toClassGraph := apart.classGraph mirrors.toClassGraph
  linked := fun value c found => by
    have value := apart.instance_iff.mp value
    have found := apart.class_iff.mp found
    have graph := mirrors.toClassGraph
    rw [apart.basesOf graph found]
    exact (mirrors.linked value c found).of_keeps rfl
      (apart.tables _ _ (graph.instanceOwner value)).2 fun _ _ => apart.instanceTable? graph

/-! ### Steps that make values -/

/-- Values are added and nothing else about classes changes; of the tables that there were, one at
most gets more links. -/
structure Fills (pending : ScopeId) (h h' : Heap) : Prop where
  classes : ∀ {id c}, h.types.get id = .classType c → ∃ c', h'.types.get id = .classType c' ∧
    c'.table = c.table ∧ c'.superclass = c.superclass ∧
      ∀ i, c.instance? = some i → c'.instance? = some i
  old : ∀ {id c'}, h'.types.get id = .classType c' → ∃ c, h.types.get id = .classType c
  instances : ∀ {i d}, h.types.get i = .instanceOf d → h'.types.get i = .instanceOf d
  tables : ∀ table, table.index < h.scopes.size → table ≠ pending →
    h'.scopes.get table = h.scopes.get table
  scopes : h.scopes.size ≤ h'.scopes.size

theorem Fills.refl : Fills pending h h where
  classes := fun found => ⟨_, found, rfl, rfl, fun _ made => made⟩
  old := fun found => ⟨_, found⟩
  instances := fun value => value
  tables := fun _ _ _ => rfl
  scopes := Nat.le_refl _

theorem Fills.trans (first : Fills pending h h') (second : Fills pending h' h'') :
    Fills pending h h'' where
  classes := fun found => by
    obtain ⟨c', found', table, superclass, made⟩ := first.classes found
    obtain ⟨c'', found'', table', superclass', made'⟩ := second.classes found'
    exact ⟨c'', found'', table'.trans table, superclass'.trans superclass,
      fun i known => made' i (made i known)⟩
  old := fun found => by
    obtain ⟨c', found'⟩ := second.old found
    exact first.old found'
  instances := fun value => second.instances (first.instances value)
  tables := fun table inside other =>
    (second.tables table (Nat.lt_of_lt_of_le inside first.scopes) other).trans
      (first.tables table inside other)
  scopes := Nat.le_trans first.scopes second.scopes

theorem Fills.of_fresh (fills : Fills ⟨h.scopes.size⟩ h h') : Fills pending h h' where
  classes := fills.classes
  old := fills.old
  instances := fills.instances
  tables := fun table inside _ => fills.tables table inside fun same => by
    rw [same] at inside
    exact Nat.lt_irrefl _ inside
  scopes := fills.scopes

theorem Fills.instanceTable? (fills : Fills pending h h') (graph : h.ClassGraph)
    (found : h.instanceTable? classId = some table) : h'.instanceTable? classId = some table := by
  obtain ⟨c, i, isClass, noted, value⟩ := graph.instanceTable? found
  obtain ⟨c', isClass', _, _, made⟩ := fills.classes isClass
  exact instanceTable?_eq_some isClass' (made i noted) (fills.instances value)

theorem Fills.classTable (fills : Fills pending h h') (graph : h.ClassGraph)
    (apart : ∀ id c, h.types.get id = .classType c → c.table ≠ pending)
    (found : h.types.get id = .classType c) : h'.scopes.get c.table = h.scopes.get c.table :=
  fills.tables _ (ScopeStore.inside_of_owner (graph.classOwner found)) (apart id c found)

theorem Fills.basesOf (fills : Fills pending h h') (graph : h.ClassGraph)
    (apart : ∀ id c, h.types.get id = .classType c → c.table ≠ pending)
    (found : h.types.get id = .classType c) : h'.basesOf c.table = h.basesOf c.table := by
  apply basesOf_congr (by rw [fills.classTable graph apart found])
  intro sup inherits
  obtain ⟨base, b, isClass, rfl⟩ := graph.bases found sup inherits
  rw [fills.classTable graph apart isClass]

theorem ClassGraph.apart (graph : h.ClassGraph) (value : h.types.get i = .instanceOf d) :
    ∀ id c, h.types.get id = .classType c → c.table ≠ d.table :=
  fun _ _ found => graph.table_ne found value

theorem ClassGraph.apart_fresh (graph : h.ClassGraph) :
    ∀ id c, h.types.get id = .classType c → c.table ≠ ⟨h.scopes.size⟩ :=
  fun _ _ found => ScopeStore.ne_fresh (graph.classOwner found)

theorem Fills.linked (fills : Fills pending h h') (graph : h.ClassGraph)
    (apart : ∀ id c, h.types.get id = .classType c → c.table ≠ pending)
    (value : h.types.get i = .instanceOf d) (other : d.table ≠ pending) (linked : h.Linked d) :
    h'.Linked d := by
  intro c' found'
  obtain ⟨c, found⟩ := fills.old found'
  obtain ⟨_, same, own, _⟩ := fills.classes found
  rw [found'] at same
  cases same
  rw [own, fills.basesOf graph apart found]
  refine (linked c found).of_keeps own ?_ fun _ _ => fills.instanceTable? graph
  rw [fills.tables _ (ScopeStore.inside_of_owner (graph.instanceOwner value)) other]

/-- The classes are as they were; the values remain to be looked at. -/
theorem Fills.classGraph (fills : Fills pending h h') (graph : h.ClassGraph)
    (apart : ∀ id c, h.types.get id = .classType c → c.table ≠ pending)
    (instanceOwner : ∀ {i d}, h'.types.get i = .instanceOf d →
      (h'.scopes.get d.table).owner = some i)
    (noted : ∀ {id c i}, h'.types.get id = .classType c → c.instance? = some i →
      ∃ table, h'.types.get i = .instanceOf ⟨id, table⟩)
    (only : ∀ {i d}, h'.types.get i = .instanceOf d →
      ∃ c, h'.types.get d.classId = .classType c ∧ c.instance? = some i) : h'.ClassGraph := by
  have before : ∀ {id c'}, h'.types.get id = .classType c' → ∃ c, h.types.get id = .classType c ∧
      c'.table = c.table ∧ c'.superclass = c.superclass := by
    intro id c' found'
    obtain ⟨c, found⟩ := fills.old found'
    obtain ⟨_, same, own, superclass, _⟩ := fills.classes found
    rw [found'] at same
    cases same
    exact ⟨c, found, own, superclass⟩
  constructor
  case classOwner =>
    intro id c' found'
    obtain ⟨c, found, own, _⟩ := before found'
    rw [own, fills.classTable graph apart found]
    exact graph.classOwner found
  case bases =>
    intro id c' found' sup inherits
    obtain ⟨c, found, own, _⟩ := before found'
    rw [own, fills.classTable graph apart found] at inherits
    obtain ⟨base, b, isClass, rfl⟩ := graph.bases found sup inherits
    obtain ⟨b', isClass', own', _⟩ := fills.classes isClass
    exact ⟨base, b', isClass', own'⟩
  case distinct =>
    intro id c' found'
    obtain ⟨c, found, own, _⟩ := before found'
    rw [own, fills.classTable graph apart found]
    exact graph.distinct found
  case superclass =>
    intro id c' found'
    obtain ⟨c, found, own, superclass⟩ := before found'
    rw [own, superclass, fills.basesOf graph apart found]
    exact graph.superclass found
  case instanceOwner => exact instanceOwner
  case noted => exact noted
  case only => exact only

end Heap
end FlowTypes
