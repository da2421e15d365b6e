import FlowTypes.Proofs.ClassGraph
import Mathlib.Data.Finset.Card
import Mathlib.Data.Finset.Range

/-! How the values for instances are made: a value for the class, then values for its bases, which lead
to their own bases, until every class on the way has its value. -/
namespace FlowTypes.Heap

open TypeStore

variable {h h' h'' : Heap} {classId base id i j : TypeId} {c b : ClassType} {d e : InstanceType}
  {table pending : ScopeId}

/-! ### One value -/

theorem types_makeInstance_new (found : h.types.get classId = .classType c) :
    (h.makeInstance classId c).2.types.get ⟨h.types.size⟩ =
      .instanceOf ⟨classId, ⟨h.scopes.size⟩⟩ := by
  have other : classId ≠ ⟨h.types.size⟩ := ne_fresh (by simp [found])
  simp only [makeInstance, types_inheritTable, modifyClass]
  split
  · rw [get_set_of_ne other.symm]
    exact get_alloc_new _ _
  · exact get_alloc_new _ _

theorem types_makeInstance_class (found : h.types.get classId = .classType c) :
    (h.makeInstance classId c).2.types.get classId =
      .classType { c with instance? := some ⟨h.types.size⟩ } := by
  have has : h.types.Has classId := has_of_get (by simp [found])
  have kept : (h.allocWithTable .object none (h.scopes.get c.table).path fun table =>
      .instanceOf { classId, table }).2.types.get classId = .classType c :=
    (get_alloc has).trans found
  have has' : (h.allocWithTable .object none (h.scopes.get c.table).path fun table =>
      .instanceOf { classId, table }).2.types.Has classId := has_of_get (by simp [kept])
  simp only [makeInstance, types_inheritTable, modifyClass, kept]
  rw [get_set_self has']
  rfl

theorem types_makeInstance_of_ne (other : id ≠ classId) (old : id ≠ ⟨h.types.size⟩) :
    (h.makeInstance classId c).2.types.get id = h.types.get id := by
  simp only [makeInstance, types_inheritTable, modifyClass]
  have kept : (h.allocWithTable .object none (h.scopes.get c.table).path fun table =>
      .instanceOf { classId, table }).2.types.get id = h.types.get id := by
    rcases h.types.get_alloc_cases (.instanceOf ⟨classId, ⟨h.scopes.size⟩⟩) id with same | ⟨new, _⟩
    · exact same
    · exact absurd new old
  split
  · rw [get_set_of_ne other, kept]
  · exact kept

theorem inheritTable_eq (own : h.types.tableOf i = some table)
    (other : h.types.tableOf base = some sup) :
    h.inheritTable i base = { h with scopes := h.scopes.addSuper table sup } := by
  simp only [inheritTable, own, other]

theorem scopes_makeInstance (found : h.types.get classId = .classType c) :
    (h.makeInstance classId c).2.scopes =
      (h.allocWithTable .object none (h.scopes.get c.table).path fun table =>
        .instanceOf { classId, table }).2.scopes.addSuper ⟨h.scopes.size⟩ c.table := by
  have new := types_makeInstance_new found
  have noted := types_makeInstance_class found
  simp only [makeInstance, types_inheritTable] at new noted ⊢
  rw [inheritTable_eq (by simp only [tableOf]; exact congrArg Ty.table? new)
    (by simp only [tableOf]; exact congrArg Ty.table? noted)]

theorem scopes_makeInstance_of_ne (found : h.types.get classId = .classType c)
    (old : table ≠ ⟨h.scopes.size⟩) :
    (h.makeInstance classId c).2.scopes.get table = h.scopes.get table := by
  rw [scopes_makeInstance found, ScopeStore.addSuper, ScopeStore.get_modify_of_ne old]
  exact scopes_allocWithTable_of_ne old _ _ _ _

theorem scopes_makeInstance_new (found : h.types.get classId = .classType c) :
    ((h.makeInstance classId c).2.scopes.get ⟨h.scopes.size⟩).owner = some ⟨h.types.size⟩ ∧
      ((h.makeInstance classId c).2.scopes.get ⟨h.scopes.size⟩).supers = [c.table] := by
  have inside : (⟨h.scopes.size⟩ : ScopeId).index < (h.allocWithTable .object none
      (h.scopes.get c.table).path fun table => .instanceOf { classId, table }).2.scopes.size := by
    rw [size_scopes_allocWithTable]
    exact Nat.lt_succ_self _
  rw [scopes_makeInstance found, ScopeStore.addSuper, ScopeStore.get_modify_self inside,
    scopes_allocWithTable_new]
  exact ⟨rfl, rfl⟩

theorem fills_makeInstance (found : h.types.get classId = .classType c)
    (none : c.instance? = none) : Fills ⟨h.scopes.size⟩ h (h.makeInstance classId c).2 where
  classes := fun {id c₀} known => by
    by_cases own : id = classId
    · subst own
      rw [found] at known
      cases known
      exact ⟨_, types_makeInstance_class found, rfl, rfl, by simp [none]⟩
    · have old : id ≠ ⟨h.types.size⟩ := ne_fresh (by simp [known])
      exact ⟨c₀, (types_makeInstance_of_ne own old).trans known, rfl, rfl, fun _ made => made⟩
  old := fun {id c'} known => by
    by_cases own : id = classId
    · exact ⟨c, own ▸ found⟩
    · by_cases new : id = ⟨h.types.size⟩
      · rw [new, types_makeInstance_new found] at known
        cases known
      · exact ⟨c', (types_makeInstance_of_ne own new).symm.trans known⟩
  instances := fun {i d} value => by
    have own : i ≠ classId := by
      rintro rfl
      simp [found] at value
    have old : i ≠ ⟨h.types.size⟩ := ne_fresh (by simp [value])
    exact (types_makeInstance_of_ne own old).trans value
  tables := fun table _ other => scopes_makeInstance_of_ne found other
  scopes := by
    rw [scopes_makeInstance found, ScopeStore.addSuper, ScopeStore.size_modify,
      size_scopes_allocWithTable]
    omega

theorem instance_makeInstance (found : h.types.get classId = .classType c)
    (value : (h.makeInstance classId c).2.types.get i = .instanceOf d) :
    i = ⟨h.types.size⟩ ∧ d = ⟨classId, ⟨h.scopes.size⟩⟩ ∨ h.types.get i = .instanceOf d := by
  by_cases new : i = ⟨h.types.size⟩
  · subst new
    rw [types_makeInstance_new found] at value
    cases value
    exact .inl ⟨rfl, rfl⟩
  · right
    have own : i ≠ classId := by
      rintro rfl
      simp [types_makeInstance_class found] at value
    rwa [types_makeInstance_of_ne own new] at value

theorem ClassGraph.makeInstance (graph : h.ClassGraph) (found : h.types.get classId = .classType c)
    (none : c.instance? = none) : (h.makeInstance classId c).2.ClassGraph := by
  have fills := fills_makeInstance found none
  refine fills.classGraph graph graph.apart_fresh ?owners ?noted ?only
  case owners =>
    intro i d value
    rcases instance_makeInstance found value with ⟨rfl, rfl⟩ | old
    · exact (scopes_makeInstance_new found).1
    · have owner := graph.instanceOwner old
      rw [scopes_makeInstance_of_ne found (ScopeStore.ne_fresh owner)]
      exact owner
  case noted =>
    intro id c' i known made
    by_cases own : id = classId
    · subst own
      rw [types_makeInstance_class found] at known
      cases known
      obtain rfl := Option.some.inj made
      exact ⟨_, types_makeInstance_new found⟩
    · have old : id ≠ ⟨h.types.size⟩ := by
        rintro rfl
        rw [types_makeInstance_new found] at known
        cases known
      rw [types_makeInstance_of_ne own old] at known
      obtain ⟨table, value⟩ := graph.noted known made
      exact ⟨table, fills.instances value⟩
  case only =>
    intro i d value
    rcases instance_makeInstance found value with ⟨rfl, rfl⟩ | old
    · exact ⟨_, types_makeInstance_class found, rfl⟩
    · obtain ⟨c₀, known, made⟩ := graph.only old
      obtain ⟨c', known', _, _, keeps⟩ := fills.classes known
      exact ⟨c', known', keeps i made⟩

/-! ### One link -/

theorem supers_addSuper_new {s : ScopeStore} (inside : table.index < s.size)
    (new : sup ∉ (s.get table).supers) :
    ((s.addSuper table sup).get table).supers = (s.get table).supers ++ [sup] := by
  rw [ScopeStore.addSuper, ScopeStore.get_modify_self inside]
  simp [new]

theorem fills_inheritTable (value : h.types.get i = .instanceOf d)
    (other : h.types.get j = .instanceOf e) : Fills d.table h (h.inheritTable i j) := by
  have own : h.types.tableOf i = some d.table := congrArg Ty.table? value
  have super : h.types.tableOf j = some e.table := congrArg Ty.table? other
  rw [inheritTable_eq own super]
  exact {
    classes := fun found => ⟨_, found, rfl, rfl, fun _ made => made⟩
    old := fun found => ⟨_, found⟩
    instances := fun value => value
    tables := fun table _ other => ScopeStore.get_modify_of_ne other
    scopes := by simp [ScopeStore.addSuper] }

theorem ClassGraph.inheritTable (graph : h.ClassGraph) (value : h.types.get i = .instanceOf d)
    (other : h.types.get j = .instanceOf e) : (h.inheritTable i j).ClassGraph := by
  refine (fills_inheritTable value other).classGraph graph (graph.apart value) ?owners ?noted ?only
  case owners =>
    intro k f known
    rw [types_inheritTable] at known
    have owner := graph.instanceOwner known
    unfold Heap.inheritTable
    split
    · rwa [ScopeStore.owner_addSuper]
    · exact owner
  case noted =>
    rw [types_inheritTable]
    exact graph.noted
  case only =>
    rw [types_inheritTable]
    exact graph.only

theorem LinksTo.inheritTable (graph : h.ClassGraph) (value : h.types.get i = .instanceOf d)
    (found : h.types.get id = .classType c) (links : h.LinksTo d c done) (fresh : base ∉ done)
    (other : h.types.get j = .instanceOf ⟨base, table⟩) :
    (h.inheritTable i j).LinksTo d c (done ++ [base]) := by
  obtain ⟨b, isClass, made⟩ := graph.only other
  have linked : h.instanceTable? base = some table := instanceTable?_eq_some isClass made other
  have keeps : (h.inheritTable i j).instanceTable? = h.instanceTable? := by
    funext classId
    simp only [Heap.instanceTable?, types_inheritTable]
  have new := graph.unlinked found links fresh linked
  have inside := ScopeStore.inside_of_owner (graph.instanceOwner value)
  have supers := supers_addSuper_new inside new
  unfold LinksTo at links ⊢
  rw [keeps, inheritTable_eq (congrArg Ty.table? value) (congrArg Ty.table? other)]
  dsimp only
  rw [supers, List.map_append, links, List.map_append, List.cons_append]
  simp only [List.map_cons, List.map_nil, linked]

/-! ### All values that are needed -/

mutual

/-- How the value for a class is found or made. -/
inductive Makes : Heap → TypeId → TypeId × Heap → Prop
  | other {h : Heap} {classId : TypeId} (none : h.types.class? classId = none) :
      Makes h classId (.unknown, h)
  | known {h : Heap} {classId id : TypeId} {c : ClassType}
      (found : h.types.class? classId = some c) (made : c.instance? = some id) :
      Makes h classId (id, h)
  | new {h h' : Heap} {classId : TypeId} {c : ClassType} (found : h.types.class? classId = some c)
      (none : c.instance? = none)
      (links : Connects (h.makeInstance classId c).1 (h.makeInstance classId c).2
        ((h.makeInstance classId c).2.basesOf c.table) h') :
      Makes h classId ((h.makeInstance classId c).1, h')

/-- How a value is linked to those for some classes, one after the other. -/
inductive Connects : TypeId → Heap → List TypeId → Heap → Prop
  | nil {id : TypeId} {h : Heap} : Connects id h [] h
  | cons {id base : TypeId} {h h' : Heap} {bases : List TypeId} {made : TypeId × Heap}
      (first : Makes h base made) (rest : Connects id (made.2.inheritTable id made.1) bases h') :
      Connects id h (base :: bases) h'

end

/-- The classes that have no value yet. -/
def unmade (h : Heap) : Finset Nat :=
  (Finset.range h.types.size).filter fun n =>
    ((h.types.class? ⟨n⟩).any (·.instance?.isNone)) = true

theorem mem_unmade : n ∈ h.unmade ↔ ∃ c, h.types.get ⟨n⟩ = .classType c ∧ c.instance? = none := by
  unfold unmade
  rw [Finset.mem_filter, Finset.mem_range, Option.any_eq_true]
  constructor
  · rintro ⟨_, c, found, none⟩
    exact ⟨c, class?_eq_some.mp found, Option.isNone_iff_eq_none.mp none⟩
  · rintro ⟨c, found, none⟩
    have has : h.types.Has ⟨n⟩ := has_of_get (by simp [found])
    exact ⟨has, c, class?_eq_some.mpr found, by simp [none]⟩

theorem unmade_makeInstance (found : h.types.get classId = .classType c)
    (none : c.instance? = none) : (h.makeInstance classId c).2.unmade ⊂ h.unmade := by
  have fills := fills_makeInstance found none
  apply (Finset.ssubset_iff_of_subset ?_).mpr
  · refine ⟨classId.index, mem_unmade.mpr ⟨c, found, none⟩, fun isOpen => ?_⟩
    obtain ⟨c', known, none'⟩ := mem_unmade.mp isOpen
    have noted := types_makeInstance_class found
    rw [known] at noted
    cases noted
    cases none'
  · intro n isOpen
    obtain ⟨c', known, none'⟩ := mem_unmade.mp isOpen
    obtain ⟨c₀, known₀⟩ := fills.old known
    obtain ⟨_, same, _, _, keeps⟩ := fills.classes known₀
    rw [known] at same
    cases same
    refine mem_unmade.mpr ⟨c₀, known₀, Option.eq_none_iff_forall_ne_some.mpr fun i made => ?_⟩
    rw [keeps i made] at none'
    cases none'

theorem unmade_instanceWithin (n : Nat) (h : Heap) (classId : TypeId) :
    (instanceWithin n h classId).2.unmade ⊆ h.unmade := by
  refine instanceWithin_keeps (I := fun h' => h'.unmade ⊆ h.unmade)
    (fun h' classId c fewer found none => ?_) (fun h' id base fewer => ?_) n classId
    (Finset.Subset.refl _)
  · exact (unmade_makeInstance found none).subset.trans fewer
  · unfold unmade at fewer ⊢
    rwa [types_inheritTable]

/-- A bound above the number of classes without a value is never reached. -/
theorem makes_instanceWithin (classId : TypeId) (enough : h.unmade.card < n) :
    Makes h classId (instanceWithin n h classId) := by
  induction n generalizing h classId with
  | zero => omega
  | succ n ih =>
    unfold instanceWithin
    split
    · next none => exact .other none
    · next c found =>
      split
      · next id made => exact .known found made
      · next none =>
        have fewer := Finset.card_lt_card (unmade_makeInstance (class?_eq_some.mp found) none)
        have connects : ∀ (bases : List TypeId) (id : TypeId) (h : Heap), h.unmade.card < n →
            Connects id h bases (bases.foldl (fun h base =>
              (instanceWithin n h base).2.inheritTable id (instanceWithin n h base).1) h) := by
          intro bases id
          induction bases with
          | nil => exact fun h _ => .nil
          | cons base bases rest =>
            intro h enough
            refine .cons (ih base enough) (rest _ ?_)
            have fewer := Finset.card_le_card (unmade_instanceWithin n h base)
            unfold unmade at fewer enough ⊢
            rw [types_inheritTable]
            omega
        exact .new found none (connects _ _ _ (by omega))

theorem makes_instanceOf : Makes h classId (h.instanceOf classId) := by
  apply makes_instanceWithin
  have few : h.unmade.card ≤ (Finset.range h.types.size).card :=
    Finset.card_le_card (Finset.filter_subset _ _)
  rw [Finset.card_range] at few
  omega

/-- What is known once the value for a class was made. -/
structure Completes (h : Heap) (classId : TypeId) (made : TypeId × Heap) : Prop where
  fills : Fills ⟨h.scopes.size⟩ h made.2
  graph : made.2.ClassGraph
  noted : ∀ c, h.types.get classId = .classType c →
    ∃ c', made.2.types.get classId = .classType c' ∧ c'.instance? = some made.1
  linked : ∀ i d, made.2.types.get i = .instanceOf d → h.types.get i ≠ .instanceOf d →
    made.2.Linked d

/-- What is known once the links of the value `d` are there. -/
structure Connected (d : InstanceType) (h h' : Heap) : Prop where
  fills : Fills d.table h h'
  graph : h'.ClassGraph
  own : h'.Linked d
  linked : ∀ i e, h'.types.get i = .instanceOf e → h.types.get i ≠ .instanceOf e → h'.Linked e

/-- The value `id` has links to some bases of its class and is to get those to the others. -/
structure Awaits (id : TypeId) (d : InstanceType) (h : Heap) (bases : List TypeId) : Prop where
  graph : h.ClassGraph
  value : h.types.get id = .instanceOf d
  links : ∃ c done, h.types.get d.classId = .classType c ∧ h.basesOf c.table = done ++ bases ∧
    h.LinksTo d c done

theorem completes_known (graph : h.ClassGraph) (found : h.types.class? classId = some c)
    (made : c.instance? = some id) : Completes h classId (id, h) where
  fills := .refl
  graph := graph
  noted := fun c' found' => by
    rw [class?_eq_some.mp found] at found'
    cases found'
    exact ⟨c, class?_eq_some.mp found, made⟩
  linked := fun i d value new => absurd value new

theorem completes_other (graph : h.ClassGraph) (none : h.types.class? classId = none) :
    Completes h classId (.unknown, h) where
  fills := .refl
  graph := graph
  noted := fun c found => by
    rw [class?_eq_some.mpr found] at none
    cases none
  linked := fun i d value new => absurd value new

theorem completes_new (graph : h.ClassGraph) (found : h.types.class? classId = some c)
    (none : c.instance? = none)
    (connected : ∀ d, Awaits (h.makeInstance classId c).1 d (h.makeInstance classId c).2
      ((h.makeInstance classId c).2.basesOf c.table) → Connected d (h.makeInstance classId c).2 h') :
    Completes h classId ((h.makeInstance classId c).1, h') := by
  have found := class?_eq_some.mp found
  have fills := fills_makeInstance found none
  have noted := types_makeInstance_class found
  have connected := connected ⟨classId, ⟨h.scopes.size⟩⟩
    { graph := graph.makeInstance found none
      value := types_makeInstance_new found
      links := ⟨_, [], noted, rfl, congrArg (List.map some) (scopes_makeInstance_new found).2⟩ }
  refine ⟨fills.trans connected.fills, connected.graph, ?_, ?_⟩
  · intro c₀ found₀
    obtain ⟨c', found', _, _, keeps⟩ := connected.fills.classes noted
    exact ⟨c', found', keeps _ rfl⟩
  · intro i d value new
    by_cases before : (h.makeInstance classId c).2.types.get i = .instanceOf d
    · rcases instance_makeInstance found before with ⟨_, rfl⟩ | old
      · exact connected.own
      · exact absurd old new
    · exact connected.linked i d value before

theorem connected_nil (awaits : Awaits id d h []) : Connected d h h where
  fills := .refl
  graph := awaits.graph
  own := fun c found => by
    obtain ⟨c', done, found', bases, links⟩ := awaits.links
    rw [found] at found'
    cases found'
    rw [bases, List.append_nil]
    exact links
  linked := fun i e value new => absurd value new

theorem Awaits.next (awaits : Awaits id d h (base :: bases)) (completes : Completes h base made) :
    Awaits id d (made.2.inheritTable id made.1) bases ∧
      Fills d.table made.2 (made.2.inheritTable id made.1) := by
  obtain ⟨c, done, found, isBase, links⟩ := awaits.links
  have graph := awaits.graph
  have fills := completes.fills
  obtain ⟨c', found', own, _⟩ := fills.classes found
  have value := fills.instances awaits.value
  have member : base ∈ h.basesOf c.table := by simp [isBase]
  obtain ⟨b, isClass⟩ := graph.of_mem_basesOf found member
  obtain ⟨b', isClass', noted⟩ := completes.noted b isClass
  obtain ⟨table, other⟩ := completes.graph.noted isClass' noted
  have same : made.2.basesOf c'.table = done ++ base :: bases := by
    rw [own, fills.basesOf graph graph.apart_fresh found, isBase]
  have fresh : base ∉ done := by
    have distinct := graph.nodup_basesOf found
    rw [isBase] at distinct
    exact fun member => List.disjoint_of_nodup_append distinct member List.mem_cons_self
  have links : made.2.LinksTo d c' done := links.of_keeps own
    (by rw [fills.tables _ (ScopeStore.inside_of_owner (graph.instanceOwner awaits.value))
      (ScopeStore.ne_fresh (graph.instanceOwner awaits.value))])
    fun _ _ => fills.instanceTable? graph
  have linking := fills_inheritTable value other
  refine ⟨⟨completes.graph.inheritTable value other, by rwa [types_inheritTable], ?_⟩, linking⟩
  refine ⟨c', done ++ [base], by rwa [types_inheritTable], ?_,
    links.inheritTable completes.graph value found' fresh other⟩
  rw [linking.basesOf completes.graph (completes.graph.apart value) found', same,
    List.append_assoc, List.singleton_append]

theorem connected_cons (awaits : Awaits id d h (base :: bases)) (completes : Completes h base made)
    (connected : Awaits id d (made.2.inheritTable id made.1) bases →
      Connected d (made.2.inheritTable id made.1) h') :
    Connected d h h' := by
  obtain ⟨next, linking⟩ := awaits.next completes
  have connected := connected next
  have value := completes.fills.instances awaits.value
  refine ⟨(completes.fills.of_fresh.trans linking).trans connected.fills, connected.graph,
    connected.own, ?_⟩
  intro i e isValue new
  by_cases before : (made.2.inheritTable id made.1).types.get i = .instanceOf e
  · have earlier : made.2.types.get i = .instanceOf e := by rwa [types_inheritTable] at before
    -- The tables of two values differ, so the links of `d` do not concern `e`.
    have other : e.table ≠ d.table := by
      intro same
      have owner := completes.graph.instanceOwner earlier
      rw [same, completes.graph.instanceOwner value] at owner
      obtain rfl := Option.some.inj owner
      rw [value] at earlier
      cases earlier
      exact new awaits.value
    have linked := linking.linked completes.graph (completes.graph.apart value) earlier other
      (completes.linked i e earlier new)
    exact connected.fills.linked next.graph (next.graph.apart next.value) before other linked
  · exact connected.linked i e isValue before

theorem Makes.completes (makes : Makes h classId made) (graph : h.ClassGraph) :
    Completes h classId made := by
  -- Both relations at once: a value is complete, and the links of a value that awaits them are made.
  refine @Makes.rec (fun h classId made _ => h.ClassGraph → Completes h classId made)
    (fun id h bases h' _ => ∀ d, Awaits id d h bases → Connected d h h')
    ?other ?known ?new ?nil ?cons h classId made makes graph
  case other => exact fun none graph => completes_other graph none
  case known => exact fun found made graph => completes_known graph found made
  case new => exact fun found none _ connected graph => completes_new graph found none connected
  case nil => exact fun d awaits => connected_nil awaits
  case cons =>
    exact fun _ _ completes connected d awaits =>
      connected_cons awaits (completes awaits.graph) (connected d)

theorem Completes.mirrors (completes : Completes h classId made) (mirrors : h.Mirrors) :
    made.2.Mirrors where
  toClassGraph := completes.graph
  linked := fun {i d} value => by
    by_cases old : h.types.get i = .instanceOf d
    · exact completes.fills.linked mirrors.toClassGraph mirrors.apart_fresh old
        (ScopeStore.ne_fresh (mirrors.instanceOwner old)) (mirrors.linked old)
    · exact completes.linked i d value old

theorem Mirrors.instanceOf (mirrors : h.Mirrors) (classId : TypeId) :
    (h.instanceOf classId).2.Mirrors :=
  (makes_instanceOf.completes mirrors.toClassGraph).mirrors mirrors

end FlowTypes.Heap
