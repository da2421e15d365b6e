import FlowTypes.Proofs.Instances

/-! Order in the heap. Types and scopes refer to each other by their places, and what they refer to is
always there: every operation on a heap comes down to five stages, and each of them keeps the order. -/
namespace FlowTypes

/-! ### What a heap in order is -/

/-- The scope around the body of a function. -/
def Ty.env? : Ty → Option ScopeId
  | function f => some f.env
  | _ => Option.none

/-- The scopes that a type refers to. -/
def Ty.scopes (t : Ty) : List ScopeId := t.table?.toList ++ t.env?.toList

/-- The scopes that a scope refers to. -/
def Scope.references (scope : Scope) : List ScopeId := scope.parent.toList ++ scope.supers

/-- The class whose table the table of a value inherits from. -/
def Bases.of? (bases : Bases) : Ty → Option TypeId
  | .list _ => some bases.list
  | .dict _ => some bases.dict
  | .tuple _ => some bases.tuple
  | .module _ => some bases.module
  | .function _ => some bases.function
  | _ => none

/-- The type that the table of a type belongs to. A bound method has no table of its own. -/
def TypeStore.holder (s : TypeStore) (id : TypeId) : TypeId := (s.origin? id).getD id

namespace Heap

open TypeStore

/-- A type that is in order. -/
structure Settled (bases : Bases) (h : Heap) (id : TypeId) : Prop where
  refers : ∀ m ∈ (h.types.get id).references, h.types.Has m
  scopes : ∀ table ∈ (h.types.get id).scopes, h.scopes.Has table
  /-- A union has two alternatives at least; none of them is a union, and none comes twice. -/
  union : ∀ types, h.types.get id = .union types →
    2 ≤ types.length ∧ types.Nodup ∧ ∀ x ∈ types, h.types.isUnion x = false
  origin : ∀ f o, h.types.get id = .function f → f.origin = some o →
    ∃ g, h.types.get o = .function g ∧ g.origin = none ∧ g.definition = f.definition
  owned : ∀ table, h.types.tableOf id = some table →
    (h.scopes.get table).owner = some (h.types.holder id)
  /-- The table of a container, a module or a function inherits from its built-in class only. -/
  inherits : ∀ base, bases.of? (h.types.get id) = some base → ∃ table sup,
    h.types.tableOf id = some table ∧ h.types.tableOf base = some sup ∧
      (h.scopes.get table).supers = [sup]

/-- A heap in order: the simple types have their places, all types are in order, and scopes refer to
what is there. -/
structure InOrder (bases : Bases) (h : Heap) : Prop where
  simple : ∀ id : TypeId, id.isSimple → h.types.get id = TypeStore.initial.get id
  types : ∀ id, h.Settled bases id
  owners : ∀ table o, (h.scopes.get table).owner = some o → h.types.Has o
  links : ∀ table, ∀ other ∈ (h.scopes.get table).references, h.scopes.Has other

variable {bases : Bases} {h h' : Heap} {id base : TypeId} {table : ScopeId} {t : Ty}

theorem InOrder.has_simple (order : h.InOrder bases) (small : id.isSimple) : h.types.Has id := by
  have last : h.types.get .str = .str := order.simple .str rfl
  have inside : TypeId.str.index < h.types.size := has_of_get (by simp [last])
  have small : id.index < 10 := of_decide_eq_true small
  exact Nat.lt_of_le_of_lt (Nat.le_of_lt_succ small) inside

theorem InOrder.wellFormed (order : h.InOrder bases) : h.types.WellFormed where
  cont := order.simple .cont rfl
  simple := fun id small _ => order.has_simple (decide_eq_true small)
  fits := fun id => by
    have settled := order.types id
    constructor
    case refers =>
      intro m member
      refine settled.refers m ?_
      cases found : h.types.get id <;> simp_all [Ty.references, Ty.mentions]
    case flat =>
      intro types found m member
      have refers := settled.refers m
      rw [found] at refers
      exact ⟨refers member, (settled.union types found).2.2 m member⟩
    case source => exact settled.origin

theorem settled_of_wellFormed (wf : h.types.WellFormed)
    (scopes : ∀ table ∈ (h.types.get id).scopes, h.scopes.Has table)
    (several : ∀ types, h.types.get id = .union types → 2 ≤ types.length ∧ types.Nodup)
    (owned : ∀ table, h.types.tableOf id = some table →
      (h.scopes.get table).owner = some (h.types.holder id))
    (inherits : ∀ base, bases.of? (h.types.get id) = some base → ∃ table sup,
      h.types.tableOf id = some table ∧ h.types.tableOf base = some sup ∧
        (h.scopes.get table).supers = [sup]) : h.Settled bases id where
  refers := by
    have fits := wf.fits id
    intro m member
    cases found : h.types.get id with
    | union types =>
      rw [found] at member
      exact (fits.flat types found m member).1
    | function f =>
      rw [found] at member
      rcases List.mem_append.mp member with bound | mentioned
      · obtain ⟨g, isFunction, _⟩ := fits.source f m found (Option.mem_toList.mp bound)
        exact has_of_get (by simp [isFunction])
      · exact wf.mention found mentioned
    | _ =>
      rw [found] at member
      exact wf.mention found member
  scopes := scopes
  union := fun types found => by
    obtain ⟨two, distinct⟩ := several types found
    exact ⟨two, distinct, fun x member => ((wf.fits id).flat types found x member).2⟩
  origin := (wf.fits id).source
  owned := owned
  inherits := inherits

/-! ### What stays -/

/-- Nothing that a type in order needs is taken away: its place, its table, and what that table
inherits from. -/
structure Keeps (bases : Bases) (h h' : Heap) : Prop where
  types : Kept h.types h'.types
  room : h.scopes.size ≤ h'.scopes.size
  envs : ∀ id, h.types.Has id → (h'.types.get id).env? = (h.types.get id).env?
  owners : ∀ table o, (h.scopes.get table).owner = some o → (h'.scopes.get table).owner = some o
  supers : ∀ id table base, h.types.tableOf id = some table →
    bases.of? (h.types.get id) = some base →
      (h'.scopes.get table).supers = (h.scopes.get table).supers

end Heap

namespace Ty.Stays

variable {t u : Ty}

theorem kindName (stays : t.Stays u) : u.kindName = t.kindName := by
  cases stays <;> rfl

theorem table? (stays : t.Stays u) : u.table? = t.table? := by
  cases stays <;> simp_all [Ty.table?]

theorem eq_of_table? (stays : t.Stays u) (simple : t.table? = Option.none) : u = t := by
  cases stays with
  | same => rfl
  | _ => cases simple

theorem of? (stays : t.Stays u) {bases : Bases} : bases.of? u = bases.of? t := by
  cases stays <;> rfl

end Ty.Stays

theorem ScopeStore.mem_references_addSuper {s : ScopeStore}
    (member : other ∈ ((s.addSuper i sup).get table).references) :
    other ∈ (s.get table).references ∨ other = sup := by
  unfold addSuper at member
  rcases s.get_modify i table
    with same | ⟨_, changed⟩
  · rw [same] at member
    exact .inl member
  · rw [changed] at member
    split at member
    · exact .inl member
    · simpa [Scope.references, or_assoc] using member

theorem TypeStore.initial_tableOf {id : TypeId} : TypeStore.initial.tableOf id = none := by
  have simple : ∀ t ∈ initial.types.toList, t.table? = none := by simp [initial, Ty.table?]
  exact forall_initial simple id

namespace TypeStore.Kept

variable {s s' : TypeStore} {id : TypeId}

theorem tableOf (kept : Kept s s') (has : s.Has id) : s'.tableOf id = s.tableOf id :=
  (kept.stays has).table?

theorem holder (kept : Kept s s') (has : s.Has id) : s'.holder id = s.holder id := by
  have stays := kept.stays has
  unfold TypeStore.holder origin? function?
  generalize s.get id = t, s'.get id = u at stays
  cases stays with
  | function origin => simp [origin]
  | _ => rfl

end TypeStore.Kept

namespace Heap

open TypeStore

variable {bases : Bases} {h h' : Heap} {id base : TypeId} {table : ScopeId} {t : Ty}

theorem Settled.keep (settled : h.Settled bases id) (has : h.types.Has id)
    (keeps : h.Keeps bases h') (wf : h'.types.WellFormed) : h'.Settled bases id := by
  have stays := keeps.types.stays has
  have sameTable := keeps.types.tableOf has
  apply settled_of_wellFormed wf
  case scopes =>
    intro table member
    have same : (h'.types.get id).scopes = (h.types.get id).scopes := by
      unfold Ty.scopes
      rw [stays.table?, keeps.envs id has]
    exact Nat.lt_of_lt_of_le (settled.scopes table (same ▸ member)) keeps.room
  case several =>
    intro types found
    obtain ⟨two, distinct, _⟩ := settled.union types ((stays.union_iff types).mp found)
    exact ⟨two, distinct⟩
  case owned =>
    intro table own
    rw [sameTable] at own
    rw [keeps.types.holder has]
    exact keeps.owners table _ (settled.owned table own)
  case inherits =>
    intro base built
    rw [stays.of?] at built
    obtain ⟨table, sup, own, other, links⟩ := settled.inherits base built
    have hasBase : h.types.Has base := has_of_get fun unknown => by
      simp [TypeStore.tableOf, unknown, Ty.table?] at other
    refine ⟨table, sup, sameTable.trans own, (keeps.types.tableOf hasBase).trans other, ?_⟩
    rw [keeps.supers id table base own built, links]

theorem InOrder.keep (order : h.InOrder bases) (keeps : h.Keeps bases h')
    (wf : h'.types.WellFormed) (new : ∀ id, ¬h.types.Has id → h'.Settled bases id)
    (owners : ∀ table o, (h'.scopes.get table).owner = some o → h'.types.Has o)
    (links : ∀ table, ∀ other ∈ (h'.scopes.get table).references, h'.scopes.Has other) :
    h'.InOrder bases where
  simple := by
    intro id small
    have stays := keeps.types.stays (order.has_simple small)
    rw [order.simple id small] at stays
    exact stays.eq_of_table? initial_tableOf
  types := fun id => by
    by_cases has : h.types.Has id
    · exact (order.types id).keep has keeps wf
    · exact new id has
  owners := owners
  links := links

/-! ### Stages -/

/-- A new type comes with a table of its own. -/
structure Places (h h' : Heap) (t : Ty) (scope : Scope) : Prop where
  types : h'.types = (h.types.alloc t).2
  room : h'.scopes.size = h.scopes.size + 1
  own : h'.scopes.get ⟨h.scopes.size⟩ = scope
  others : ∀ table, table ≠ ⟨h.scopes.size⟩ → h'.scopes.get table = h.scopes.get table

/-- What every operation on a heap comes down to. -/
inductive Stage (bases : Bases) : Heap → Heap → Prop
  /-- Something is noted about types that are there, or containers get to hold more. -/
  | note {h : Heap} {types : TypeStore} (changes : Changes Has h.types types)
      (size : types.size = h.types.size) (envs : Agrees Ty.env? h.types types) :
      Stage bases h { h with types }
  | join {h : Heap} {types : List TypeId} (several : 2 ≤ types.length) (distinct : types.Nodup)
      (flat : ∀ x ∈ types, h.types.Has x ∧ h.types.isUnion x = false) :
      Stage bases h { h with types := (h.types.alloc (.union types)).2 }
  | bind {h : Heap} {fn receiver : TypeId} {f : FunctionType}
      (found : h.types.function? (h.types.originOf fn) = some f) (hr : h.types.Has receiver) :
      Stage bases h { h with types := (h.types.alloc (.function { f with
        arrows := [], origin := some (h.types.originOf fn), receiver := some receiver })).2 }
  | place {h h' : Heap} {t : Ty} {scope : Scope} (places : h.Places h' t scope)
      (fits : Fits Has h.types t) (unbound : ∀ f, t = .function f → f.origin = none)
      (plain : ∀ types, t ≠ .union types)
      (own : t.table? = some ⟨h.scopes.size⟩) (env : ∀ env ∈ t.env?, h.scopes.Has env)
      (owner : scope.owner = some ⟨h.types.size⟩) (parent : ∀ p ∈ scope.parent, h.scopes.Has p)
      (based : ∀ base, bases.of? t = some base → (h.types.tableOf base).isSome)
      (supers : scope.supers = ((bases.of? t).bind h.types.tableOf).toList) : Stage bases h h'
  /-- Only classes and the values for their instances get to inherit from more. -/
  | inherit {h : Heap} (id base : TypeId) (free : bases.of? (h.types.get id) = none) :
      Stage bases h (h.inheritTable id base)

abbrev Stages (bases : Bases) : Heap → Heap → Prop := Relation.ReflTransGen (Stage bases)

theorem settled_outside (wf : h.types.WellFormed) (outside : ¬h.types.Has id) :
    h.Settled bases id := by
  have unknown : h.types.get id = .unknown := get_of_le (Nat.le_of_not_lt outside)
  apply settled_of_wellFormed wf <;> simp [unknown, Ty.scopes, Ty.table?, Ty.env?, Bases.of?, tableOf]

theorem settled_alloc {types : TypeStore} (wf : h'.types.WellFormed)
    (same : h'.types = (types.alloc t).2) (own : h'.Settled bases ⟨types.size⟩) (id : TypeId)
    (new : ¬types.Has id) : h'.Settled bases id := by
  by_cases first : id = ⟨types.size⟩
  · exact first ▸ own
  · apply settled_outside wf
    intro has
    have different : id.index ≠ types.size := fun h => first (by cases id; simp_all)
    rw [same] at has
    simp only [Has, size_alloc] at new has
    omega

theorem keeps_types {types : TypeStore} (kept : Kept h.types types)
    (envs : ∀ id, h.types.Has id → (types.get id).env? = (h.types.get id).env?) :
    h.Keeps bases { h with types } where
  types := kept
  room := Nat.le_refl _
  envs := envs
  owners := fun _ _ owned => owned
  supers := fun _ _ _ _ _ => rfl

theorem InOrder.alloc (order : h.InOrder bases) (fits : Fits Has h.types t)
    (own : Settled bases { h with types := (h.types.alloc t).2 } ⟨h.types.size⟩) :
    InOrder bases { h with types := (h.types.alloc t).2 } := by
  have change : Change Has h.types (h.types.alloc t).2 := .alloc fits
  have wf := change.sound order.wellFormed
  apply order.keep (keeps_types change.kept fun id has => by rw [get_alloc has]) wf
  case new => exact settled_alloc wf rfl own
  case owners => exact fun table o owned => change.kept.has (order.owners table o owned)
  case links => exact order.links

theorem InOrder.note (order : h.InOrder bases) {types : TypeStore}
    (changes : Changes Has h.types types) (size : types.size = h.types.size)
    (envs : Agrees Ty.env? h.types types) : InOrder bases { h with types } := by
  have wf := changes.sound order.wellFormed
  apply order.keep (keeps_types changes.kept fun id _ => envs id) wf
  case new =>
    intro id new
    apply settled_outside wf
    simpa only [Has, size] using new
  case owners => exact fun table o owned => changes.kept.has (order.owners table o owned)
  case links => exact order.links

theorem InOrder.join (order : h.InOrder bases) {types : List TypeId} (several : 2 ≤ types.length)
    (distinct : types.Nodup) (flat : ∀ x ∈ types, h.types.Has x ∧ h.types.isUnion x = false) :
    InOrder bases { h with types := (h.types.alloc (.union types)).2 } := by
  have fits : Fits Has h.types (.union types) := fits_union flat
  have wf : WellFormed _ := (Change.alloc fits).sound order.wellFormed
  apply order.alloc fits
  have new : (h.types.alloc (.union types)).2.get ⟨h.types.size⟩ = _ := get_alloc_new h.types _
  apply settled_of_wellFormed wf
  case several =>
    intro types' found
    rw [new] at found
    cases found
    exact ⟨several, distinct⟩
  all_goals simp [new, Ty.scopes, Ty.table?, Ty.env?, Bases.of?, tableOf]

theorem InOrder.tableOf_has (order : h.InOrder bases) (own : h.types.tableOf id = some table) :
    h.types.Has id ∧ h.scopes.Has table := by
  constructor
  · apply has_of_get
    intro unknown
    simp [tableOf, unknown, Ty.table?] at own
  · apply (order.types id).scopes
    have own : (h.types.get id).table? = some table := own
    simp [Ty.scopes, own]

/-- A bound method shares the table of the function that it was bound from. -/
theorem InOrder.bind (order : h.InOrder bases)
    (found : h.types.function? (h.types.originOf fn) = some f) (hr : h.types.Has receiver) :
    InOrder bases { h with types := (h.types.alloc (.function { f with
      arrows := [], origin := some (h.types.originOf fn), receiver := some receiver })).2 } := by
  have fits := fits_bound order.wellFormed hr found
  have change : Change Has h.types _ := .alloc fits
  have wf := change.sound order.wellFormed
  have root := function?_eq_some.mp found
  have unbound := order.wellFormed.originOf_unbound root
  have settled := order.types (h.types.originOf fn)
  apply order.alloc fits
  have new := get_alloc_new h.types (.function { f with
    arrows := [], origin := some (h.types.originOf fn), receiver := some receiver })
  apply settled_of_wellFormed wf
  case scopes =>
    intro table member
    apply settled.scopes table
    rw [new] at member
    rw [root]
    exact member
  case several => simp [new]
  case owned =>
    intro table own
    have same : table = f.table := by simpa [tableOf, new, Ty.table?] using own.symm
    have owner := settled.owned f.table (by simp [tableOf, root, Ty.table?])
    have self : h.types.holder (h.types.originOf fn) = h.types.originOf fn := by
      simp [holder, origin?, found, unbound]
    rw [self] at owner
    simpa [same, holder, origin?, function?, new] using owner
  case inherits =>
    intro base built
    rw [new] at built
    obtain ⟨table, sup, own, other, links⟩ := settled.inherits base (by rw [root]; exact built)
    have same : table = f.table := by simpa [tableOf, root, Ty.table?] using own.symm
    refine ⟨table, sup, by simp [tableOf, new, Ty.table?, same], ?_, links⟩
    exact (change.kept.tableOf (order.tableOf_has other).1).trans other

section Place

variable {scope : Scope} (order : h.InOrder bases) (places : h.Places h' t scope)

include order places

theorem Places.keeps : h.Keeps bases h' where
  types := places.types ▸ kept_alloc
  room := by
    rw [places.room]
    exact Nat.le_succ _
  envs := fun id has => by rw [places.types, get_alloc has]
  owners := fun table o owned => by rwa [places.others table (ScopeStore.ne_fresh owned)]
  supers := fun id table base own built => by
    have owned := (order.types id).owned table own
    rw [places.others table (ScopeStore.ne_fresh owned)]

theorem InOrder.place (fits : Fits Has h.types t) (unbound : ∀ f, t = .function f → f.origin = none)
    (plain : ∀ types, t ≠ .union types) (own : t.table? = some ⟨h.scopes.size⟩)
    (env : ∀ env ∈ t.env?, h.scopes.Has env) (owner : scope.owner = some ⟨h.types.size⟩)
    (parent : ∀ p ∈ scope.parent, h.scopes.Has p)
    (based : ∀ base, bases.of? t = some base → (h.types.tableOf base).isSome)
    (supers : scope.supers = ((bases.of? t).bind h.types.tableOf).toList) : h'.InOrder bases := by
  have keeps := places.keeps order
  have change : Change Has h.types h'.types := places.types ▸ .alloc fits
  have wf := change.sound order.wellFormed
  have new : h'.types.get ⟨h.types.size⟩ = t := by rw [places.types, get_alloc_new]
  have room : ∀ {table}, h.scopes.Has table → h'.scopes.Has table :=
    fun has => Nat.lt_of_lt_of_le has keeps.room
  have inside : h'.scopes.Has ⟨h.scopes.size⟩ := by simp [ScopeStore.Has, places.room]
  apply order.keep keeps wf
  case new =>
    apply settled_alloc wf places.types
    apply settled_of_wellFormed wf
    case scopes =>
      intro table member
      rw [new] at member
      rcases List.mem_append.mp member with isTable | isEnv
      · rw [own, Option.toList_some, List.mem_singleton] at isTable
        exact isTable ▸ inside
      · exact room (env table (Option.mem_toList.mp isEnv))
    case several =>
      intro types found
      exact absurd (new.symm.trans found) (plain types)
    case owned =>
      intro table known
      have same : ⟨h.scopes.size⟩ = table := by simpa [tableOf, new, own] using known
      have free : h'.types.origin? ⟨h.types.size⟩ = none := by
        unfold origin? function?
        rw [new]
        cases t with
        | function f => exact unbound f rfl
        | _ => rfl
      rw [← same, places.own, owner, holder, free]
      rfl
    case inherits =>
      intro base built
      rw [new] at built
      obtain ⟨sup, other⟩ := Option.isSome_iff_exists.mp (based base built)
      refine ⟨⟨h.scopes.size⟩, sup, by simp [tableOf, new, own], ?_, ?_⟩
      · exact (keeps.types.tableOf (order.tableOf_has other).1).trans other
      · rw [places.own, supers, built]
        simp [other]
  case owners =>
    intro table o owned
    by_cases fresh : table = ⟨h.scopes.size⟩
    · rw [fresh, places.own, owner] at owned
      obtain rfl := Option.some.inj owned
      rw [places.types]
      simp [Has]
    · rw [places.others table fresh] at owned
      exact keeps.types.has (order.owners table o owned)
  case links =>
    intro table other member
    by_cases fresh : table = ⟨h.scopes.size⟩
    · rw [fresh, places.own, Scope.references, supers] at member
      rcases List.mem_append.mp member with around | inherited
      · exact room (parent other (Option.mem_toList.mp around))
      · obtain ⟨base, _, known⟩ := Option.bind_eq_some_iff.mp (Option.mem_toList.mp inherited)
        exact room (order.tableOf_has known).2
    · rw [places.others table fresh] at member
      exact room (order.links table other member)

end Place

/-- A table that is not that of a built-in value belongs to nothing else. -/
theorem InOrder.table_ne (order : h.InOrder bases) (free : bases.of? (h.types.get id) = none)
    (own : h.types.tableOf id = some table) (built : bases.of? (h.types.get other) = some base)
    (own' : h.types.tableOf other = some table') : table' ≠ table := by
  rintro rfl
  have holders : h.types.holder id = h.types.holder other := by
    have owner := (order.types id).owned table' own
    rw [(order.types other).owned table' own'] at owner
    exact (Option.some.inj owner).symm
  have self : h.types.holder id = id := by
    unfold holder origin? function?
    split
    · next f found =>
      rw [found] at free
      cases free
    · rfl
  rw [self] at holders
  unfold holder at holders
  cases bound : h.types.origin? other with
  | none =>
    rw [bound] at holders
    rw [show id = other from holders, built] at free
    cases free
  | some o =>
    rw [bound] at holders
    obtain ⟨f, found, origin⟩ := Option.bind_eq_some_iff.mp bound
    obtain ⟨g, root, _⟩ := (order.types other).origin f o (function?_eq_some.mp found) origin
    rw [show id = o from holders, root] at free
    cases free

theorem InOrder.inherit (order : h.InOrder bases) (free : bases.of? (h.types.get id) = none) :
    (h.inheritTable id base).InOrder bases := by
  unfold inheritTable
  split
  · next table sup own other =>
    have inside := (order.tableOf_has other).2
    apply order.keep
    case keeps =>
      refine ⟨.refl, ?_, fun _ _ => rfl, fun table' o owned => ?_, fun id' table' base' own' built => ?_⟩
      · simp [ScopeStore.addSuper]
      · rwa [ScopeStore.owner_addSuper]
      · have different := order.table_ne free own built own'
        exact congrArg Scope.supers (ScopeStore.get_modify_of_ne different)
    case wf => exact order.wellFormed
    case new => exact fun id new => settled_outside order.wellFormed new
    case owners =>
      intro table' o owned
      rw [ScopeStore.owner_addSuper] at owned
      exact order.owners table' o owned
    case links =>
      intro table' linked member
      have has : h.scopes.Has linked := by
        rcases ScopeStore.mem_references_addSuper member with old | rfl
        · exact order.links table' linked old
        · exact inside
      simpa [ScopeStore.Has, ScopeStore.addSuper] using has
  · exact order

theorem Stage.inOrder (stage : Stage bases h h') (order : h.InOrder bases) : h'.InOrder bases := by
  cases stage with
  | note changes size envs => exact order.note changes size envs
  | join several distinct flat => exact order.join several distinct flat
  | bind found hr => exact order.bind found hr
  | place places fits unbound plain own env owner parent based supers =>
    exact order.place places fits unbound plain own env owner parent based supers
  | inherit id base free => exact order.inherit free

theorem Stages.inOrder (stages : Stages bases h h') (order : h.InOrder bases) :
    h'.InOrder bases := by
  induction stages with
  | refl => exact order
  | tail _ stage ih => exact stage.inOrder ih

theorem Stage.kept (stage : Stage bases h h') : Kept h.types h'.types := by
  cases stage with
  | note changes => exact changes.kept
  | join | bind => exact kept_alloc
  | place places => exact places.types ▸ kept_alloc
  | inherit => simpa using Kept.refl

theorem Stages.kept (stages : Stages bases h h') : Kept h.types h'.types := by
  induction stages with
  | refl => exact .refl
  | tail _ stage ih => exact ih.trans stage.kept

end Heap
end FlowTypes
