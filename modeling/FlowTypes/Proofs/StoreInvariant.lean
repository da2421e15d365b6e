import FlowTypes.Proofs.Alternatives
import FlowTypes.Types.Signature

/-! What can happen to the types of a run, and what stays true of them. Every operation comes down to
new types and to revisions of types in place; an invariant has to survive these two only. -/
namespace FlowTypes

/-- The types that a known function may give. -/
def NativeOp.mentions : NativeOp → List TypeId
  | returns type => [type]
  | _ => []

/-- The types that a function refers to, besides the one that it was bound from. -/
def FunctionType.mentions (f : FunctionType) : List TypeId :=
  f.arrows.flatMap (fun a => [a.arguments, a.result]) ++ f.classId.toList ++ f.receiver.toList ++
    f.defaults.flatMap (·.toList) ++ f.native.toList.flatMap (·.mentions)

theorem FunctionType.forall_mentions {f : FunctionType} {p : TypeId → Prop} :
    (∀ m ∈ f.mentions, p m) ↔
      (∀ arrow ∈ f.arrows, p arrow.arguments ∧ p arrow.result) ∧
      (∀ c, f.classId = some c → p c) ∧ (∀ r, f.receiver = some r → p r) ∧
      (∀ d ∈ f.defaults, ∀ v, d = some v → p v) ∧
      ∀ op, f.native = some op → ∀ m ∈ op.mentions, p m := by
  simp only [mentions, List.forall_mem_append, List.forall_mem_flatMap, Option.mem_toList,
    List.forall_mem_cons, List.not_mem_nil, false_implies, implies_true, and_true, and_assoc]

namespace Ty

/-- The types that a type is made of or leads to, the alternatives of a union apart. -/
def mentions : Ty → List TypeId
  | list d => d.element :: d.positional
  | dict d => [d.key, d.value]
  | tuple d => d.elements
  | classType d => d.superclass.toList ++ d.instance?.toList
  | instanceOf d => [d.classId]
  | function f => f.mentions
  | _ => []

/-- Every type that a type refers to: its alternatives, what a container holds, the arrows of a function
and all else that a class, an instance or a function leads to. -/
def references : Ty → List TypeId
  | union types => types
  | function f => f.origin.toList ++ f.mentions
  | t => t.mentions

/-- What stays of a type for as long as it is in the store. -/
inductive Stays : Ty → Ty → Prop
  | same (t : Ty) : Stays t t
  | list {l r : ListType} (positional : r.positional = l.positional)
      (strings : r.strings = l.strings) (table : r.table = l.table) : Stays (list l) (list r)
  | dict {l r : DictType} (table : r.table = l.table) : Stays (dict l) (dict r)
  | tuple {l r : TupleType} (length : r.elements.length = l.elements.length)
      (table : r.table = l.table) : Stays (tuple l) (tuple r)
  | classType {c d : ClassType} (name : d.name = c.name) (table : d.table = c.table) :
      Stays (classType c) (classType d)
  | function {f g : FunctionType} (origin : g.origin = f.origin)
      (definition : g.definition = f.definition) (table : g.table = f.table) :
      Stays (function f) (function g)

variable {t u v : Ty}

theorem Stays.trans (h : t.Stays u) (h' : u.Stays v) : t.Stays v := by
  cases h with
  | same => exact h'
  | list positional strings table =>
    cases h' with
    | same => exact .list positional strings table
    | list positional' strings' table' =>
      exact .list (positional'.trans positional) (strings'.trans strings) (table'.trans table)
  | dict table =>
    cases h' with
    | same => exact .dict table
    | dict table' => exact .dict (table'.trans table)
  | tuple length table =>
    cases h' with
    | same => exact .tuple length table
    | tuple length' table' => exact .tuple (length'.trans length) (table'.trans table)
  | classType name table =>
    cases h' with
    | same => exact .classType name table
    | classType name' table' => exact .classType (name'.trans name) (table'.trans table)
  | function origin definition table =>
    cases h' with
    | same => exact .function origin definition table
    | function origin' definition' table' =>
      exact .function (origin'.trans origin) (definition'.trans definition) (table'.trans table)

theorem Stays.union_iff (h : t.Stays u) (types : List TypeId) :
    u = .union types ↔ t = .union types := by
  cases h <;> simp

theorem Stays.cont_iff (h : t.Stays u) : u = .cont ↔ t = .cont := by
  cases h <;> simp

theorem Stays.module_iff (h : t.Stays u) : u = .module d ↔ t = .module d := by
  cases h <;> simp

end Ty

namespace TypeStore

variable {s s' : TypeStore} {a b id : TypeId} {t : Ty}

def Has (s : TypeStore) (id : TypeId) : Prop := id.index < s.size

instance (s : TypeStore) (id : TypeId) : Decidable (s.Has id) := inferInstanceAs (Decidable (_ < _))

@[simp] theorem size_alloc : (s.alloc t).2.size = s.size + 1 := by
  simp [alloc, size]

@[simp] theorem size_set : (s.set id t).size = s.size := by
  simp [set, size]

theorem get_alloc (has : s.Has id) : (s.alloc t).2.get id = s.get id := by
  have other : id.index ≠ s.types.size := Nat.ne_of_lt has
  simp only [alloc, get, Array.getElem?_push, if_neg other]

theorem get_alloc_new (s : TypeStore) (t : Ty) : (s.alloc t).2.get ⟨s.size⟩ = t := by
  simp [alloc, get, size]

theorem get_set_self (has : s.Has id) (t : Ty) : (s.set id t).get id = t := by
  have inside : id.index < s.types.size := has
  simp [set, get, inside]

theorem get_set_of_ne (other : a ≠ id) (t : Ty) : (s.set id t).get a = s.get a := by
  have different : id.index ≠ a.index := fun h => other (by cases a; cases id; simp_all)
  simp only [set, get, Array.getElem?_setIfInBounds, if_neg different]

theorem has_of_get (known : s.get id ≠ .unknown) : s.Has id :=
  Nat.lt_of_not_le fun outside => known (get_of_le outside)

/-! ### What no change takes away -/

structure Kept (s s' : TypeStore) : Prop where
  has : ∀ {id}, s.Has id → s'.Has id
  stays : ∀ {id}, s.Has id → (s.get id).Stays (s'.get id)

theorem Kept.refl : Kept s s := ⟨fun has => has, fun _ => .same _⟩

theorem Kept.trans (h : Kept s s') (h' : Kept s' s'') : Kept s s'' where
  has := fun has => h'.has (h.has has)
  stays := fun has => (h.stays has).trans (h'.stays (h.has has))

theorem Kept.isUnion (h : Kept s s') (has : s.Has id) : s'.isUnion id = s.isUnion id := by
  rw [Bool.eq_iff_iff, isUnion_eq_true, isUnion_eq_true]
  exact exists_congr (h.stays has).union_iff

theorem Kept.alternatives (h : Kept s s') (has : s.Has id) :
    s'.alternatives id = s.alternatives id := by
  have same := (h.stays has).union_iff
  cases union : s.isUnion id with
  | false =>
    rw [alternatives_of_not_union union,
      alternatives_of_not_union ((h.isUnion has).trans union)]
  | true =>
    obtain ⟨types, found⟩ := isUnion_eq_true.mp union
    rw [alternatives_of_union found, alternatives_of_union ((same types).mpr found)]

theorem Kept.function (h : Kept s s') (found : s.get id = .function f) :
    ∃ g, s'.get id = .function g ∧ g.origin = f.origin ∧ g.definition = f.definition := by
  have has : s.Has id := has_of_get (by simp [found])
  have stays := h.stays has
  rw [found] at stays
  generalize s'.get id = new at stays ⊢
  cases stays with
  | same => exact ⟨f, rfl, rfl, rfl⟩
  | function origin definition => exact ⟨_, rfl, origin, definition⟩

theorem kept_alloc : Kept s (s.alloc t).2 where
  has := fun has => by
    simp only [Has, size_alloc] at has ⊢
    omega
  stays := fun has => by
    rw [get_alloc has]
    exact .same _

theorem kept_set (stays : (s.get id).Stays t) : Kept s (s.set id t) where
  has := fun has => by simpa only [Has, size_set] using has
  stays := fun {a} has => by
    by_cases same : a = id
    · subst same
      rwa [get_set_self has]
    · rw [get_set_of_ne same]
      exact .same _

/-! ### Well-formed stores -/

/-- What the types of a store may refer to: types of the store, among them at least all that are
neither unions nor the mark of a block's end. -/
class Reference (P : TypeStore → TypeId → Prop) : Prop where
  has : ∀ {s id}, P s id → s.Has id
  kept : ∀ {s s' id}, Kept s s' → P s id → P s' id
  plain : ∀ {s id}, s.Has id → s.isUnion id = false → s.get id ≠ .cont → P s id
  alternative : ∀ {s id x}, P s id → x ∈ s.alternatives id → s.Has x → s.isUnion x = false → P s x
  union : ∀ {s id types}, s.Has id → s.get id = .union types → (∀ x ∈ types, P s x) → P s id

instance : Reference Has where
  has := fun h => h
  kept := fun kept h => kept.has h
  plain := fun h _ _ => h
  alternative := fun _ _ h _ => h
  union := fun h _ _ => h

variable {P : TypeStore → TypeId → Prop}

/-- A type whose parts are in the store. Unions do not nest, and a bound method was made from a
function that is not bound, with the definition of that function. -/
structure Fits (P : TypeStore → TypeId → Prop) (s : TypeStore) (t : Ty) : Prop where
  refers : ∀ m ∈ t.mentions, P s m
  flat : ∀ types, t = .union types → ∀ m ∈ types, s.Has m ∧ s.isUnion m = false
  source : ∀ f o, t = .function f → f.origin = some o →
    ∃ g, s.get o = .function g ∧ g.origin = none ∧ g.definition = f.definition

theorem Fits.of_refers (other : ∀ types, t ≠ .union types)
    (unbound : ∀ f, t = .function f → f.origin = none) (refers : ∀ m ∈ t.mentions, P s m) :
    Fits P s t where
  refers := refers
  flat := fun types same => absurd same (other types)
  source := fun f o same origin => by simp [unbound f same] at origin

/-- A store in which the simple types have their places and every type fits. -/
structure Sound (P : TypeStore → TypeId → Prop) (s : TypeStore) : Prop where
  cont : s.get .cont = .cont
  simple : ∀ id : TypeId, id.index < 10 → id ≠ .cont → P s id
  fits : ∀ id, Fits P s (s.get id)

/-- All types refer to types of the store. -/
abbrev WellFormed (s : TypeStore) : Prop := Sound Has s

theorem Sound.wellFormed [Reference P] (sound : Sound P s) : s.WellFormed where
  cont := sound.cont
  simple := fun id small other => Reference.has (sound.simple id small other)
  fits := fun id => {
    refers := fun m member => Reference.has ((sound.fits id).refers m member)
    flat := (sound.fits id).flat
    source := (sound.fits id).source }

/-- What may be noted about classes and functions. No comparison of types looks at it. -/
inductive Note (P : TypeStore → TypeId → Prop) (s : TypeStore) : Ty → Ty → Prop
  | ofClass {c d : ClassType} (refers : ∀ m ∈ (Ty.classType d).mentions, P s m)
      (name : d.name = c.name) (table : d.table = c.table) : Note P s (.classType c) (.classType d)
  | ofFunction {f g : FunctionType} (refers : ∀ m ∈ g.mentions, P s m)
      (origin : g.origin = f.origin) (definition : g.definition = f.definition)
      (table : g.table = f.table) : Note P s (.function f) (.function g)

/-- What may replace a type in place: a container that holds more, or something noted. -/
inductive Revision (P : TypeStore → TypeId → Prop) (s : TypeStore) : Ty → Ty → Prop
  | element {d : ListType} {e : TypeId} (he : P s e) :
      Revision P s (.list d) (.list { d with element := e })
  | entry {d : DictType} {k v : TypeId} (hk : P s k) (hv : P s v) :
      Revision P s (.dict d) (.dict { d with key := k, value := v })
  | item {d : TupleType} {i : Nat} {e : TypeId} (he : P s e) :
      Revision P s (.tuple d) (.tuple { d with elements := d.elements.set i e })
  | note {t t' : Ty} (note : Note P s t t') : Revision P s t t'

/-- A change that leaves the containers as they are. -/
inductive Addition (P : TypeStore → TypeId → Prop) : TypeStore → TypeStore → Prop
  | alloc {s : TypeStore} {t : Ty} (fits : Fits P s t) : Addition P s (s.alloc t).2
  | note {s : TypeStore} {id : TypeId} {t : Ty} (note : Note P s (s.get id) t) :
      Addition P s (s.set id t)

inductive Change (P : TypeStore → TypeId → Prop) : TypeStore → TypeStore → Prop
  | alloc {s : TypeStore} {t : Ty} (fits : Fits P s t) : Change P s (s.alloc t).2
  | revise {s : TypeStore} {id : TypeId} {t : Ty} (revision : Revision P s (s.get id) t) :
      Change P s (s.set id t)

abbrev Additions (P : TypeStore → TypeId → Prop) : TypeStore → TypeStore → Prop :=
  Relation.ReflTransGen (Addition P)

abbrev Changes (P : TypeStore → TypeId → Prop) : TypeStore → TypeStore → Prop :=
  Relation.ReflTransGen (Change P)

theorem Addition.change (h : Addition P s s') : Change P s s' := by
  cases h with
  | alloc fits => exact .alloc fits
  | note note => exact .revise (.note note)

theorem Additions.changes (h : Additions P s s') : Changes P s s' :=
  h.lift id fun _ _ => Addition.change

theorem Revision.stays (h : Revision P s old new) : old.Stays new := by
  cases h with
  | element => exact .list rfl rfl rfl
  | entry => exact .dict rfl
  | item => exact .tuple (by simp) rfl
  | note note =>
    cases note with
    | ofClass _ name table => exact .classType name table
    | ofFunction _ origin definition table => exact .function origin definition table

theorem Revision.has (h : Revision P s (s.get id) t) : s.Has id := by
  apply has_of_get
  intro unknown
  rw [unknown] at h
  cases h with
  | note note => cases note

theorem Change.kept (h : Change P s s') : Kept s s' := by
  cases h with
  | alloc fits => exact kept_alloc
  | revise revision => exact kept_set revision.stays

theorem Changes.kept (h : Changes P s s') : Kept s s' := by
  induction h with
  | refl => exact .refl
  | tail _ step ih => exact ih.trans step.kept

section Sound

variable [Reference P]

theorem Fits.mono (kept : Kept s s') (h : Fits P s t) : Fits P s' t where
  refers := fun m member => Reference.kept kept (h.refers m member)
  flat := fun types same m member => by
    obtain ⟨has, plain⟩ := h.flat types same m member
    exact ⟨kept.has has, (kept.isUnion has).trans plain⟩
  source := fun f o same origin => by
    obtain ⟨g, found, unbound, definition⟩ := h.source f o same origin
    obtain ⟨k, found, origin, definition'⟩ := kept.function found
    exact ⟨k, found, origin.trans unbound, definition'.trans definition⟩

omit [Reference P] in
theorem Revision.fits (h : Revision P s old new) (fits : Fits P s old) : Fits P s new := by
  cases h with
  | element he =>
    refine .of_refers (by simp) (by simp) fun m member => ?_
    rcases List.mem_cons.mp member with rfl | member
    · exact he
    · exact fits.refers m (List.mem_cons_of_mem _ member)
  | entry hk hv => exact .of_refers (by simp) (by simp) (by simp [Ty.mentions, hk, hv])
  | item he =>
    refine .of_refers (by simp) (by simp) fun m member => ?_
    rcases List.mem_or_eq_of_mem_set member with member | rfl
    · exact fits.refers m member
    · exact he
  | note note =>
    cases note with
    | ofClass refers => exact .of_refers (by simp) (by simp) refers
    | @ofFunction f g refers origin definition =>
      refine ⟨refers, by simp, ?_⟩
      rintro _ o ⟨⟩ bound
      obtain ⟨k, found, unbound, same⟩ := fits.source f o rfl (origin ▸ bound)
      exact ⟨k, found, unbound, same.trans definition.symm⟩

theorem Change.sound (h : Change P s s') (sound : Sound P s) : Sound P s' where
  cont := by
    have has : s.Has .cont := has_of_get (by simp [sound.cont])
    exact (h.kept.stays has).cont_iff.mpr sound.cont
  simple := fun id small other => Reference.kept h.kept (sound.simple id small other)
  fits := by
    intro a
    refine Fits.mono h.kept ?_
    cases h with
    | @alloc t fits =>
      by_cases has : s.Has a
      · rw [get_alloc has]
        exact sound.fits a
      · by_cases new : a = ⟨s.size⟩
        · subst new
          rw [get_alloc_new]
          exact fits
        · have outside : (s.alloc t).2.size ≤ a.index := by
            have different : a.index ≠ s.size := fun h => new (by cases a; simp_all)
            simp only [Has, Nat.not_lt] at has
            rw [size_alloc]
            omega
          rw [get_of_le outside]
          exact .of_refers (by simp) (by simp) (by simp [Ty.mentions])
    | @revise id t revision =>
      by_cases same : a = id
      · subst same
        rw [get_set_self revision.has]
        exact revision.fits (sound.fits a)
      · rw [get_set_of_ne same]
        exact sound.fits a

theorem Changes.sound (h : Changes P s s') (sound : Sound P s) : Sound P s' := by
  induction h with
  | refl => exact sound
  | tail _ step ih => exact step.sound ih

end Sound

/-! ### Origins -/

theorem function?_eq_some : s.function? a = some f ↔ s.get a = .function f := by
  unfold function?
  split <;> simp_all

theorem Sound.origin (sound : Sound P s) (found : s.get a = .function f)
    (origin : f.origin = some o) :
    ∃ g, s.get o = .function g ∧ g.origin = none ∧ g.definition = f.definition :=
  (sound.fits a).source f o found origin

theorem Sound.mention (sound : Sound P s) (found : s.get a = t) (member : m ∈ t.mentions) : P s m :=
  (sound.fits a).refers m (found ▸ member)

theorem Sound.finiteOrigins (sound : Sound P s) : s.FiniteOrigins := by
  intro a
  cases bound : s.origin? a with
  | none => exact ⟨0, a, .own (by simp [bound])⟩
  | some o =>
    obtain ⟨f, found, origin⟩ := Option.bind_eq_some_iff.mp bound
    obtain ⟨g, found', unbound, _⟩ := sound.origin (function?_eq_some.mp found) origin
    have last : s.origin? o = none := by simp [origin?, function?, found', unbound]
    have other : o ≠ a := by
      rintro rfl
      simp [bound] at last
    exact ⟨1, o, .bound bound other (.own (by simp [last]))⟩

theorem Sound.carriesDefinitions (sound : Sound P s) : s.CarriesDefinitions := by
  intro a f o found origin
  obtain ⟨g, found', _, definition⟩ := sound.origin (function?_eq_some.mp found) origin
  simpa [function?_eq_some.mpr found'] using definition

theorem Sound.equal_trans (sound : Sound P s) (hab : s.equal a b = true) (hbc : s.equal b c = true) :
    s.equal a c = true :=
  TypeStore.equal_trans sound.finiteOrigins sound.carriesDefinitions hab hbc

theorem Leads.last (h : s.Leads n a o) : ∀ o', s.origin? o = some o' → o' = o := by
  induction h with
  | own last => exact last
  | bound _ _ _ ih => exact ih

/-- The search for the origin ends at a function that is not bound. -/
theorem Sound.originOf_unbound (sound : Sound P s) (found : s.get (s.originOf a) = .function f) :
    f.origin = none := by
  obtain ⟨n, o, leads⟩ := sound.finiteOrigins a
  rw [leads.originOf] at found
  cases origin : f.origin with
  | none => rfl
  | some o' =>
    obtain rfl := leads.last o' (by simp [origin?, function?, found, origin])
    obtain ⟨g, found', unbound, _⟩ := sound.origin found origin
    rw [found] at found'
    cases found'
    simp [origin] at unbound

theorem Sound.originOf [Reference P] (sound : Sound P s) (ha : P s a) : P s (s.originOf a) := by
  obtain ⟨n, o, leads⟩ := sound.finiteOrigins a
  rw [leads.originOf]
  induction leads with
  | own => exact ha
  | bound step _ _ ih =>
    obtain ⟨f, found, origin⟩ := Option.bind_eq_some_iff.mp step
    obtain ⟨g, found, _⟩ := sound.origin (function?_eq_some.mp found) origin
    exact ih (Reference.plain (has_of_get (by simp [found])) (by simp [isUnion, found])
      (by simp [found]))

/-! ### Unions -/

theorem alternatives_flat (ha : s.Has a)
    (flat : ∀ types, s.get a = .union types → ∀ x ∈ types, s.Has x ∧ s.isUnion x = false) :
    ∀ x ∈ s.alternatives a, s.Has x ∧ s.isUnion x = false := by
  intro x member
  cases union : s.isUnion a with
  | false =>
    rw [alternatives_of_not_union union, List.mem_singleton] at member
    exact member ▸ ⟨ha, union⟩
  | true =>
    obtain ⟨types, found⟩ := isUnion_eq_true.mp union
    rw [alternatives_of_union found] at member
    exact flat types found x member

theorem Sound.flat (sound : Sound P s) (ha : s.Has a) :
    ∀ x ∈ s.alternatives a, s.Has x ∧ s.isUnion x = false :=
  alternatives_flat ha (sound.fits a).flat

theorem Sound.alternatives [Reference P] (sound : Sound P s) (ha : P s a) :
    ∀ x ∈ s.alternatives a, P s x := by
  intro x member
  obtain ⟨has, plain⟩ := sound.flat (Reference.has ha) x member
  exact Reference.alternative ha member has plain

theorem fits_union {types : List TypeId}
    (plain : ∀ x ∈ types, s.Has x ∧ s.isUnion x = false) : Fits P s (.union types) where
  refers := by simp [Ty.mentions]
  flat := by
    rintro _ ⟨⟩ x member
    exact plain x member
  source := by simp

/-- The result of an operation may be referred to in the store that it leaves, which grew out of the
old one. -/
structure Yields (P : TypeStore → TypeId → Prop) (s : TypeStore) (result : TypeId × TypeStore) :
    Prop where
  additions : Additions P s result.2
  refers : P result.2 result.1

theorem Yields.changes (h : Yields P s result) : Changes P s result.2 :=
  h.additions.changes

theorem Sound.unknown (sound : Sound P s) : P s .unknown :=
  sound.simple .unknown (by decide) (by decide)

theorem yields_alloc [Reference P] (plain : ∀ types, t ≠ .union types) (other : t ≠ .cont)
    (fits : Fits P s t) : Yields P s (s.alloc t) where
  additions := .single (.alloc fits)
  refers := by
    have found : (s.alloc t).2.get (s.alloc t).1 = t := get_alloc_new s t
    refine Reference.plain (by simp [Has, alloc, size]) ?_ (by rwa [found])
    rw [← Bool.not_eq_true, isUnion_eq_true, found]
    rintro ⟨types, same⟩
    exact plain types same

theorem yields_alloc_union [Reference P] {types : List TypeId}
    (plain : ∀ x ∈ types, s.Has x ∧ s.isUnion x = false) (refers : ∀ x ∈ types, P s x) :
    Yields P s (s.alloc (.union types)) where
  additions := .single (.alloc (fits_union plain))
  refers := Reference.union (by simp [Has, alloc, size]) (get_alloc_new s _) fun x member =>
    Reference.kept kept_alloc (refers x member)

theorem Sound.distinct (sound : Sound P s) (ha : s.Has a) (hb : s.Has b) :
    ∀ x ∈ s.distinct (s.alternatives a ++ s.alternatives b), s.Has x ∧ s.isUnion x = false := by
  intro x member
  rcases List.mem_append.mp (mem_of_mem_distinct member) with member | member
  · exact sound.flat ha x member
  · exact sound.flat hb x member

theorem Sound.union [Reference P] (sound : Sound P s) (ha : P s a) (hb : P s b) :
    Yields P s (s.union a b) := by
  have plain := sound.distinct (Reference.has ha) (Reference.has hb)
  have refers : ∀ x ∈ s.distinct (s.alternatives a ++ s.alternatives b), P s x := by
    intro x member
    rcases List.mem_append.mp (mem_of_mem_distinct member) with member | member
    · exact sound.alternatives ha x member
    · exact sound.alternatives hb x member
  have joins := s.union_joins a b
  generalize s.union a b = result at joins ⊢
  cases joins with
  | same => exact ⟨.refl, ha⟩
  | single different types => exact ⟨.refl, refers _ (by simp [types])⟩
  | first => exact ⟨.refl, ha⟩
  | second => exact ⟨.refl, hb⟩
  | fresh => exact yields_alloc_union plain refers

theorem Sound.remove (sound : Sound P s) (ha : s.Has a) : Additions P s (s.remove a b).2 := by
  have removes := s.remove_removes a b
  generalize s.remove a b = result at removes ⊢
  cases removes with
  | nothing | single | whole => exact .refl
  | fresh =>
    exact .single (.alloc (fits_union fun x member => sound.flat ha x (mem_without.mp member).1))

/-! ### Components -/

theorem setElement_changes (he : P s b) : Changes P s (s.setElement a b) := by
  unfold setElement
  split
  · next found => exact .single (.revise (found ▸ .element he))
  · exact .refl

theorem setEntry_changes (hk : P s key) (hv : P s value) :
    Changes P s (s.setEntry a key value) := by
  unfold setEntry
  split
  · next found => exact .single (.revise (found ▸ .entry hk hv))
  · exact .refl

theorem setItem_changes (he : P s b) : Changes P s (s.setItem a i b) := by
  unfold setItem
  split
  · next found => exact .single (.revise (found ▸ .item he))
  · exact .refl

theorem modifyClass_additions
    (refers : ∀ c, s.get a = .classType c → ∀ m ∈ (Ty.classType (f c)).mentions, P s m)
    (name : ∀ c, (f c).name = c.name) (table : ∀ c, (f c).table = c.table) :
    Additions P s (s.modifyClass a f) := by
  unfold modifyClass
  split
  · next c found =>
    exact .single (.note (found ▸ .ofClass (refers c found) (name c) (table c)))
  · exact .refl

theorem Sound.noteInstance (sound : Sound P s) (hb : P s b) :
    Additions P s (s.modifyClass a fun c => { c with instance? := some b }) := by
  refine modifyClass_additions (fun c found m member => ?_) (fun _ => rfl) fun _ => rfl
  rcases List.mem_append.mp member with member | member
  · exact sound.mention found (List.mem_append_left _ member)
  · simp only [Option.toList_some, List.mem_singleton] at member
    exact member ▸ hb

theorem Sound.noteSuperclass (sound : Sound P s) (hb : P s b) :
    Additions P s (s.modifyClass a fun c => { c with superclass := c.superclass.or (some b) }) := by
  refine modifyClass_additions (fun c found m member => ?_) (fun _ => rfl) fun _ => rfl
  have old : m ∈ (Ty.classType c).mentions → P s m := sound.mention found
  simp only [Ty.mentions, List.mem_append, Option.mem_toList] at member old
  rcases member with member | member
  · cases first : c.superclass with
    | some sup => exact old (.inl (by simpa [first] using member))
    | none =>
      obtain rfl : b = m := by simpa [first] using member
      exact hb
  · exact old (.inr member)

theorem modifyFunction_additions (refers : ∀ d, s.get a = .function d → ∀ m ∈ (f d).mentions, P s m)
    (origin : ∀ d, (f d).origin = d.origin) (definition : ∀ d, (f d).definition = d.definition)
    (table : ∀ d, (f d).table = d.table) : Additions P s (s.modifyFunction a f) := by
  unfold modifyFunction
  split
  · next d found =>
    exact .single (.note (found ▸ .ofFunction (refers d found) (origin d) (definition d) (table d)))
  · exact .refl

theorem Sound.widen [Reference P] (sound : Sound P s) (ha : P s a) (hb : P s b) :
    Yields P s (s.widen a b) := by
  unfold TypeStore.widen
  split
  · exact ⟨.refl, hb⟩
  · exact sound.union ha hb

theorem Sound.widenList [Reference P] (sound : Sound P s) (hb : P s b) :
    Changes P s (s.widenList a b) := by
  unfold TypeStore.widenList
  split
  · next d found =>
    have widened := sound.widen (sound.mention found List.mem_cons_self) hb
    exact widened.changes.trans (setElement_changes widened.refers)
  · exact .refl

theorem Sound.widenEntry [Reference P] (sound : Sound P s) (hi : P s index) (hv : P s value) :
    Changes P s (s.widenEntry a index value) := by
  unfold TypeStore.widenEntry
  split
  · next d found =>
    have key : P s d.key := sound.mention found (by simp [Ty.mentions])
    have mapped : P s d.value := sound.mention found (by simp [Ty.mentions])
    have first := sound.widen key hi
    have kept := first.changes.kept
    have second := (first.changes.sound sound).widen (Reference.kept kept mapped)
      (Reference.kept kept hv)
    refine first.changes.trans (second.changes.trans (setEntry_changes ?_ second.refers))
    exact Reference.kept second.changes.kept first.refers
  · exact .refl

/-! ### Signature tables -/

theorem mem_compress (h : arrow ∈ s.compress arrows) : arrow ∈ arrows := by
  obtain ⟨⟨_, i⟩, kept, rfl⟩ := List.mem_map.mp h
  exact List.fst_mem_of_mem_zipIdx (List.mem_filter.mp kept).1

theorem mem_withArrow (h : arrow ∈ s.withArrow arrows new) :
    arrow = new ∨ ∃ old ∈ arrows, arrow = old ∨ arrow = { old with result := new.result } := by
  unfold withArrow at h
  split at h
  · next i _ =>
    obtain ⟨j, inside, rfl⟩ := List.mem_iff_getElem.mp h
    have inside' : j < arrows.length := by simpa using inside
    refine .inr ⟨arrows[j], List.getElem_mem inside', ?_⟩
    rw [List.getElem_modify]
    split
    · exact .inr rfl
    · exact .inl rfl
  · rcases List.mem_append.mp h with member | member
    · exact .inr ⟨arrow, member, .inl rfl⟩
    · exact .inl (List.mem_singleton.mp member)

theorem Sound.function (sound : Sound P s) (found : s.get a = .function f) :
    (∀ arrow ∈ f.arrows, P s arrow.arguments ∧ P s arrow.result) ∧
      (∀ c, f.classId = some c → P s c) ∧ (∀ r, f.receiver = some r → P s r) ∧
      (∀ d ∈ f.defaults, ∀ v, d = some v → P s v) ∧
      ∀ op, f.native = some op → ∀ m ∈ op.mentions, P s m :=
  FunctionType.forall_mentions.mp fun _ member => sound.mention found member

theorem Sound.arrow {arrow : Arrow} (sound : Sound P s) (found : s.get a = .function f)
    (member : arrow ∈ f.arrows) : P s arrow.arguments ∧ P s arrow.result :=
  (sound.function found).1 arrow member

theorem Sound.setArrows (sound : Sound P s)
    (refers : ∀ arrow ∈ arrows, P s arrow.arguments ∧ P s arrow.result) :
    Additions P s (s.setArrows a arrows) := by
  refine modifyFunction_additions (fun f found => ?_) (fun _ => rfl) (fun _ => rfl) fun _ => rfl
  exact FunctionType.forall_mentions.mpr ⟨refers, (sound.function found).2⟩

theorem Sound.insertArrow {arrow : Arrow} (sound : Sound P s) (fn : TypeId)
    (ha : P s arrow.arguments) (hr : P s arrow.result) (limits : Limits) :
    Additions P s (s.insertArrow fn arrow limits).2 := by
  unfold TypeStore.insertArrow
  dsimp only
  split
  · exact .refl
  · next f found =>
    have refers : ∀ other ∈ s.compress (s.withArrow f.arrows arrow),
        P s other.arguments ∧ P s other.result := by
      intro other member
      rcases mem_withArrow (mem_compress member) with rfl | ⟨old, known, rfl | rfl⟩
      · exact ⟨ha, hr⟩
      · exact sound.arrow (function?_eq_some.mp found) known
      · exact ⟨(sound.arrow (function?_eq_some.mp found) known).1, hr⟩
    split
    · exact .refl
    · split
      · exact sound.setArrows refers
      · split
        · exact .refl
        · exact sound.setArrows refers

theorem class?_eq_some : s.class? a = some c ↔ s.get a = .classType c := by
  unfold class?
  split <;> simp_all

/-! ### The first store -/

theorem forall_initial {p : Ty → Prop} (simple : ∀ t ∈ initial.types.toList, p t) (id : TypeId) :
    p (initial.get id) := by
  unfold get
  cases found : initial.types[id.index]? with
  | none => exact simple .unknown (by simp [initial])
  | some t => exact simple t (Array.mem_toList_iff.mpr (Array.mem_of_getElem? found))

theorem initial_sound [Reference P] : Sound P initial where
  cont := rfl
  simple := by
    rintro ⟨i⟩ small other
    refine Reference.plain small ?_ ?_ <;>
    · have cases : i = 0 ∨ i = 1 ∨ i = 3 ∨ i = 4 ∨ i = 5 ∨ i = 6 ∨ i = 7 ∨ i = 8 ∨ i = 9 := by
        have different : i ≠ 2 := fun h => other (by rw [h]; rfl)
        change i < 10 at small
        omega
      rcases cases with rfl | rfl | rfl | rfl | rfl | rfl | rfl | rfl | rfl <;>
        simp [isUnion, get, initial]
  fits := by
    have simple : ∀ t ∈ initial.types.toList, t.mentions = [] ∧ (∀ types, t ≠ .union types) ∧
        ∀ f, t = .function f → f.origin = none := by simp [initial, Ty.mentions]
    intro id
    obtain ⟨none, other, unbound⟩ := forall_initial simple id
    exact .of_refers other unbound (by simp [none])

end TypeStore
end FlowTypes
