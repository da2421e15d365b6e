import FlowTypes.Builtin
import FlowTypes.Proofs.Views
import Mathlib.Data.List.Nodup
import Mathlib.Logic.Relation

/-! Tables of names and the bindings that they lead to. A name becomes known in one way only: a new
binding is made and put into a table under its name. Everything else that happens to scopes leaves
the entries of their tables as they are, or takes some out. -/
namespace FlowTypes

namespace InsertionMap

variable {κ ν : Type} [DecidableEq κ] {m : InsertionMap κ ν} {k : κ} {v : ν} {e : κ × ν}

theorem contains_of_mem (h : e ∈ m.entries) : m.contains e.1 = true := by
  cases missing : m.get? e.1 with
  | some => simp [contains, missing]
  | none =>
    have absent := List.lookup_eq_none_iff.mp missing e h
    simp at absent

theorem mem_entries_insert (h : e ∈ (m.insert k v).entries) :
    e = (k, v) ∨ e ∈ m.entries ∧ e.1 ≠ k := by
  unfold insert at h
  split at h
  · obtain ⟨old, member, rfl⟩ := List.mem_map.mp h
    split
    · exact .inl rfl
    · next other => exact .inr ⟨member, other⟩
  · next new =>
    rcases List.mem_append.mp h with member | member
    · refine .inr ⟨member, ?_⟩
      rintro rfl
      exact new (contains_of_mem member)
    · exact .inl (List.mem_singleton.mp member)

theorem nodup_keys_insert (nodup : m.keys.Nodup) : (m.insert k v).keys.Nodup := by
  unfold insert keys
  split
  · have same : (m.entries.map fun e => if e.1 = k then (k, v) else e).map (·.1) = m.keys := by
      rw [List.map_map]
      apply List.map_congr_left
      intro e _
      by_cases own : e.1 = k <;> simp [own]
    rw [same]
    exact nodup
  · next new =>
    rw [List.map_append, List.nodup_append]
    refine ⟨nodup, List.nodup_singleton k, ?_⟩
    intro key member
    obtain ⟨e, there, rfl⟩ := List.mem_map.mp member
    rintro _ only rfl
    obtain rfl : e.1 = k := List.mem_singleton.mp only
    exact new (contains_of_mem there)

end InsertionMap

/-! ### Scopes in which no name becomes known -/

/-- What a scope is from the start. -/
def Scope.role (s : Scope) : ScopeKind × Option ScopeId × String × Option TypeId :=
  (s.kind, s.parent, s.path, s.owner)

namespace ScopeStore

variable {s s' s'' : ScopeStore} {id table : ScopeId}

theorem has_of_kind (kind : (s.get id).kind ≠ .plain) : s.Has id := by
  by_contra outside
  exact kind (by rw [get_of_le (Nat.le_of_not_lt outside)]; rfl)

/-- Scopes may come, and those that are there keep their roles. -/
structure SameRoles (s s' : ScopeStore) : Prop where
  room : s.size ≤ s'.size
  role : ∀ id, s.Has id → (s'.get id).role = (s.get id).role

namespace SameRoles

theorem refl : s.SameRoles s := ⟨Nat.le_refl _, fun _ _ => rfl⟩

theorem has (same : s.SameRoles s') {id : ScopeId} (has : s.Has id) : s'.Has id :=
  Nat.lt_of_lt_of_le has same.room

theorem trans (first : s.SameRoles s') (second : s'.SameRoles s'') : s.SameRoles s'' where
  room := Nat.le_trans first.room second.room
  role := fun id has => (second.role id (first.has has)).trans (first.role id has)

theorem kind (same : s.SameRoles s') (id : ScopeId) (has : s.Has id) :
    (s'.get id).kind = (s.get id).kind :=
  congrArg (·.1) (same.role id has)

theorem parent (same : s.SameRoles s') (has : s.Has id) : (s'.get id).parent = (s.get id).parent :=
  congrArg (·.2.1) (same.role id has)

theorem path (same : s.SameRoles s') (has : s.Has id) : (s'.get id).path = (s.get id).path :=
  congrArg (·.2.2.1) (same.role id has)

theorem owner (same : s.SameRoles s') (id : ScopeId) (has : s.Has id) :
    (s'.get id).owner = (s.get id).owner :=
  congrArg (·.2.2.2) (same.role id has)

theorem modify (kept : ∀ scope, (f scope).role = scope.role) : s.SameRoles (s.modify i f) := by
  refine ⟨by simp, fun id _ => ?_⟩
  rcases s.get_modify i id with same | ⟨_, changed⟩
  · rw [same]
  · rw [changed, kept]

theorem define : s.SameRoles (s.define i name bindings) := modify fun _ => rfl

theorem qualify (same : s.SameRoles s') (has : s.Has id) :
    s'.qualify id name = s.qualify id name := by
  simp only [ScopeStore.qualify, Scope.qualify, same.path has]

end SameRoles

/-- Tables lose entries at most. -/
structure NoNewNames (s s' : ScopeStore) : Prop extends SameRoles s s' where
  entries : ∀ id, (s'.get id).table.entries.Sublist (s.get id).table.entries

/-- The tables stay as they are. -/
structure Grows (s s' : ScopeStore) : Prop extends SameRoles s s' where
  table : ∀ id, (s'.get id).table = (s.get id).table

namespace Grows

theorem refl : s.Grows s := ⟨.refl, fun _ => rfl⟩

theorem trans (first : s.Grows s') (second : s'.Grows s'') : s.Grows s'' :=
  ⟨first.toSameRoles.trans second.toSameRoles, fun id => (second.table id).trans (first.table id)⟩

theorem noNewNames (grows : s.Grows s') : s.NoNewNames s' :=
  ⟨grows.toSameRoles, fun id => by rw [grows.table]⟩

theorem of_get (room : s.size ≤ s'.size) (others : ∀ id, id ≠ ⟨s.size⟩ → s'.get id = s.get id)
    (new : (s'.get ⟨s.size⟩).table = {}) : s.Grows s' where
  room := room
  role := fun id has => by
    rw [others]
    rintro rfl
    exact Nat.lt_irrefl _ has
  table := fun id => by
    by_cases own : id = ⟨s.size⟩
    · rw [own, new, get_size]
      rfl
    · rw [others id own]

theorem alloc : s.Grows (s.alloc kind parent path).2 :=
  of_get (by simp) (fun _ => get_alloc_of_ne) (by rw [get_alloc_new])

theorem modify (kept : ∀ scope, (f scope).role = scope.role ∧ (f scope).table = scope.table) :
    s.Grows (s.modify i f) := by
  refine ⟨.modify fun scope => (kept scope).1, fun id => ?_⟩
  rcases s.get_modify i id with same | ⟨_, changed⟩
  · rw [same]
  · rw [changed, (kept _).2]

theorem addSuper : s.Grows (s.addSuper i sup) := by
  refine modify fun scope => ?_
  split <;> exact ⟨rfl, rfl⟩

end Grows

namespace NoNewNames

theorem refl (s : ScopeStore) : s.NoNewNames s := Grows.refl.noNewNames

theorem alloc : s.NoNewNames (s.alloc kind parent path).2 := Grows.alloc.noNewNames

theorem modify (entries : ∀ scope, (f scope).table.entries.Sublist scope.table.entries)
    (kept : ∀ scope, (f scope).role = scope.role) : s.NoNewNames (s.modify i f) := by
  refine ⟨.modify kept, fun id => ?_⟩
  rcases s.get_modify i id with same | ⟨_, changed⟩
  · rw [same]
  · rw [changed]
    exact entries _

end NoNewNames

theorem has_of_entry (entry : (name, ids) ∈ (s.get id).table.entries) : s.Has id := by
  by_contra outside
  rw [get_of_le (Nat.le_of_not_lt outside)] at entry
  cases entry

theorem qualify_define (s : ScopeStore) (table : ScopeId) (name : String) (ids : List BindingId)
    (other : ScopeId) (name' : String) :
    (s.define table name ids).qualify other name' = s.qualify other name' := by
  unfold define ScopeStore.qualify
  rcases s.get_modify table other with same | ⟨_, changed⟩
  · rw [same]
  · rw [changed]
    rfl

end ScopeStore

/-- Neither a function nor the value for the instances of a class. -/
def Ty.isPlain : Ty → Bool
  | function _ | instanceOf _ => false
  | _ => true

namespace Heap

variable {h h' : Heap}

theorem scopes_bindMethod : (h.bindMethod fn receiver).2.scopes = h.scopes := by
  unfold bindMethod
  dsimp only
  split <;> rfl

/-! ### What the operations are made of -/

theorem grows_allocWithTable (h : Heap) (make : ScopeId → Ty) :
    h.scopes.Grows (h.allocWithTable kind parent path make).2.scopes := by
  refine .of_get ?_ (fun id other => scopes_allocWithTable_of_ne other kind parent path make) ?_
  · rw [size_scopes_allocWithTable]
    exact Nat.le_succ _
  · rw [scopes_allocWithTable_new]

theorem grows_inheritTable (h : Heap) (id base : TypeId) :
    h.scopes.Grows (h.inheritTable id base).scopes := by
  unfold inheritTable
  split
  · exact .addSuper
  · exact .refl

/-- A value other than a function comes, or something is noted about a class or a table. -/
inductive Edit : Heap → Heap → Prop
  | add {h : Heap} (make : ScopeId → Ty) (plain : ∀ table, (make table).isPlain = true) :
      Edit h (h.allocWithTable kind parent path make).2
  | addInstance {h : Heap} (classId : TypeId) (path : String) :
      Edit h (h.allocWithTable .object none path fun table => .instanceOf { classId, table }).2
  | inherit {h : Heap} (id base : TypeId) : Edit h (h.inheritTable id base)
  | note {h : Heap} {id : TypeId} {f : ClassType → ClassType} (kept : ∀ c, (f c).table = c.table) :
      Edit h { h with types := h.types.modifyClass id f }
  | addSuper {h : Heap} (table sup : ScopeId) :
      Edit h { h with scopes := h.scopes.addSuper table sup }

abbrev Edits : Heap → Heap → Prop := Relation.ReflTransGen Edit

theorem Edit.grows (edit : Edit h h') : h.scopes.Grows h'.scopes := by
  cases edit with
  | add | addInstance => exact grows_allocWithTable ..
  | inherit => exact grows_inheritTable ..
  | note => exact .refl
  | addSuper => exact .addSuper

theorem Edits.grows (edits : Edits h h') : h.scopes.Grows h'.scopes := by
  induction edits with
  | refl => exact .refl
  | tail _ edit ih => exact ih.trans edit.grows

theorem edits_new (make : ScopeId → Ty) (plain : ∀ table, (make table).isPlain = true) :
    h.Edits ((h.allocWithTable kind parent path make).2.inheritTable
      (h.allocWithTable kind parent path make).1 base) :=
  .tail (.single (.add make plain)) (.inherit ..)

theorem edits_newList (h : Heap) : h.Edits (h.newList bases element positional strings).2 :=
  edits_new (fun table => .list { element, positional, strings, table }) fun _ => rfl

theorem edits_newDict (h : Heap) : h.Edits (h.newDict bases key value).2 :=
  edits_new (fun table => .dict { key, value, table }) fun _ => rfl

theorem edits_newTuple (h : Heap) : h.Edits (h.newTuple bases elements).2 :=
  edits_new (fun table => .tuple { elements, table }) fun _ => rfl

theorem edits_newModule (h : Heap) : h.Edits (h.newModule bases name file parent).2 :=
  edits_new (fun table =>
    .module { name := name.name, file, qualified := name.qualified, table }) fun _ => rfl

theorem edits_newClass (h : Heap) : h.Edits (h.newClass name path parent).2 :=
  .single (.add (fun table => .classType { name, table }) fun _ => rfl)

theorem grows_newFunctionWith (h : Heap) :
    h.scopes.Grows (h.newFunctionWith bases name path env complete).2.scopes :=
  (h.grows_allocWithTable fun table => .function (complete { name, table, env })).trans
    (grows_inheritTable ..)

theorem edits_makeInstance : h.Edits (h.makeInstance classId c).2 := by
  have made : h.Edits (h.allocWithTable .object none (h.scopes.get c.table).path
    fun table => .instanceOf { classId, table }).2 := .single (.addInstance ..)
  unfold makeInstance
  dsimp only
  generalize h.allocWithTable .object none (h.scopes.get c.table).path
    (fun table => .instanceOf { classId, table }) = new at made ⊢
  have noted : h.Edits { new.2 with types := new.2.types.modifyClass classId fun c =>
    { c with instance? := some new.1 } } := made.tail (.note fun _ => rfl)
  exact noted.tail (.inherit ..)

theorem edits_instanceOf (h : Heap) : h.Edits (h.instanceOf classId).2 := by
  apply instanceWithin_keeps (I := fun h' => h.Edits h')
  case made => exact fun h' classId c old _ _ => old.trans edits_makeInstance
  case linked => exact fun h' id base old => old.tail (.inherit ..)
  case start => exact .refl

theorem edits_addBase (h : Heap) : h.Edits (h.addBase classId base) := by
  unfold addBase
  split
  · next c b _ _ =>
    have noted : h.Edits ⟨h.types.modifyClass classId fun c =>
        { c with superclass := c.superclass.or (some base) }, h.scopes.addSuper c.table b.table⟩ :=
      .tail (.single (.addSuper ..)) (.note fun _ => rfl)
    split
    · exact .refl
    · dsimp only
      split
      · exact noted
      · exact (noted.trans (edits_instanceOf _)).tail (.inherit ..)
  · exact .refl

theorem edits_canonicalArguments (h : Heap) :
    h.Edits (h.canonicalArguments bases fn arguments).2 := by
  unfold canonicalArguments
  dsimp only
  split
  · split
    · split
      · exact edits_instanceOf h
      · exact (edits_instanceOf h).trans (edits_newTuple _)
    · exact .refl
  · exact .refl

/-- The value is a module with a table of its own, which is inside of another scope. -/
def IsModule (h : Heap) (around : ScopeId) (value : TypeId) (table : ScopeId) : Prop :=
  ∃ d path, h.types.get value = .module d ∧ d.table = table ∧
    (h.scopes.get table).role = (.module, some around, path, some value)

theorem isModule_newModule : (h.newModule bases name file parent).2.IsModule parent
      (h.newModule bases name file parent).1 ⟨h.scopes.size⟩ := by
  refine ⟨{ name := name.name, file, qualified := name.qualified, table := ⟨h.scopes.size⟩ },
    name.qualified, ?_, rfl, ?_⟩
  · simp only [newModule, types_inheritTable]
    exact TypeStore.get_alloc_new ..
  · have new := h.scopes_allocWithTable_new .module (some parent) name.qualified fun table =>
      .module { name := name.name, file, qualified := name.qualified, table }
    have has := ScopeStore.inside_of_owner (congrArg Scope.owner new)
    exact ((grows_inheritTable ..).role _ has).trans (congrArg Scope.role new)

theorem IsModule.kind (isModule : h.IsModule around value table) :
    (h.scopes.get table).kind = .module := by
  obtain ⟨d, path, _, _, role⟩ := isModule
  exact congrArg (·.1) role

theorem IsModule.tableOf (isModule : h.IsModule around value table) :
    h.types.tableOf value = some table := by
  obtain ⟨d, path, type, rfl, _⟩ := isModule
  exact congrArg Ty.table? type

end Heap

/-! ### Bindings -/

namespace Binding

/-- What stays of a binding: uses are added to it, and its type may become another one. -/
structure Continues (b b' : Binding) : Prop where
  name : b'.name = b.name
  kind : b'.kind = b.kind
  node : b'.node = b.node
  qualified : b'.qualified = b.qualified
  isBuiltin : b'.isBuiltin = b.isBuiltin
  isSynthetic : b'.isSynthetic = b.isSynthetic
  refs : b.refs <+: b'.refs

theorem Continues.refl (b : Binding) : b.Continues b :=
  ⟨rfl, rfl, rfl, rfl, rfl, rfl, List.prefix_rfl⟩

theorem Continues.trans {b : Binding} (first : b.Continues b') (second : b'.Continues b'') :
    b.Continues b'' where
  name := second.name.trans first.name
  kind := second.kind.trans first.kind
  node := second.node.trans first.node
  qualified := second.qualified.trans first.qualified
  isBuiltin := second.isBuiltin.trans first.isBuiltin
  isSynthetic := second.isSynthetic.trans first.isSynthetic
  refs := first.refs.trans second.refs

theorem continues_refer (b : Binding) (node : NodeRef) : b.Continues (b.refer node) := by
  unfold refer addRef
  split
  · exact .refl b
  · split
    · exact .refl b
    · exact ⟨rfl, rfl, rfl, rfl, rfl, rfl, List.prefix_append _ _⟩

/-- The places of a binding are different from each other. -/
def Tidy (b : Binding) : Prop := b.refs.Nodup ∧ b.node ∉ b.refs

theorem Tidy.of_refs {b : Binding} (unused : b.refs = []) : b.Tidy := by
  simp [Tidy, unused]

theorem Tidy.refer {b : Binding} (tidy : b.Tidy) (node : NodeRef) : (b.refer node).Tidy := by
  unfold Binding.refer addRef
  split
  · exact tidy
  · next other =>
    split
    · exact tidy
    · next new =>
      obtain ⟨nodup, own⟩ := tidy
      have absent : node ∉ b.refs := by simpa using new
      constructor
      · exact nodup.append (List.nodup_singleton node) (List.disjoint_singleton.mpr absent)
      · simpa [own] using other

theorem continues_extend (b : Binding) (type : TypeId) (node : NodeRef) :
    b.Continues ({ b with type }.refer node) := by
  have retyped : b.Continues { b with type } := ⟨rfl, rfl, rfl, rfl, rfl, rfl, List.prefix_rfl⟩
  exact retyped.trans (continues_refer _ node)

theorem Tidy.extend {b : Binding} (tidy : b.Tidy) {type : TypeId} {node : NodeRef} :
    ({ b with type }.refer node).Tidy :=
  Tidy.refer (b := { b with type }) tidy node

end Binding

namespace BindingStore

variable {s s' s'' : BindingStore} {id i : BindingId} {b : Binding}

/-- No binding gets lost. -/
def Keeps (s s' : BindingStore) : Prop :=
  ∀ id b, s.get? id = some b → ∃ b', s'.get? id = some b' ∧ b.Continues b'

theorem Keeps.refl (s : BindingStore) : s.Keeps s := fun _ b found => ⟨b, found, .refl b⟩

theorem Keeps.trans (first : s.Keeps s') (second : s'.Keeps s'') : s.Keeps s'' := by
  intro id b found
  obtain ⟨b', found', continues⟩ := first id b found
  obtain ⟨b'', found'', continues'⟩ := second id b' found'
  exact ⟨b'', found'', continues.trans continues'⟩

theorem lt_of_get? (found : s.get? id = some b) : id.index < s.size :=
  (Array.getElem?_eq_some_iff.mp found).1

theorem get?_create_of_lt (inside : id.index < s.size) : (s.create b).2.get? id = s.get? id := by
  have other : id.index ≠ s.bindings.size := Nat.ne_of_lt inside
  simp only [create, get?, Array.getElem?_push, if_neg other]

theorem get?_create_new (s : BindingStore) : (s.create b).2.get? ⟨s.size⟩ = some b := by
  simp [create, get?, size]

theorem get?_create (found : (s.create b).2.get? id = some b') :
    id = ⟨s.size⟩ ∧ b' = b ∨ s.get? id = some b' := by
  by_cases new : id = ⟨s.size⟩
  · subst new
    rw [get?_create_new] at found
    exact .inl ⟨rfl, (Option.some.inj found).symm⟩
  · have other : id.index ≠ s.bindings.size := fun same => new (by cases id; simp_all [size])
    simp only [create, get?, Array.getElem?_push, if_neg other] at found
    exact .inr found

theorem keeps_create (s : BindingStore) : s.Keeps (s.create b).2 := by
  intro id b' found
  rw [get?_create_of_lt (lt_of_get? found)]
  exact ⟨b', found, .refl b'⟩

theorem get?_modify : (s.modify i f).get? id = if id = i then (s.get? id).map f else s.get? id := by
  simp only [modify, get?, Array.getElem?_modify]
  by_cases own : id = i
  · simp [own]
  · have other : i.index ≠ id.index := fun same => own (by cases id; cases i; simp_all)
    simp [own, other]

theorem keeps_modify {i : BindingId} (continues : ∀ b : Binding, b.Continues (f b)) :
    s.Keeps (s.modify i f) := by
  intro id b found
  rw [get?_modify]
  split
  · exact ⟨f b, by rw [found]; rfl, continues b⟩
  · exact ⟨b, found, .refl b⟩

theorem keeps_refer (s : BindingStore) (ids : List BindingId) (node : NodeRef) :
    s.Keeps (ids.foldl (fun b id => b.modify id (·.refer node)) s) := by
  induction ids generalizing s with
  | nil => exact .refl s
  | cons id ids ih => exact (keeps_modify (·.continues_refer node)).trans (ih _)

end BindingStore

/-! ### Tables and bindings -/

/-- Tables and bindings in step. -/
structure InStep (scopes : ScopeStore) (bindings : BindingStore) : Prop where
  names : ∀ table, (scopes.get table).names.Nodup
  /-- An entry leads to one binding, which has the name of the entry. -/
  single : ∀ table name ids, (name, ids) ∈ (scopes.get table).table.entries →
    ∃ id b, ids = [id] ∧ bindings.get? id = some b ∧ b.name = name
  /-- A binding has one entry at most. -/
  apart : ∀ table table' name name' id, (name, [id]) ∈ (scopes.get table).table.entries →
    (name', [id]) ∈ (scopes.get table').table.entries → table' = table ∧ name' = name
  tidy : ∀ id b, bindings.get? id = some b → b.Tidy

theorem ScopeStore.mem_entries_define {s : ScopeStore}
    (h : (name', ids') ∈ ((s.define table name ids).get table').table.entries) :
    table' = table ∧ name' = name ∧ ids' = ids ∨
      (name', ids') ∈ (s.get table').table.entries ∧ (table' = table → name' ≠ name) := by
  unfold define at h
  by_cases own : table' = table
  · subst own
    by_cases has : s.Has table'
    · rw [get_modify_self has] at h
      rcases InsertionMap.mem_entries_insert h with new | ⟨old, other⟩
      · cases new
        exact .inl ⟨rfl, rfl, rfl⟩
      · exact .inr ⟨old, fun _ => other⟩
    · have outside : (s.modify table' fun scope => { scope with
          table := scope.table.insert name ids }).size ≤ table'.index := by
        simpa [Has] using has
      rw [get_of_le outside] at h
      cases h
  · rw [get_modify_of_ne own] at h
    exact .inr ⟨h, fun same => absurd same own⟩

namespace InStep

variable {scopes scopes' : ScopeStore} {bindings : BindingStore} {b : Binding}

theorem of_empty (empty : ∀ table, (scopes.get table).table.entries = [])
    (none : bindings.bindings = #[]) : InStep scopes bindings where
  names := fun table => by simp [Scope.names, InsertionMap.keys, empty]
  single := fun table name ids entry => by simp [empty] at entry
  apart := fun table _ name _ id entry => by simp [empty] at entry
  tidy := fun id b found => by simp [BindingStore.get?, none] at found

theorem noNewNames (inStep : InStep scopes bindings) (fewer : scopes.NoNewNames scopes') :
    InStep scopes' bindings where
  names := fun table => (inStep.names table).sublist ((fewer.entries table).map _)
  single := fun table name ids entry =>
    inStep.single table name ids ((fewer.entries table).subset entry)
  apart := fun table table' name name' id entry entry' =>
    inStep.apart table table' name name' id ((fewer.entries table).subset entry)
      ((fewer.entries table').subset entry')
  tidy := inStep.tidy

theorem create (inStep : InStep scopes bindings) (tidy : b.Tidy) :
    InStep scopes (bindings.create b).2 where
  names := inStep.names
  single := fun table name ids entry => by
    obtain ⟨id, b', rfl, found, same⟩ := inStep.single table name ids entry
    rw [← BindingStore.get?_create_of_lt (BindingStore.lt_of_get? found)] at found
    exact ⟨id, b', rfl, found, same⟩
  apart := inStep.apart
  tidy := fun id b' found => by
    rcases BindingStore.get?_create found with ⟨_, rfl⟩ | old
    · exact tidy
    · exact inStep.tidy id b' old

theorem not_new (inStep : InStep scopes bindings)
    (entry : (name, [(⟨bindings.size⟩ : BindingId)]) ∈ (scopes.get table).table.entries) :
    False := by
  obtain ⟨id, b, same, found, _⟩ := inStep.single table name _ entry
  obtain rfl : ⟨bindings.size⟩ = id := by simpa using same
  exact Nat.lt_irrefl _ (BindingStore.lt_of_get? found)

/-- A name becomes known. The entry that it had, if it had one, gives way to the new one. -/
theorem define (inStep : InStep scopes bindings) (tidy : b.Tidy) (table : ScopeId) :
    InStep (scopes.define table b.name [(bindings.create b).1]) (bindings.create b).2 where
  names := fun table' => by
    rcases scopes.get_modify table table' with
      same | ⟨_, changed⟩
    · rw [ScopeStore.define, same]
      exact inStep.names table'
    · rw [ScopeStore.define, changed]
      exact InsertionMap.nodup_keys_insert (inStep.names table')
  single := fun table' name ids entry => by
    rcases ScopeStore.mem_entries_define entry with ⟨_, rfl, rfl⟩ | ⟨old, _⟩
    · exact ⟨_, b, rfl, bindings.get?_create_new, rfl⟩
    · exact (inStep.create tidy).single table' name ids old
  apart := fun table₁ table₂ name name' id entry entry' => by
    rcases ScopeStore.mem_entries_define entry with ⟨rfl, rfl, new⟩ | ⟨old, _⟩
    · rcases ScopeStore.mem_entries_define entry' with ⟨rfl, rfl, _⟩ | ⟨old', _⟩
      · exact ⟨rfl, rfl⟩
      · rw [new] at old'
        exact absurd old' inStep.not_new
    · rcases ScopeStore.mem_entries_define entry' with ⟨rfl, rfl, new⟩ | ⟨old', _⟩
      · rw [new] at old
        exact absurd old inStep.not_new
      · exact inStep.apart table₁ table₂ name name' id old old'
  tidy := (inStep.create tidy).tidy

theorem modify (inStep : InStep scopes bindings) (name : ∀ b, (f b).name = b.name)
    (tidy : ∀ b, b.Tidy → (f b).Tidy) : InStep scopes (bindings.modify i f) where
  names := inStep.names
  single := fun table name' ids entry => by
    obtain ⟨id, b, rfl, found, same⟩ := inStep.single table name' ids entry
    by_cases own : id = i
    · refine ⟨id, f b, rfl, ?_, (name b).trans same⟩
      rw [BindingStore.get?_modify, if_pos own, found]
      rfl
    · refine ⟨id, b, rfl, ?_, same⟩
      rw [BindingStore.get?_modify, if_neg own, found]
  apart := inStep.apart
  tidy := fun id b found => by
    rw [BindingStore.get?_modify] at found
    split at found
    · obtain ⟨old, known, rfl⟩ := Option.map_eq_some_iff.mp found
      exact tidy old (inStep.tidy id old known)
    · exact inStep.tidy id b found

theorem refer (inStep : InStep scopes bindings) (ids : List BindingId) (node : NodeRef) :
    InStep scopes (ids.foldl (fun b id => b.modify id (·.refer node)) bindings) := by
  induction ids generalizing bindings with
  | nil => exact inStep
  | cons id ids ih =>
    apply ih
    exact inStep.modify (fun b => (b.continues_refer node).name) fun _ tidy => tidy.refer node

end InStep

/-- What the tables lead to is there from the beginning, with the qualified names that the paths of
the scopes give. -/
def AllBuiltIn (scopes : ScopeStore) (bindings : BindingStore) : Prop :=
  ∀ table name id b, (name, [id]) ∈ (scopes.get table).table.entries → bindings.get? id = some b →
    b.isBuiltin = true ∧ b.qualified = scopes.qualify table name

theorem AllBuiltIn.noNewNames (builtIn : AllBuiltIn scopes bindings)
    (fewer : scopes.NoNewNames scopes') : AllBuiltIn scopes' bindings := by
  intro table name id b entry found
  have old := (fewer.entries table).subset entry
  rw [fewer.toSameRoles.qualify (ScopeStore.has_of_entry old)]
  exact builtIn table name id b old found

theorem AllBuiltIn.define (builtIn : AllBuiltIn scopes bindings) (inStep : InStep scopes bindings)
    (own : b.isBuiltin = true)
    (qualified : b.qualified = scopes.qualify table b.name) :
    AllBuiltIn (scopes.define table b.name [(bindings.create b).1]) (bindings.create b).2 := by
  intro table' name id b' entry found
  rw [ScopeStore.qualify_define]
  rcases BindingStore.get?_create found with ⟨rfl, rfl⟩ | old
  · rcases ScopeStore.mem_entries_define entry with ⟨rfl, rfl, _⟩ | ⟨old, _⟩
    · exact ⟨own, qualified⟩
    · exact absurd old inStep.not_new
  · rcases ScopeStore.mem_entries_define entry with ⟨rfl, rfl, same⟩ | ⟨entry, _⟩
    · obtain rfl : id = (bindings.create b).1 := by simpa using same
      exact absurd (BindingStore.lt_of_get? old) (Nat.lt_irrefl _)
    · exact builtIn table' name id b' entry old

end FlowTypes
