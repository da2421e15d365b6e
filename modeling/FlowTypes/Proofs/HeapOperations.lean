import FlowTypes.Proofs.HeapOrder
import FlowTypes.Proofs.InstanceMirror

/-! The operations that make and change types, and that every sequence of them leaves the heap in
order. -/
namespace FlowTypes

/-- The built-in classes have their tables. -/
def Bases.Stand (bases : Bases) (h : Heap) : Prop :=
  ∀ t base, bases.of? t = some base → (h.types.tableOf base).isSome

namespace Heap

open TypeStore

variable {bases : Bases} {h h' : Heap} {id base a b : TypeId} {t : Ty}

/-! ### Unions and components -/

theorem overlooks_env : Overlooks Ty.env? where
  unknown := rfl
  union := fun _ => rfl
  list := fun _ => rfl
  dict := fun _ => rfl
  tuple := fun _ => rfl

theorem InOrder.nodup_alternatives (order : h.InOrder bases) :
    (h.types.alternatives a).Nodup ∧ h.types.alternatives a ≠ [] := by
  cases union : h.types.isUnion a with
  | false => simp [alternatives_of_not_union union]
  | true =>
    obtain ⟨types, found⟩ := isUnion_eq_true.mp union
    obtain ⟨two, distinct, _⟩ := (order.types a).union types found
    rw [alternatives_of_union found]
    refine ⟨distinct, ?_⟩
    rintro rfl
    cases two

theorem stages_union (order : h.InOrder bases) (ha : h.types.Has a) (hb : h.types.Has b) :
    Stages bases h { h with types := (h.types.union a b).2 } := by
  have joins := h.types.union_joins a b
  generalize h.types.union a b = result at joins ⊢
  cases joins with
  | same | single | first | second => exact .refl
  | fresh different grown grown' several =>
    have some : h.types.distinct (h.types.alternatives a ++ h.types.alternatives b) ≠ [] := by
      rw [ne_eq, distinct_eq_nil, List.append_eq_nil_iff, not_and]
      exact fun none => absurd none order.nodup_alternatives.2
    refine .single (.join (two_le_length some several) ?_ (order.wellFormed.distinct ha hb))
    -- Equality is reflexive, so types that are pairwise unequal are different ones.
    refine h.types.pairwise_distinct.imp fun {x y} unequal => ?_
    rintro rfl
    simp at unequal

theorem stages_remove (order : h.InOrder bases) (ha : h.types.Has a) :
    Stages bases h { h with types := (h.types.remove a b).2 } := by
  have removes := h.types.remove_removes a b
  generalize h.types.remove a b = result at removes ⊢
  cases removes with
  | nothing | single | whole => exact .refl
  | fresh several =>
    refine .single (.join several (order.nodup_alternatives.1.filter _) fun x member => ?_)
    exact order.wellFormed.flat ha x (mem_without.mp member).1

theorem stages_widen (order : h.InOrder bases) (ha : h.types.Has a) (hb : h.types.Has b) :
    Stages bases h { h with types := (h.types.widen a b).2 } := by
  unfold widen
  split
  · exact .refl
  · exact stages_union order ha hb

theorem stages_setElement (hb : h.types.Has b) :
    Stages bases h { h with types := h.types.setElement a b } := by
  refine .single (.note (setElement_changes hb) ?_ (agrees_setElement overlooks_env))
  unfold setElement
  split <;> simp

theorem stages_setEntry (hk : h.types.Has key) (hv : h.types.Has value) :
    Stages bases h { h with types := h.types.setEntry a key value } := by
  refine .single (.note (setEntry_changes hk hv) ?_ (agrees_setEntry overlooks_env))
  unfold setEntry
  split <;> simp

theorem stages_setItem (hb : h.types.Has b) :
    Stages bases h { h with types := h.types.setItem a i b } := by
  refine .single (.note (setItem_changes hb) ?_ (agrees_setItem overlooks_env))
  unfold setItem
  split <;> simp

theorem stages_widenList (order : h.InOrder bases) (hb : h.types.Has b) :
    Stages bases h { h with types := h.types.widenList a b } := by
  unfold widenList
  split
  · next d found =>
    have element : h.types.Has d.element := order.wellFormed.mention found List.mem_cons_self
    have widened : Yields Has _ _ := order.wellFormed.widen element hb
    exact (stages_widen order element hb).trans
      (stages_setElement widened.refers)
  · exact .refl

theorem stages_widenEntry (order : h.InOrder bases) (hi : h.types.Has index)
    (hv : h.types.Has value) :
    Stages bases h { h with types := h.types.widenEntry a index value } := by
  unfold widenEntry
  split
  · next d found =>
    have key : h.types.Has d.key := order.wellFormed.mention found (by simp [Ty.mentions])
    have mapped : h.types.Has d.value := order.wellFormed.mention found (by simp [Ty.mentions])
    have first : Yields Has _ _ := order.wellFormed.widen key hi
    have stages := stages_widen order key hi
    have order' := stages.inOrder order
    have second : Yields Has _ _ :=
      order'.wellFormed.widen (stages.kept.has mapped) (stages.kept.has hv)
    have stages' := stages_widen order' (stages.kept.has mapped) (stages.kept.has hv)
    exact stages.trans (stages'.trans (stages_setEntry
      (stages'.kept.has first.refers) second.refers))
  · exact .refl

/-! ### New values -/

theorem Stages.stand (stages : Stages bases h h') (stand : bases.Stand h) : bases.Stand h' := by
  intro t base built
  obtain ⟨table, own⟩ := Option.isSome_iff_exists.mp (stand t base built)
  have has : h.types.Has base := has_of_get fun unknown => by
    simp [tableOf, unknown, Ty.table?] at own
  rw [stages.kept.tableOf has, own]
  rfl

theorem places_allocWithTable (h : Heap) (kind : ScopeKind) (parent : Option ScopeId)
    (path : String) (make : ScopeId → Ty) :
    h.Places (h.allocWithTable kind parent path make).2 (make ⟨h.scopes.size⟩)
      { kind, path, parent, owner := some ⟨h.types.size⟩ } where
  types := rfl
  room := size_scopes_allocWithTable
  own := scopes_allocWithTable_new h kind parent path make
  others := fun _ other => scopes_allocWithTable_of_ne other kind parent path make

theorem places_inheritTable (own : ∀ table, (make table).table? = some table)
    (other : h.types.tableOf base = some sup) :
    h.Places ((h.allocWithTable kind parent path make).2.inheritTable
        (h.allocWithTable kind parent path make).1 base) (make ⟨h.scopes.size⟩)
      { kind, path, parent, owner := some ⟨h.types.size⟩, supers := [sup] } := by
  have places := h.places_allocWithTable kind parent path make
  generalize made : h.allocWithTable kind parent path make = new at places ⊢
  have first : new.1 = ⟨h.types.size⟩ := made ▸ rfl
  have ownTable : new.2.types.tableOf new.1 = some ⟨h.scopes.size⟩ := by
    rw [first, places.types, tableOf, get_alloc_new, own]
  have has : h.types.Has base := has_of_get fun unknown => by
    simp [tableOf, unknown, Ty.table?] at other
  have otherTable : new.2.types.tableOf base = some sup := by
    rw [places.types, tableOf, get_alloc has]
    exact other
  have inside : (⟨h.scopes.size⟩ : ScopeId).index < new.2.scopes.size := by
    rw [places.room]
    exact Nat.lt_succ_self _
  rw [inheritTable_eq ownTable otherTable]
  constructor
  case types => exact places.types
  case room => simpa [ScopeStore.addSuper] using places.room
  case own =>
    refine (ScopeStore.get_modify_self inside _).trans ?_
    rw [places.own]
    simp
  case others =>
    intro table different
    exact (ScopeStore.get_modify_of_ne different).trans (places.others table different)

theorem stage_new (stand : bases.Stand h)
    (make : ScopeId → Ty) (built : ∀ table, bases.of? (make table) = some base)
    (fits : ∀ table, Fits Has h.types (make table))
    (unbound : ∀ table f, make table = .function f → f.origin = none)
    (own : ∀ table, (make table).table? = some table)
    (env : ∀ table, ∀ env ∈ (make table).env?, h.scopes.Has env)
    (around : ∀ p ∈ parent, h.scopes.Has p) :
    Stage bases h ((h.allocWithTable kind parent path make).2.inheritTable
      (h.allocWithTable kind parent path make).1 base) := by
  obtain ⟨sup, other⟩ := Option.isSome_iff_exists.mp (stand _ base (built ⟨0⟩))
  apply Stage.place (places_inheritTable own other) (fits _) (unbound _)
  case plain =>
    intro types union
    have table := own ⟨h.scopes.size⟩
    rw [union] at table
    cases table
  case own => exact own _
  case env => exact env _
  case owner => rfl
  case parent => exact around
  case based => exact fun base => stand _ base
  case supers => simp [built, other]

section Values

variable (stand : bases.Stand h)

include stand

theorem stage_newList (he : h.types.Has element)
    (hp : ∀ p ∈ positional, h.types.Has p) :
    Stage bases h (h.newList bases element positional strings).2 :=
  stage_new stand (fun table => .list { element, positional, strings, table })
    (fun _ => rfl)
    (fun _ => .of_refers (by simp) (by simp) (by simpa [Ty.mentions] using ⟨he, hp⟩)) (by simp)
    (fun _ => rfl) (by simp [Ty.env?]) (by simp)

theorem stage_newDict (hk : h.types.Has key) (hv : h.types.Has value) :
    Stage bases h (h.newDict bases key value).2 :=
  stage_new stand (fun table => .dict { key, value, table }) (fun _ => rfl)
    (fun _ => .of_refers (by simp) (by simp) (by simp [Ty.mentions, hk, hv])) (by simp)
    (fun _ => rfl) (by simp [Ty.env?]) (by simp)

theorem stage_newTuple (he : ∀ e ∈ elements, h.types.Has e) :
    Stage bases h (h.newTuple bases elements).2 :=
  stage_new stand (fun table => .tuple { elements, table }) (fun _ => rfl)
    (fun _ => .of_refers (by simp) (by simp) he) (by simp)
    (fun _ => rfl) (by simp [Ty.env?]) (by simp)

theorem stage_newModule (around : h.scopes.Has parent) :
    Stage bases h (h.newModule bases name file parent).2 :=
  stage_new stand
    (fun table => .module { name := name.name, file, qualified := name.qualified, table })
    (fun _ => rfl) (fun _ => .of_refers (by simp) (by simp) (by simp [Ty.mentions])) (by simp)
    (fun _ => rfl) (by simp [Ty.env?]) (by simpa using around)

theorem stage_newFunction (around : h.scopes.Has env)
    (hc : ∀ c ∈ classId, h.types.Has c) :
    Stage bases h (h.newFunctionWith bases name path env fun f => { f with classId, method }).2 :=
  stage_new stand
    (fun table => .function { name, table, env, classId, method }) (fun _ => rfl)
    (fun _ => .of_refers (by simp) (by rintro _ ⟨⟩; rfl)
      (FunctionType.forall_mentions.mpr ⟨by simp, hc, by simp, by simp, by simp⟩))
    (by rintro _ _ ⟨⟩; rfl) (fun _ => rfl) (by simpa [Ty.env?] using around) (by simp)

end Values

theorem stage_newClass (around : h.scopes.Has parent) :
    Stage bases h (h.newClass name path parent).2 :=
  .place (h.places_allocWithTable _ _ _ _) (.of_refers (by simp) (by simp) (by simp [Ty.mentions]))
    (by simp) (by simp) rfl (by simp [Ty.env?]) rfl (by simpa using around) (by simp [Bases.of?]) rfl

/-! ### Values for instances -/

theorem size_modifyClass {types : TypeStore} {f : ClassType → ClassType} :
    (types.modifyClass id f).size = types.size := by
  unfold modifyClass
  split <;> simp

theorem stage_noteInstance (order : h.InOrder bases) (classId : TypeId) (hb : h.types.Has b) :
    Stage bases h
      { h with types := h.types.modifyClass classId fun c => { c with instance? := some b } } :=
  .note (order.wellFormed.noteInstance hb).changes size_modifyClass
    (agrees_modifyClass fun _ _ => rfl)

theorem stage_noteSuperclass (order : h.InOrder bases) (classId : TypeId) (hb : h.types.Has b) :
    Stage bases h { h with types := h.types.modifyClass classId fun c =>
      { c with superclass := c.superclass.or (some b) } } :=
  .note (order.wellFormed.noteSuperclass hb).changes size_modifyClass
    (agrees_modifyClass fun _ _ => rfl)

theorem stages_makeInstance (order : h.InOrder bases) (found : h.types.get classId = .classType c) :
    Stages bases h (h.makeInstance classId c).2 := by
  have has : h.types.Has classId := has_of_get (by simp [found])
  have places := h.places_allocWithTable .object none (h.scopes.get c.table).path
    fun table => .instanceOf { classId, table }
  have placed : Stage bases h _ := .place places
    (.of_refers (by simp) (by simp) (by simpa [Ty.mentions] using has)) (by simp) (by simp) rfl
    (by simp [Ty.env?]) rfl (by simp) (by simp [Bases.of?]) rfl
  have order' := placed.inOrder order
  unfold makeInstance
  dsimp only
  generalize made : h.allocWithTable .object none (h.scopes.get c.table).path
    (fun table => .instanceOf { classId, table }) = new at places placed order' ⊢
  have first : new.1 = ⟨h.types.size⟩ := made ▸ rfl
  have value : new.2.types.get new.1 = .instanceOf ⟨classId, ⟨h.scopes.size⟩⟩ := by
    rw [first, places.types, get_alloc_new]
  have there : new.2.types.Has new.1 := has_of_get (by simp [value])
  have noted := stage_noteInstance order' classId there
  refine ((Relation.ReflTransGen.single placed).tail noted).tail (.inherit new.1 classId ?_)
  rw [(noted.kept.stays there).of?, value]
  rfl

/-- The values of the bases are made one after the other, and the new value inherits from each. -/
theorem stages_instances
    (one : ∀ h base, h.InOrder bases → Stages bases h (instanceWithin n h base).2)
    (supers : List TypeId) (order : h.InOrder bases) (has : h.types.Has id)
    (free : bases.of? (h.types.get id) = none) :
    Stages bases h (supers.foldl (fun h base =>
      (instanceWithin n h base).2.inheritTable id (instanceWithin n h base).1) h) := by
  induction supers generalizing h with
  | nil => exact .refl
  | cons base supers ih =>
    have made := one h base order
    have free' := (made.kept.stays has).of?.trans free
    have linked : Stages bases h _ := made.tail (.inherit id (instanceWithin n h base).1 free')
    have free'' := (linked.kept.stays has).of?.trans free
    exact linked.trans (ih (linked.inOrder order) (linked.kept.has has) free'')

theorem stages_instanceWithin (n : Nat) (order : h.InOrder bases) (classId : TypeId) :
    Stages bases h (instanceWithin n h classId).2 := by
  induction n generalizing h classId with
  | zero => exact .refl
  | succ n ih =>
    unfold instanceWithin
    split
    · exact .refl
    · next c found =>
      split
      · exact .refl
      · have found := class?_eq_some.mp found
        have made := stages_makeInstance order found
        have value : (h.makeInstance classId c).2.types.get (h.makeInstance classId c).1 = _ :=
          types_makeInstance_new found
        dsimp only
        refine made.trans (stages_instances (fun h base order => ih order base) _
          (made.inOrder order) ?_ ?_)
        · exact has_of_get (by rw [value]; simp)
        · rw [value]
          rfl

theorem stages_instanceOf (order : h.InOrder bases) (classId : TypeId) :
    Stages bases h (h.instanceOf classId).2 :=
  stages_instanceWithin _ order classId

theorem stages_withBase {b : ClassType} (order : h.InOrder bases)
    (found : h.types.get classId = .classType c) (foundBase : h.types.get base = .classType b) :
    Stages bases h (h.withBase classId base c b) := by
  have hasBase : h.types.Has base := has_of_get (by simp [foundBase])
  have noted := stage_noteSuperclass order classId hasBase
  have self := types_withBase_self found base b
  obtain ⟨b', other, same, _⟩ := class_withBase_of found foundBase base b
  have link := inheritTable_eq (h := ⟨(h.withBase classId base c b).types, h.scopes⟩)
    (congrArg Ty.table? self) (congrArg Ty.table? other)
  have free : bases.of? ((h.withBase classId base c b).types.get classId) = none := by
    rw [self]
    rfl
  have linked : Stage bases ⟨(h.withBase classId base c b).types, h.scopes⟩ _ :=
    .inherit classId base free
  rw [link, same] at linked
  exact (Relation.ReflTransGen.single noted).tail linked

theorem stages_addBase (order : h.InOrder bases) (graph : h.ClassGraph) :
    Stages bases h (h.addBase classId base) := by
  unfold addBase
  split
  · next c b isClass isBase =>
    have found := class?_eq_some.mp isClass
    have linked := stages_withBase order found (class?_eq_some.mp isBase)
    split
    · exact .refl
    · cases made : c.instance? with
      | none => exact linked
      | some i =>
        obtain ⟨table, value⟩ := graph.noted found made
        have has : h.types.Has i := has_of_get (by simp [value])
        have stages : Stages bases h _ := linked.trans (stages_instanceOf (linked.inOrder order) base)
        refine stages.tail (.inherit i _ ?_)
        rw [(stages.kept.stays has).of?, value]
        rfl
  · exact .refl

/-! ### Functions -/

theorem stages_bindMethod (hr : h.types.Has receiver) :
    Stages bases h (h.bindMethod fn receiver).2 := by
  unfold bindMethod
  dsimp only
  split
  · exact .refl
  · next f found => exact .single (.bind found hr)

theorem stages_canonicalArguments (order : h.InOrder bases) (stand : bases.Stand h) :
    Stages bases h (h.canonicalArguments bases fn arguments).2 := by
  unfold canonicalArguments
  dsimp only
  split
  · next classId d owner found =>
    split
    · next first others elements =>
      have made := stages_instanceOf order classId
      split
      · exact made
      · refine made.tail (stage_newTuple (made.stand stand) fun e member => ?_)
        rcases List.mem_cons.mp member with rfl | member
        · exact (gives_instanceOf classId order.wellFormed).has
        · apply made.kept.has
          exact order.wellFormed.mention found (by simp [Ty.mentions, elements, member])
    · exact .refl
  · exact .refl

theorem size_insertArrow {types : TypeStore} {fn : TypeId} {arrow : Arrow} {limits : Limits} :
    (types.insertArrow fn arrow limits).2.size = types.size := by
  have noted : ∀ id arrows, (types.setArrows id arrows).size = types.size := by
    intro id arrows
    unfold setArrows modifyFunction
    split <;> simp
  unfold insertArrow
  dsimp only
  split
  · rfl
  · split
    · rfl
    · split
      · exact noted _ _
      · split
        · rfl
        · exact noted _ _

theorem stages_recordArrow (order : h.InOrder bases) (stand : bases.Stand h) {fn : TypeId}
    {limits : Limits} (ha : h.types.Has arguments) (hr : h.types.Has result) :
    Stages bases h (h.recordArrow bases fn arguments result limits).2 := by
  have made : Stages bases h (h.canonicalArguments bases fn arguments).2 :=
    stages_canonicalArguments order stand
  have given := gives_canonicalArguments bases fn order.wellFormed ha
  have wf := (made.inOrder order).wellFormed
  refine made.tail (.note (wf.insertArrow fn given.has (made.kept.has hr) limits).changes
    size_insertArrow (agrees_insertArrow (fun _ _ => rfl)))

/-! ### Sequences of operations -/

/-- What can be done to a heap. -/
inductive Operation
  | newList (element : TypeId) (positional : List TypeId) (strings : List String)
  | newDict (key value : TypeId)
  | newTuple (elements : List TypeId)
  | newModule (name : ModuleName) (file : String) (parent : ScopeId)
  | newClass (name path : String) (parent : ScopeId)
  | newFunction (name path : String) (env : ScopeId) (classId : Option TypeId) (method : MethodKind)
  | bindMethod (fn receiver : TypeId)
  | instanceOf (classId : TypeId)
  | addBase (classId base : TypeId)
  | recordArrow (fn arguments result : TypeId) (limits : Limits)
  | union (a b : TypeId)
  | remove (a b : TypeId)
  | setElement (list element : TypeId)
  | setEntry (dict key value : TypeId)
  | setItem (tuple : TypeId) (i : Nat) (element : TypeId)
  | widenList (list value : TypeId)
  | widenEntry (dict index value : TypeId)

namespace Operation

/-- The types that an operation is applied to. -/
def operands : Operation → List TypeId
  | newList element positional _ => element :: positional
  | newDict key value => [key, value]
  | newTuple elements => elements
  | newModule .. | newClass .. => []
  | newFunction _ _ _ classId _ => classId.toList
  | bindMethod fn receiver => [fn, receiver]
  | instanceOf classId => [classId]
  | addBase classId base => [classId, base]
  | recordArrow fn arguments result _ => [fn, arguments, result]
  | union a b | remove a b => [a, b]
  | setElement list element => [list, element]
  | setEntry dict key value => [dict, key, value]
  | setItem tuple _ element => [tuple, element]
  | widenList list value => [list, value]
  | widenEntry dict index value => [dict, index, value]

/-- The scopes in which something new is placed. -/
def around : Operation → List ScopeId
  | newModule _ _ parent | newClass _ _ parent => [parent]
  | newFunction _ _ env _ _ => [env]
  | _ => []

def InRange (op : Operation) (h : Heap) : Prop :=
  (∀ id ∈ op.operands, h.types.Has id) ∧ ∀ id ∈ op.around, h.scopes.Has id

instance (op : Operation) (h : Heap) : Decidable (op.InRange h) :=
  inferInstanceAs (Decidable (_ ∧ _))

/-- The result of an operation that always gives a type. -/
def given (result : TypeId × Heap) : Option TypeId × Heap := (some result.1, result.2)

/-- What an operation gives and the heap that it leaves. -/
def perform (bases : Bases) (h : Heap) : Operation → Option TypeId × Heap
  | newList element positional strings => given (h.newList bases element positional strings)
  | newDict key value => given (h.newDict bases key value)
  | newTuple elements => given (h.newTuple bases elements)
  | newModule name file parent => given (h.newModule bases name file parent)
  | newClass name path parent => given (h.newClass name path parent)
  | newFunction name path env classId method =>
    given (h.newFunctionWith bases name path env fun f => { f with classId, method })
  | bindMethod fn receiver => given (h.bindMethod fn receiver)
  | instanceOf classId => given (h.instanceOf classId)
  | addBase classId base => (none, h.addBase classId base)
  | recordArrow fn arguments result limits =>
    (none, (h.recordArrow bases fn arguments result limits).2)
  | union a b => given ((h.types.union a b).1, { h with types := (h.types.union a b).2 })
  | remove a b => ((h.types.remove a b).1, { h with types := (h.types.remove a b).2 })
  | setElement list element => (none, { h with types := h.types.setElement list element })
  | setEntry dict key value => (none, { h with types := h.types.setEntry dict key value })
  | setItem tuple i element => (none, { h with types := h.types.setItem tuple i element })
  | widenList list value => (none, { h with types := h.types.widenList list value })
  | widenEntry dict index value => (none, { h with types := h.types.widenEntry dict index value })

/-- Performs operations one after the other, as long as all that they are applied to is there. -/
def performAll (bases : Bases) : List Operation → Heap → Option Heap
  | [], h => some h
  | op :: ops, h => if op.InRange h then performAll bases ops (op.perform bases h).2 else none

end Operation

/-- A heap in order in which operations can be performed. -/
structure Arranged (bases : Bases) (h : Heap) : Prop where
  order : h.InOrder bases
  stand : bases.Stand h
  mirrors : h.Mirrors

namespace Operation

variable {op : Operation} {ops : List Operation}

theorem stages (inRange : op.InRange h) (arranged : h.Arranged bases) :
    Stages bases h (op.perform bases h).2 := by
  obtain ⟨order, stand, mirrors⟩ := arranged
  obtain ⟨types, scopes⟩ := inRange
  cases op with
  | newList element positional strings =>
    obtain ⟨he, hp⟩ := List.forall_mem_cons.mp types
    exact .single (stage_newList stand he hp)
  | newDict key value =>
    exact .single (stage_newDict stand (types key (by simp [operands]))
      (types value (by simp [operands])))
  | newTuple elements => exact .single (stage_newTuple stand types)
  | newModule name file parent =>
    exact .single (stage_newModule stand (scopes parent List.mem_cons_self))
  | newClass name path parent =>
    exact .single (stage_newClass (scopes parent List.mem_cons_self))
  | newFunction name path env classId method =>
    refine .single (stage_newFunction stand (scopes env List.mem_cons_self) ?_)
    exact fun c noted => types c (Option.mem_toList.mpr noted)
  | bindMethod fn receiver => exact stages_bindMethod (types receiver (by simp [operands]))
  | instanceOf classId => exact stages_instanceOf order classId
  | addBase classId base => exact stages_addBase order mirrors.toClassGraph
  | recordArrow fn arguments result limits =>
    exact stages_recordArrow order stand (types arguments (by simp [operands]))
      (types result (by simp [operands]))
  | union a b =>
    exact stages_union order (types a (by simp [operands])) (types b (by simp [operands]))
  | remove a b => exact stages_remove order (types a (by simp [operands]))
  | setElement list element => exact stages_setElement (types element (by simp [operands]))
  | setEntry dict key value =>
    exact stages_setEntry (types key (by simp [operands])) (types value (by simp [operands]))
  | setItem tuple i element => exact stages_setItem (types element (by simp [operands]))
  | widenList list value => exact stages_widenList order (types value (by simp [operands]))
  | widenEntry dict index value =>
    exact stages_widenEntry order (types index (by simp [operands]))
      (types value (by simp [operands]))

theorem mirrors (op : Operation) (mirrors : h.Mirrors) : (op.perform bases h).2.Mirrors := by
  cases op with
  | newList => exact (apart_newList overlooks_role ..).mirrors mirrors
  | newDict => exact (apart_newDict overlooks_role ..).mirrors mirrors
  | newTuple => exact (apart_newTuple overlooks_role ..).mirrors mirrors
  | newModule => exact (apart_newModule rfl (fun _ => rfl) ..).mirrors mirrors
  | newClass => exact mirrors.newClass ..
  | newFunction name path env classId method =>
    exact (apart_new rfl
      (fun table => .function { name, table, env, classId, method }) (fun _ => rfl) (fun _ => rfl)).mirrors mirrors
  | bindMethod => exact (apart_bindMethod ..).mirrors mirrors
  | instanceOf classId => exact mirrors.instanceOf classId
  | addBase classId base => exact mirrors.addBase
  | recordArrow fn arguments result limits =>
    exact mirrors.recordArrow
  | union => exact (apart_types (agrees_union overlooks_role _ _ _)).mirrors mirrors
  | remove => exact (apart_types (agrees_remove overlooks_role)).mirrors mirrors
  | setElement => exact (apart_types (agrees_setElement overlooks_role)).mirrors mirrors
  | setEntry => exact (apart_types (agrees_setEntry overlooks_role)).mirrors mirrors
  | setItem => exact (apart_types (agrees_setItem overlooks_role)).mirrors mirrors
  | widenList => exact (apart_types (agrees_widenList overlooks_role)).mirrors mirrors
  | widenEntry => exact (apart_types (agrees_widenEntry overlooks_role)).mirrors mirrors

theorem arranged (inRange : op.InRange h) (arranged : h.Arranged bases) :
    (op.perform bases h).2.Arranged bases := by
  have stages := op.stages inRange arranged
  exact ⟨stages.inOrder arranged.order, stages.stand arranged.stand,
    op.mirrors arranged.mirrors⟩

theorem performAll_stages (arranged : h.Arranged bases)
    (performed : performAll bases ops h = some h') : Stages bases h h' ∧ h'.Arranged bases := by
  induction ops generalizing h with
  | nil =>
    cases performed
    exact ⟨.refl, arranged⟩
  | cons op ops ih =>
    unfold performAll at performed
    split at performed
    · next inRange =>
      obtain ⟨later, arranged'⟩ := ih (op.arranged inRange arranged) performed
      exact ⟨(op.stages inRange arranged).trans later, arranged'⟩
    · cases performed

theorem has_result (inRange : op.InRange h) (order : h.InOrder bases)
    (gives : (op.perform bases h).1 = some result) : (op.perform bases h).2.types.Has result := by
  have wf := order.wellFormed
  obtain ⟨types, _⟩ := inRange
  cases op with
  | newList element positional strings =>
    cases gives
    obtain ⟨he, hp⟩ := List.forall_mem_cons.mp types
    exact (gives_newList (P := Has) bases strings he hp).has
  | newDict key value =>
    cases gives
    exact (gives_newDict (P := Has) bases (types key (by simp [operands]))
      (types value (by simp [operands]))).has
  | newTuple elements =>
    cases gives
    exact (gives_newTuple (P := Has) bases types).has
  | newModule name file parent =>
    cases gives
    exact (gives_newModule (P := Has) h bases name file parent).has
  | newClass name path parent =>
    cases gives
    exact (gives_newClass (P := Has) h name path parent).has
  | newFunction name path env classId method =>
    cases gives
    refine (gives_newFunctionWith (P := Has) bases name path env (fun _ => rfl) fun _ => ?_).has
    refine FunctionType.forall_mentions.mpr ⟨by simp, fun c noted => ?_, by simp, by simp, by simp⟩
    exact types c (Option.mem_toList.mpr noted)
  | bindMethod fn receiver =>
    cases gives
    exact (gives_bindMethod wf (types fn (by simp [operands]))
      (types receiver (by simp [operands]))).has
  | instanceOf classId =>
    cases gives
    exact (gives_instanceOf classId wf).has
  | union a b =>
    cases gives
    exact (wf.union (types a (by simp [operands])) (types b (by simp [operands]))).refers
  | remove a b =>
    have ha : h.types.Has a := types a (by simp [operands])
    have removes := h.types.remove_removes a b
    simp only [perform] at gives ⊢
    generalize h.types.remove a b = outcome at removes gives ⊢
    cases removes with
    | nothing => cases gives
    | single one =>
      cases gives
      have member : result ∈ h.types.without a b := by simp [one]
      exact (wf.flat ha result (mem_without.mp member).1).1
    | whole =>
      cases gives
      exact ha
    | fresh =>
      cases gives
      simp [Has, alloc, TypeStore.size]
  | _ => cases gives

end Operation

/-! ### The first heap -/

/-- The built-in classes that values are made with, and a heap with nothing else in it. -/
def foundation : Bases × Heap :=
  let (scope, scopes) := ({} : ScopeStore).alloc .global none ""
  let (list, h) := newClass ⟨.initial, scopes⟩ "list" "list" scope
  let (dict, h) := h.newClass "dict" "dict" scope
  let (tuple, h) := h.newClass "tuple" "tuple" scope
  let (module, h) := h.newClass "module" "module" scope
  let (function, h) := h.newClass "function" "function" scope
  ({ list, dict, tuple, module, function }, h)

theorem initial_inOrder {scopes : ScopeStore}
    (blank : ∀ table, (scopes.get table).owner = none ∧ (scopes.get table).references = []) :
    InOrder bases ⟨.initial, scopes⟩ := by
  have simple : ∀ t ∈ TypeStore.initial.types.toList, t.scopes = [] ∧
      (∀ types, t ≠ .union types) ∧ bases.of? t = none := by
    simp [TypeStore.initial, Ty.scopes, Ty.table?, Ty.env?, Bases.of?]
  constructor
  case simple => exact fun _ _ => rfl
  case types =>
    intro id
    obtain ⟨none, plain, free⟩ := forall_initial simple id
    apply settled_of_wellFormed initial_sound
    case scopes => simp [none]
    case several => exact fun types found => absurd found (plain types)
    case owned => simp [initial_tableOf]
    case inherits => simp [free]
  case owners =>
    intro table o owned
    rw [(blank table).1] at owned
    cases owned
  case links =>
    intro table other member
    rw [(blank table).2] at member
    cases member

theorem foundation_arranged : foundation.2.Arranged foundation.1 := by
  let start : Heap := ⟨.initial, (({} : ScopeStore).alloc .global none "").2⟩
  have blank : ∀ table, (start.scopes.get table).owner = none ∧
      (start.scopes.get table).references = [] := by
    intro table
    by_cases first : table = ⟨0⟩
    · subst first
      exact ⟨rfl, rfl⟩
    · have empty : start.scopes.get table = ({} : ScopeStore).get table :=
        ScopeStore.get_alloc_of_ne first
      rw [empty]
      exact ⟨rfl, rfl⟩
  have order : start.InOrder foundation.1 := initial_inOrder blank
  have stages : Stages foundation.1 start foundation.2 := by
    refine ((((Relation.ReflTransGen.refl.tail (stage_newClass ?_)).tail
      (stage_newClass ?_)).tail (stage_newClass ?_)).tail
      (stage_newClass ?_)).tail (stage_newClass ?_)
    all_goals decide
  constructor
  case order => exact stages.inOrder order
  case stand =>
    intro t base built
    cases t <;> cases built <;> rfl
  case mirrors =>
    exact (((mirrors_initial.newClass _ _ _).newClass _ _ _).newClass _ _ _ |>.newClass _ _ _
      |>.newClass _ _ _)

/-- Whatever operations are performed from the built-in classes on, the heap stays in order. No type
is lost or changes its kind on the way, and what an operation gives is there. -/
theorem operations_keep_order {ops more : List Operation} {h h' : Heap}
    (performed : Operation.performAll foundation.1 ops foundation.2 = some h)
    (later : Operation.performAll foundation.1 more h = some h') :
    h'.InOrder foundation.1 ∧
      (∀ id, h.types.Has id →
        h'.types.Has id ∧ (h'.types.get id).kindName = (h.types.get id).kindName) ∧
      ∀ op : Operation, op.InRange h' → ∀ result, (op.perform foundation.1 h').1 = some result →
        (op.perform foundation.1 h').2.types.Has result := by
  obtain ⟨_, arranged⟩ := Operation.performAll_stages foundation_arranged performed
  obtain ⟨stages, arranged'⟩ := Operation.performAll_stages arranged later
  refine ⟨arranged'.order, fun id has => ?_, fun op inRange result gives => ?_⟩
  · exact ⟨stages.kept.has has, (stages.kept.stays has).kindName⟩
  · exact op.has_result inRange arranged'.order gives

/-- Two classes, a method of the first that is bound to a value of the second, its signature, and a
list of which a union is known. -/
def errands : List Operation :=
  [.newClass "A" "m.A" ⟨0⟩, .newClass "B" "m.B" ⟨0⟩, .addBase ⟨16⟩ ⟨15⟩, .instanceOf ⟨16⟩,
    .newFunction "f" "m.A.f" ⟨6⟩ (some ⟨15⟩) .instanceMethod, .bindMethod ⟨19⟩ ⟨17⟩,
    .newTuple [⟨17⟩, .int], .recordArrow ⟨20⟩ ⟨21⟩ .str {}, .union .int .str,
    .newList ⟨23⟩ [.int, .str] ["a"]]

/-- The list comes to hold itself. -/
def selfReference : List Operation := [.widenList ⟨24⟩ ⟨24⟩, .remove ⟨25⟩ .int]

theorem errands_in_order : ∃ h h',
    Operation.performAll foundation.1 errands foundation.2 = some h ∧
    Operation.performAll foundation.1 selfReference h = some h' ∧ h'.InOrder foundation.1 := by
  have runs : ((Operation.performAll foundation.1 errands foundation.2).bind
      (Operation.performAll foundation.1 selfReference)).isSome = true := by decide +kernel
  obtain ⟨h', performed⟩ := Option.isSome_iff_exists.mp runs
  obtain ⟨h, performed, later⟩ := Option.bind_eq_some_iff.mp performed
  exact ⟨h, h', performed, later, (operations_keep_order performed later).1⟩

end Heap
end FlowTypes
