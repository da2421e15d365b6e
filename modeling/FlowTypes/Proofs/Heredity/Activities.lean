import FlowTypes.Proofs.Heredity.Sites
import FlowTypes.Proofs.Heredity.Spared

/-! Properties of activities that are passed on from the parts to the whole. What a walk does is put
together from a few kinds of steps; a property that the steps have, and that sequences have when their
parts have it, is a property of everything that is put together from them. -/
namespace FlowTypes

open Analysis

/-- A property that activities of a walk may have when they come to the places of a list. -/
structure Trait where
  holds : {α : Type} → List Site → (Walker → Analysis α) → Prop

/-- A trait of the steps that make no difference to functions and files, and of all sequences of
activities that have it. -/
structure Trait.Composed (T : Trait) : Prop where
  pure : ∀ {α : Type} {a : α}, T.holds [] fun _ => Pure.pure a
  throw : ∀ {α : Type} {A : List Site} {stop : Stop}, T.holds (α := α) A fun _ => throw stop
  seq : ∀ {α β : Type} {A B : List Site} {F : Walker → Analysis α} {G : Walker → α → Analysis β},
    T.holds A F → (∀ a, T.holds B fun v => G v a) → T.holds (A ++ B) fun v => F v >>= G v
  /-- The order of the places does not matter, nor how often they are come to. -/
  same : ∀ {α : Type} {A B : List Site} {F : Walker → Analysis α}, (∀ q, q ∈ A ↔ q ∈ B) →
    T.holds A F → T.holds B F
  site : ∀ {α : Type} {q : Site} {F : Walker → Analysis α}, q.Plain → T.holds q.parts F →
    T.holds [q] F
  /-- Something is read off the state that is not among the records. -/
  look : ∀ {α : Type} {A : List Site} {G : Walker → State → Analysis α},
    (∀ v s r, G v (s.refile r) = G v s) → (∀ s, T.holds A fun v => G v s) →
    T.holds A fun v => get >>= G v
  heap : ∀ {α : Type} {f : Heap → α × Heap}, (∀ own (h : Heap), h.Spares own (f h).2) →
    T.holds [] fun _ => onHeap f
  note : ∀ {α : Type} {f : State → α × State}, Note f → T.holds [] fun _ => modifyGet f
  debug : T.holds [] fun _ => Analysis.debug text
  bindTo : T.holds [] fun _ => Analysis.bindTo object value

theorem Analysis.reaches_refile :
    reaches (s.refile r) ancestor seen pending = reaches s ancestor seen pending := by
  fun_induction reaches s ancestor seen pending with
  | case1 => rw [reaches]
  | case2 => simp [reaches]
  | case3 seen current pending other known ih => rw [reaches, if_neg other, dif_pos known, ih]
  | case4 seen current pending other new ih =>
    rw [reaches, if_neg other, dif_neg new]
    exact ih

theorem Analysis.isSubclass_refile :
    isSubclass (s.refile r) classId ancestor = isSubclass s classId ancestor :=
  reaches_refile

/-- None of the members of a list leads anywhere. -/
theorem Trait.idle {T : Trait} {F : Walker → Analysis α} {xs : List β}
    (holds : T.holds (xs.flatMap fun _ => []) F) : T.holds [] F := by
  rwa [List.flatMap_eq_nil_iff.mpr fun _ _ => rfl] at holds

namespace Trait.Composed

variable {T : Trait} (c : T.Composed) {α β : Type} {id : TypeId}

include c

theorem bind {F : Walker → Analysis α} {G : Walker → α → Analysis β} (first : T.holds [] F)
    (next : ∀ a, T.holds A fun v => G v a) : T.holds A fun v => F v >>= G v :=
  c.seq first next

theorem cons {F : Walker → Analysis α} {G : Walker → α → Analysis β} (first : T.holds [q] F)
    (next : ∀ a, T.holds A fun v => G v a) : T.holds (q :: A) fun v => F v >>= G v :=
  c.seq first next

theorem before {F : Walker → Analysis α} {G : Walker → α → Analysis β} (first : T.holds A F)
    (next : ∀ a, T.holds [] fun v => G v a) : T.holds A fun v => F v >>= G v := by
  have both := c.seq first next
  rwa [List.append_nil] at both

theorem gets {f : State → α} (same : ∀ s r, f (s.refile r) = f s) :
    T.holds [] fun _ => Analysis.gets f :=
  c.look (fun _ s r => congrArg (fun a : α => (Pure.pure a : Analysis α)) (same s r)) fun _ => c.pure

theorem types {f : TypeStore → α × TypeStore}
    (agrees : ∀ t, TypeStore.Agrees Ty.settled? t (f t).2) : T.holds [] fun _ => onTypes f :=
  c.heap fun _ h => .of_types (agrees h.types)

theorem modifyTypes (agrees : ∀ t, TypeStore.Agrees Ty.settled? t (f t)) :
    T.holds [] fun _ => Analysis.modifyTypes f :=
  c.types agrees

theorem scopes (grows : ∀ s : ScopeStore, s.Grows (f s)) : T.holds [] fun _ => modifyScopes f :=
  c.heap fun _ h => .of_scopes (grows h.scopes)

theorem discard (holds : T.holds A F) : T.holds A fun v => discard (F v) :=
  c.before holds fun _ => c.pure

theorem foldlM {xs : List α} {f : Walker → β → α → Analysis β} {g : α → List Site}
    (each : ∀ x ∈ xs, ∀ b, T.holds (g x) fun v => f v b x) :
    T.holds (xs.flatMap g) fun v => xs.foldlM (f v) b := by
  induction xs generalizing b with
  | nil => exact c.pure
  | cons x xs ih =>
    simp only [List.foldlM_cons, List.flatMap_cons]
    exact c.seq (each x List.mem_cons_self b) fun _ =>
      ih fun y member => each y (List.mem_cons_of_mem x member)

theorem forM {xs : List α} {f : Walker → α → Analysis Unit} {g : α → List Site}
    (each : ∀ x ∈ xs, T.holds (g x) fun v => f v x) :
    T.holds (xs.flatMap g) fun v => xs.forM (f v) := by
  induction xs with
  | nil => exact c.pure
  | cons x xs ih =>
    rw [List.flatMap_cons]
    exact c.seq (each x List.mem_cons_self) fun _ =>
      ih fun y member => each y (List.mem_cons_of_mem x member)

theorem mapM {xs : List α} {f : Walker → α → Analysis β} {g : α → List Site}
    (each : ∀ x ∈ xs, T.holds (g x) fun v => f v x) :
    T.holds (xs.flatMap g) fun v => xs.mapM (f v) := by
  induction xs with
  | nil =>
    simp only [List.mapM_nil]
    exact c.pure
  | cons x xs ih =>
    simp only [List.mapM_cons, List.flatMap_cons]
    refine c.seq (each x List.mem_cons_self) fun b => ?_
    exact c.before (ih fun y member => each y (List.mem_cons_of_mem x member)) fun _ => c.pure

theorem filterM {xs : List α} {f : Walker → α → Analysis Bool}
    (each : ∀ x ∈ xs, T.holds [] fun v => f v x) : T.holds [] fun v => xs.filterM (f v) := by
  have aux : ∀ acc, T.holds [] fun v => xs.filterAuxM (f v) acc := by
    induction xs with
    | nil => exact fun acc => c.pure
    | cons x xs ih =>
      exact fun acc => c.bind (each x List.mem_cons_self) fun keep =>
        ih (fun y member => each y (List.mem_cons_of_mem x member)) _
  exact c.bind (aux []) fun _ => c.pure

/-! ### Values -/

theorem typeOf : T.holds [] fun _ => Analysis.typeOf id := c.gets fun _ _ => rfl

theorem tableOf : T.holds [] fun _ => Analysis.tableOf id := c.gets fun _ _ => rfl

theorem alternatives : T.holds [] fun _ => Analysis.alternatives id :=
  c.gets fun _ _ => rfl

theorem contains : T.holds [] fun _ => Analysis.contains id t :=
  c.gets fun _ _ => rfl

theorem display : T.holds [] fun _ => Analysis.display id := c.gets fun _ _ => rfl

theorem union : T.holds [] fun _ => Analysis.union a b :=
  c.types fun t => TypeStore.agrees_union TypeStore.overlooks_settled t a b

theorem unionOpt : T.holds [] fun _ => Analysis.unionOpt a b :=
  c.types fun _ => TypeStore.agrees_unionOpt TypeStore.overlooks_settled

theorem unionAll : T.holds [] fun _ => Analysis.unionAll ids :=
  c.types fun _ => TypeStore.agrees_unionAll TypeStore.overlooks_settled

theorem remove : T.holds [] fun _ => Analysis.remove id t :=
  c.types fun _ => TypeStore.agrees_remove TypeStore.overlooks_settled

theorem unionOver {f : Walker → β → Analysis TypeId} {g : β → List Site}
    (each : ∀ x ∈ xs, T.holds (g x) fun v => f v x) :
    T.holds (xs.flatMap g) fun v => Analysis.unionOver xs (f v) := by
  refine c.before (c.foldlM fun x member acc => ?_) fun _ => c.pure
  refine c.before (each x member) fun value => ?_
  exact c.bind c.unionOpt fun _ => c.pure

theorem newList : T.holds [] fun _ => Analysis.newList element positional strings :=
  c.look (fun _ _ _ => rfl) fun _ => c.heap fun _ h => h.edits_newList.spares

theorem newListOf : T.holds [] fun _ => Analysis.newListOf element :=
  c.newList

theorem newDict : T.holds [] fun _ => Analysis.newDict key value :=
  c.look (fun _ _ _ => rfl) fun _ => c.heap fun _ h => h.edits_newDict.spares

theorem newTuple : T.holds [] fun _ => Analysis.newTuple elements :=
  c.look (fun _ _ _ => rfl) fun _ => c.heap fun _ h => h.edits_newTuple.spares

theorem newModule : T.holds [] fun _ => Analysis.newModule name file :=
  c.look (fun _ _ _ => rfl) fun _ => c.heap fun _ h => h.edits_newModule.spares

theorem newClass : T.holds [] fun _ => Analysis.newClass name path parent :=
  c.heap fun _ h => h.edits_newClass.spares

theorem canonicalInstance : T.holds [] fun _ => Analysis.canonicalInstance classId :=
  c.heap fun _ h => h.edits_instanceOf.spares

theorem addBase : T.holds [] fun _ => Analysis.addBase classId base :=
  c.heap fun _ h => h.edits_addBase.spares

theorem widenList : T.holds [] fun _ => Analysis.widenList list value :=
  c.modifyTypes fun _ => TypeStore.agrees_widenList TypeStore.overlooks_settled

theorem widenEntry : T.holds [] fun _ => Analysis.modifyTypes (·.widenEntry dict index value) :=
  c.modifyTypes fun _ => TypeStore.agrees_widenEntry TypeStore.overlooks_settled

theorem recordType : T.holds [] fun _ => Analysis.recordType node type := by
  refine c.look (fun _ _ _ => rfl) fun s => c.bind c.unionOpt fun merged => ?_
  refine c.note ⟨fun _ _ => rfl, fun s => ⟨fun _ => .refl, rfl, fun other known => ?_⟩⟩
  rw [InsertionMap.get?_insert]
  split
  · rfl
  · exact known

theorem report : T.holds [] fun _ => Analysis.report category span message := by
  refine c.look (fun _ _ _ => rfl) fun s => ?_
  split
  · exact c.pure
  · refine c.bind c.debug fun _ => c.note ?_
    exact .aside (fun _ _ => rfl) (fun _ => rfl) (fun _ => rfl) fun _ => rfl

/-! ### Names -/

theorem addRefs : T.holds [] fun _ => Analysis.addRefs bindings node :=
  c.note (.aside (fun _ _ => rfl) (fun _ => rfl) (fun _ => rfl) fun _ => rfl)

theorem unionOfBindings : T.holds [] fun _ => Analysis.unionOfBindings bindings :=
  c.look (fun _ _ _ => rfl) fun _ => c.unionAll

theorem defineSynthetic :
    T.holds [] fun _ => Analysis.defineSynthetic table name type kind qualified :=
  c.note (.defines (fun _ _ => rfl) (fun _ => rfl) (fun _ => rfl) fun _ => rfl)

theorem defineImplicit : T.holds [] fun _ => Analysis.defineImplicit table name type kind :=
  c.look (fun _ _ _ => rfl) fun _ => c.defineSynthetic

theorem variableKind : T.holds [] fun _ => Analysis.variableKind scope := by
  refine c.look (fun _ _ _ => rfl) fun s => ?_
  split <;> exact c.pure

theorem takeForward : T.holds [] fun _ => Analysis.takeForward scope name := by
  refine c.note ⟨fun s r => ?_, fun s => ?_⟩
  · rw [show (s.refile r).forward = s.forward from rfl]
    cases s.forward.get? (scope, name) <;> rfl
  · split
    · exact .of_heap (fun _ => .refl) rfl rfl
    · exact .refl

theorem extendBinding : T.holds [] fun _ => Analysis.extendBinding node type b := by
  refine c.look (fun _ _ _ => rfl) fun s => c.bind c.union fun merged => c.note ?_
  exact .aside (fun _ _ => rfl) (fun _ => rfl) (fun _ => rfl) fun _ => rfl

theorem defineIn : T.holds [] fun _ => Analysis.defineIn table name node type kind := by
  refine c.look (fun _ _ _ => rfl) fun s => ?_
  split
  · next existing _ =>
    exact c.bind (idle (c.forM fun id _ => c.extendBinding)) fun _ =>
      c.pure
  · exact c.note (.defines (fun _ _ => rfl) (fun _ => rfl) (fun _ => rfl) fun _ => rfl)

theorem bindName : T.holds [] fun _ => Analysis.bindName scope name node type kind := by
  refine c.look (fun _ _ _ => rfl) fun s => c.bind c.takeForward fun early => ?_
  refine c.bind c.defineIn fun bindings => ?_
  exact c.bind (idle (c.forM fun node _ => c.addRefs)) fun _ => c.pure

theorem declareForward : T.holds [] fun _ => Analysis.declareForward module name type :=
  c.note (.aside (fun _ _ => rfl) (fun _ => rfl) (fun _ => rfl) fun _ => rfl)

theorem readForward : T.holds [] fun _ => Analysis.readForward scope name node := by
  refine c.note ⟨fun s r => ?_, fun s => ?_⟩
  · rw [show (s.refile r).forward = s.forward from rfl, show (s.refile r).scopes = s.scopes from rfl]
    cases (s.scopes.moduleOf scope).bind fun m => (s.forward.get? (m, name)).map (m, ·) <;> rfl
  · split
    · exact .refl
    · exact .of_heap (fun _ => .refl) rfl rfl

theorem readName : T.holds [] fun _ => Analysis.readName scope name node := by
  refine c.look (fun _ _ _ => rfl) fun s => ?_
  split
  · next bindings _ => exact c.bind c.addRefs fun _ => c.unionOfBindings
  · refine c.bind c.readForward fun type => ?_
    split
    · exact c.pure
    · exact c.bind c.report fun _ => c.pure

theorem referDeclared : T.holds [] fun _ => Analysis.referDeclared scope name node := by
  refine c.look (fun _ _ _ => rfl) fun s => ?_
  split
  · exact c.addRefs
  · exact c.pure

theorem fileOf : T.holds [] fun _ => Analysis.fileOf scope := by
  refine c.look (fun _ _ _ => rfl) fun s => ?_
  split
  · split <;> exact c.pure
  · exact c.pure

/-! ### Attributes -/

theorem attribute? : T.holds [] fun _ => Analysis.attribute? object name := by
  refine c.look (fun _ _ _ => rfl) fun s => ?_
  split
  · exact c.pure
  · refine c.bind c.unionOfBindings fun raw => c.bind c.alternatives fun ids => ?_
    refine c.bind (idle (c.mapM fun id _ => c.bindTo)) fun values => ?_
    exact c.bind c.unionAll fun _ => c.pure

theorem attributeTarget : T.holds [] fun _ => Analysis.attributeTarget object := by
  refine c.look (fun _ s r => ?_) fun s => ?_
  · simp only [isSubclass_refile]
    rfl
  split
  · split
    · exact c.canonicalInstance
    · exact c.pure
  · exact c.pure

theorem setAttribute : T.holds [] fun _ => Analysis.setAttribute object name node value := by
  refine c.bind c.alternatives fun ids => idle (c.forM fun id _ => ?_)
  refine c.bind c.attributeTarget fun target => c.bind c.tableOf fun table => ?_
  split
  · exact c.discard c.bindName
  · exact c.pure

theorem memberOf : T.holds [] fun _ => Walker.memberOf object name node := by
  refine c.bind c.alternatives fun ids => idle (c.foldlM fun id _ acc => ?_)
  refine c.look (fun _ _ _ => rfl) fun s => ?_
  split
  · exact c.bind c.unionOpt fun _ => c.pure
  · refine c.bind c.attribute? fun found => ?_
    split
    · refine c.bind c.addRefs fun _ => ?_
      exact c.bind c.unionOpt fun _ => c.pure
    · exact c.pure

/-! ### Values of classes -/

theorem instanceWithin : T.holds [] fun _ => Analysis.instanceWithin n id := by
  induction n generalizing id with
  | zero => exact c.throw
  | succ n ih =>
    refine c.bind c.alternatives fun ids => idle (c.unionOver fun alternative _ => ?_)
    refine c.bind c.typeOf fun type => ?_
    split
    · refine c.look (fun _ _ _ => rfl) fun s => ?_
      split
      · exact c.pure
      · exact c.canonicalInstance
    · exact c.bind (idle (c.mapM fun _ _ => ih)) fun values => c.unionAll
    · exact c.pure

theorem instanceOf : T.holds [] fun _ => Analysis.instanceOf id :=
  c.instanceWithin

/-! ### Calls -/

theorem bindParameters {star : Option TypeId} :
    T.holds [] fun _ => Analysis.bindParameters star doubleStar parameters supply := by
  induction parameters generalizing supply with
  | nil => exact c.pure
  | cons entry parameters ih =>
    obtain ⟨p, fallback⟩ := entry
    unfold Analysis.bindParameters
    split
    · split
      · exact c.bind ih fun _ => c.pure
      · split <;> exact c.bind ih fun _ => c.pure
    · exact c.bind c.newTuple fun _ => c.bind ih fun _ => c.pure
    · refine c.bind c.unionAll fun value => c.bind c.newDict fun _ => ?_
      exact c.bind ih fun _ => c.pure

theorem parameterTypes :
    T.holds [] fun _ => Analysis.parameterTypes definition defaults positional args :=
  c.look (fun _ _ _ => rfl) fun _ => c.bindParameters

theorem returnOfFlow : T.holds [] fun _ => Analysis.returnOfFlow flow name span := by
  refine c.bind c.contains fun goes => ?_
  split
  · exact c.pure
  · refine c.bind c.remove fun rest => ?_
    split
    · exact c.pure
    · next value =>
      refine c.look (fun _ _ _ => rfl) fun s => ?_
      dsimp only
      split
      · exact c.bind c.report fun _ => c.union
      · exact c.union

theorem resultOfBody : T.holds [] fun _ => Analysis.resultOfBody returned yielded := by
  cases yielded with
  | none => exact c.pure
  | some type => exact c.newListOf

theorem noteOutcome : T.holds [] fun _ => Analysis.noteOutcome outcome fn arguments := by
  unfold Analysis.noteOutcome
  split
  · exact c.bind c.display fun _ => c.bind c.display fun _ => c.debug
  · exact c.debug
  · exact c.pure
  · exact c.pure

theorem newLocals : T.holds [] fun _ => Analysis.newLocals f :=
  c.heap fun _ _ => .of_scopes .alloc

theorem bindLocals : T.holds [] fun _ => Analysis.bindLocals scope parameters given :=
  idle (c.forM fun _ _ => c.discard c.bindName)

theorem noteCall : T.holds [] fun _ => Walker.noteCall callee count := by
  unfold Walker.noteCall
  split
  · exact c.debug
  · exact c.pure

theorem receiverFor : T.holds [] fun _ => Walker.receiverFor f := by
  unfold Walker.receiverFor
  split
  · exact c.bind c.canonicalInstance fun _ => c.pure
  · exact c.pure
  · exact c.pure

/-! ### Known functions -/

theorem elementsOf : T.holds [] fun _ => Walker.elementsOf argument := by
  unfold Walker.elementsOf
  split
  · refine c.bind c.typeOf fun type => ?_
    split <;> exact c.pure
  · exact c.pure

theorem entryOf : T.holds [] fun _ => Walker.entryOf argument := by
  unfold Walker.entryOf
  split
  · refine c.bind c.typeOf fun type => ?_
    split <;> exact c.pure
  · exact c.pure

theorem store : T.holds [] fun _ => Walker.store list value := by
  unfold Walker.store
  split
  · exact c.widenList
  · exact c.pure

theorem sliceOf : T.holds [] fun _ => Walker.sliceOf id := by
  refine c.bind c.typeOf fun type => ?_
  split <;> exact c.pure

/-! ### Definitions -/

theorem functionKind : T.holds [] fun _ => Analysis.functionKind scope name := by
  refine c.look (fun _ _ _ => rfl) fun s => ?_
  split <;> exact c.pure

theorem defineClassAttributes : T.holds [] fun _ => Analysis.defineClassAttributes classId := by
  refine c.bind c.tableOf fun table => ?_
  split
  · exact c.pure
  · refine c.bind c.newDict fun _ => c.bind c.defineImplicit fun _ => ?_
    refine c.bind c.defineImplicit fun _ => ?_
    exact c.bind c.defineImplicit fun _ => c.defineImplicit

theorem addDefaultBase : T.holds [] fun _ => Analysis.addDefaultBase classId bases := by
  unfold Analysis.addDefaultBase
  split
  · exact c.look (fun _ _ _ => rfl) fun _ => c.addBase
  · exact c.pure

theorem recordBases : T.holds [] fun _ => Analysis.recordBases table bases := by
  refine c.look (fun _ _ _ => rfl) fun s => ?_
  split
  · exact c.bind c.newTuple fun _ => c.defineImplicit
  · exact c.pure

theorem declareSlots : T.holds [] fun _ => Analysis.declareSlots classId body := by
  unfold Analysis.declareSlots
  dsimp only
  split
  · exact c.pure
  · refine c.bind c.canonicalInstance fun object => ?_
    refine c.bind c.tableOf fun table => ?_
    split
    · exact c.pure
    · refine idle (c.forM fun node _ => c.look (fun _ _ _ => rfl) fun s => ?_)
      split
      · exact c.discard c.bindName
      · exact c.pure

theorem comprehensionScope : T.holds [] fun _ => Analysis.comprehensionScope node scope := by
  refine c.note ⟨fun s r => ?_, fun s => ?_⟩
  · rw [show (s.refile r).blocks = s.blocks from rfl]
    cases s.blocks.get? (node, scope) <;> rfl
  · split
    · exact .refl
    · exact .of_heap (fun _ => .of_scopes .alloc) rfl rfl

/-! ### Files -/

theorem introduceModule : T.holds [] fun _ => Analysis.introduceModule p tree := by
  refine c.bind c.newModule fun value => c.bind (c.note ?_) fun _ => c.pure
  exact .aside (fun _ _ => rfl) (fun _ => rfl) (fun _ => rfl) fun _ => rfl

theorem linkSubmodule : T.holds [] fun _ => Analysis.linkSubmodule package name module := by
  refine c.look (fun _ _ _ => rfl) fun s => ?_
  split
  · exact c.pure
  · split
    · exact c.pure
    · exact c.defineSynthetic

theorem bindImport : T.holds [] fun _ => Analysis.bindImport scope a value name :=
  c.bind c.variableKind fun _ => c.discard c.bindName

theorem importStar : T.holds [] fun _ => Walker.importStar scope node table := by
  refine c.bind c.variableKind fun kind => c.look (fun _ _ _ => rfl) fun s => ?_
  refine idle (c.forM fun name _ => c.look (fun _ _ _ => rfl) fun s => ?_)
  split
  · exact c.pure
  · refine c.bind c.unionOfBindings fun value => ?_
    exact c.discard c.bindName

/-! ### Statements -/

theorem bindException : T.holds [] fun _ => Walker.bindException scope h exception := by
  unfold Walker.bindException
  split
  · refine c.bind c.variableKind fun kind => ?_
    exact c.discard c.bindName
  · exact c.pure

theorem declareNames (grows : ∀ (s : ScopeStore) name, s.Grows (declare s scope name)) :
    T.holds [] fun _ => Walker.declareNames scope node names declare :=
  idle (c.forM fun name _ => c.bind (c.scopes fun s => grows s name) fun _ =>
    c.referDeclared)

theorem addFlow {f : Walker.Flow} : T.holds [] fun _ => f.add flow := by
  unfold Walker.Flow.add
  split
  · exact c.pure
  · refine c.bind c.contains fun goes => ?_
    split
    · refine c.bind c.remove fun rest => ?_
      split
      · exact c.bind c.unionOpt fun _ => c.pure
      · exact c.pure
    · exact c.bind c.unionOpt fun _ => c.pure

theorem typeOfFlow {f : Walker.Flow} : T.holds [] fun _ => f.type := by
  unfold Walker.Flow.type
  split
  · exact c.pure
  · exact c.unionOpt

end Trait.Composed
end FlowTypes
