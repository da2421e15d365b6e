import FlowTypes.Proofs.Heredity.Walks

/-! Properties that do not depend on the places that a walk comes to. What such a property needs is that
every change has it which leaves the records about files alone, and that sequences have it. -/
namespace FlowTypes

open Analysis

/-- A property of the changes that leave the records alone, and of all sequences of activities that have
it. -/
structure Steady (P : (α : Type) → Analysis α → Prop) : Prop where
  pure : ∀ {α : Type} {a : α}, P α (pure a)
  throw : ∀ {α : Type} {stop : Stop}, P α (throw stop)
  bind : ∀ {α β : Type} {m : Analysis α} {f : α → Analysis β}, P α m → (∀ a, P β (f a)) →
    P β (m >>= f)
  look : ∀ {α : Type} {k : State → Analysis α}, (∀ s r, k (s.refile r) = k s) → (∀ s, P α (k s)) →
    P α (get >>= k)
  change : ∀ {α : Type} {f : State → α × State},
    (∀ s r, f (s.refile r) = ((f s).1, (f s).2.refile r)) → P α (modifyGet f)
  debug : P Unit (Analysis.debug text)

namespace Steady

variable {P : (α : Type) → Analysis α → Prop} (h : Steady P)

/-- The property as a trait of a walk. -/
abbrev trait (P : (α : Type) → Analysis α → Prop) (w : Walker) : Trait := ⟨fun _ G => P _ (G w)⟩

include h

theorem bindMethod : P _ (Analysis.bindMethod fn receiver) := by
  refine h.look (fun _ _ => rfl) fun s => ?_
  dsimp only
  split
  · exact h.pure
  · refine h.bind (h.change fun _ _ => rfl) fun bound => ?_
    exact h.bind (h.change fun _ _ => rfl) fun _ => h.pure

theorem bindTo : P _ (Analysis.bindTo object value) := by
  refine h.look (fun _ _ => rfl) fun s => ?_
  dsimp only
  split
  · exact h.pure
  · exact h.pure
  · exact h.bindMethod
  · exact h.bindMethod
  · exact h.bindMethod
  · exact h.pure

theorem composed (w : Walker) : (trait P w).Composed where
  pure := h.pure
  throw := h.throw
  seq := h.bind
  same := fun _ holds => holds
  site := fun _ holds => holds
  look := fun same next => h.look (same w) next
  heap := fun _ => h.change fun _ _ => rfl
  note := fun note => h.change note.refile
  debug := h.debug
  bindTo := h.bindTo

/-! ### Functions -/

theorem yieldValue : P _ (Analysis.yieldValue value) := by
  refine h.look (fun _ _ => rfl) fun s => ?_
  split
  · exact h.pure
  · exact h.bind (h.change fun _ _ => rfl) fun merged => h.change fun _ _ => rfl

theorem defineValue : P _ (Analysis.defineValue scope d complete) := by
  refine h.look (fun _ _ => rfl) fun s => ?_
  split
  · next fn _ => exact h.bind (h.change fun _ _ => rfl) fun _ => h.pure
  · refine h.look (fun _ _ => rfl) fun s => ?_
    refine h.bind (h.look (fun _ _ => rfl) fun s => h.change fun _ _ => rfl) fun fn => ?_
    exact h.bind (h.change fun _ _ => rfl) fun _ => h.pure

theorem defineClass (w : Walker) : P _ (Analysis.defineClass scope d) := by
  refine h.look (fun _ _ => rfl) fun s => ?_
  split
  · exact h.pure
  · refine h.look (fun _ _ => rfl) fun s => h.bind (h.change fun _ _ => rfl) fun classId => ?_
    refine h.bind (h.change fun _ _ => rfl) fun _ => ?_
    exact h.bind (h.composed w).defineClassAttributes fun _ => h.pure

theorem declareDefinitions (w : Walker) :
    (trait P w).holds [] fun _ => Analysis.declareDefinitions scope body := by
  have c := h.composed w
  refine Trait.idle (c.forM fun t _ => ?_)
  split
  · exact h.bind h.defineValue fun fn => c.declareForward
  · exact h.bind (h.defineClass w) fun classId => c.declareForward
  · exact h.pure

theorem declareModule (w : Walker) : P _ (Analysis.declareModule table tree) := by
  have c := h.composed w
  refine h.bind c.defineImplicit fun _ => h.bind c.defineImplicit fun _ => ?_
  exact h.declareDefinitions w

theorem inFrame (inside : P _ m) : P _ (Analysis.inFrame fn m) := by
  refine h.bind (h.change fun _ _ => rfl) fun _ => h.bind inside fun result => ?_
  exact h.bind (h.change fun _ _ => rfl) fun _ => h.pure

theorem recordArrow (w : Walker) :
    P _ (Analysis.recordArrow fn arguments result name limits) := by
  refine h.look (fun _ _ => rfl) fun s => h.bind (h.change fun _ _ => rfl) fun arguments => ?_
  refine h.bind (h.change fun _ _ => rfl) fun outcome => ?_
  refine h.bind (h.composed w).noteOutcome fun _ => ?_
  split
  · exact h.debug
  · exact h.pure

section

variable {w : Walker} {f : FunctionType} (below : ∀ scope, (trait P w).Below scope)

include below

theorem bodyWith : P _ (w.bodyWith f d types) := by
  refine h.bind (below f.env).newLocals fun scope => ?_
  have b := below scope
  refine h.bind b.bindLocals fun _ => ?_
  cases d with
  | function d => exact h.bind b.block fun flow => b.returnOfFlow
  | lambda node parameters body => exact b.expr

theorem applyAnew : P _ (w.applyAnew origin f d arguments types) := by
  refine h.bind (h.inFrame (h.bodyWith below)) fun result => ?_
  exact h.bind (below f.env).resultOfBody fun value => h.bind (h.recordArrow w) fun _ => h.pure

theorem applyDefined : P _ (w.applyDefined origin f d args) := by
  have b := below f.env
  refine h.bind (h.change fun _ _ => rfl) fun _ => ?_
  refine h.bind b.parameterTypes fun types => h.bind b.newTuple fun arguments => ?_
  refine h.bind (b.gets fun _ _ => rfl) fun applied => ?_
  split
  · exact h.bind h.debug fun _ => h.look (fun _ _ => rfl) fun _ => h.pure
  · refine h.look (fun _ _ => rfl) fun s => ?_
    split
    · exact h.pure
    · exact h.applyAnew below

theorem apply : P _ (w.apply fn args span) := by
  refine h.look (fun _ _ => rfl) fun s => ?_
  split
  · exact h.pure
  · next f _ =>
    split
    · exact (below f.env).native
    · exact h.applyDefined below
    · exact h.pure

theorem hereditary (scope : ScopeId) : (trait P w).Hereditary scope where
  toBelow := below scope
  yieldValue := h.yieldValue
  apply := h.apply below
  function := (below scope).function (h.change fun _ _ => rfl) h.defineValue
  lambda := (below scope).lambda (h.change fun _ _ => rfl) h.defineValue
  classDef := Trait.classDef below (fun _ => h.pure) (h.defineClass w)

end

theorem below
    (loads : ∀ n, (∀ scope, (trait P (walker files limits n)).Hereditary scope) →
      ∀ path, P _ ((walker files limits n).loadStep path)) (n : Nat) :
    ∀ scope, (trait P (walker files limits n)).Below scope := by
  refine Trait.below_walker (P := fun α _ _ m => P α m) (fun w _ => h.composed w) ?_
    (h.change fun _ _ => rfl) (fun _ => h.hereditary) (fun n level _ path => loads n level path) n
  exact (h.composed (walker files limits n)).recordType

end Steady
end FlowTypes
