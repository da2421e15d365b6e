import FlowTypes.FileSystem.Memory
import FlowTypes.Proofs.Routes
import FlowTypes.Proofs.Walk.Start
import FlowTypes.Proofs.Walk.Statements

/-! What a block returns. The type that a return statement gives is united with other flows on its way
out of the blocks around it. Main statement: the flow of a block covers what its return statements
give, unless a union on the way is not faithful. A return statement in the last block of a `try` has no
way out when control can also go on after that block. -/
namespace FlowTypes

open TypeStore Analysis

variable {s s' : State}

namespace Walker

/-- The unions that adding a flow makes. -/
def Flow.joins (store : TypeStore) (f : Flow) (flow : TypeId) : List Join :=
  if f.ended then []
  else if store.contains flow .cont then
    match store.remove flow .cont with
    | (some value, store) => joinsOf store f.returned value
    | (none, _) => []
  else joinsOf store f.returned flow

/-- The unions that are made at the end of a block. -/
def Flow.lastJoins (store : TypeStore) (f : Flow) : List Join :=
  if f.ended then [] else joinsOf store f.returned .cont

variable (w : Walker) (inner : ScopeId → List Stmt → State → Route → Prop) (scope : ScopeId)

/-- The statements of a block. -/
def statements : Gathering Stmt Flow where
  walk := w.stmt scope
  merge := Flow.add
  joins := Flow.joins
  goesOn store flow := store.contains flow .cont

/-- The parts of a compound statement. -/
def parts : Gathering Part (Option TypeId) where
  walk := w.part scope
  merge acc flow := do return some (← unionOpt acc flow)
  joins := joinsOf
  goesOn _ _ := true

inductive PartReturns : Part → State → Route → Prop
  | intro {p : Part} {s s₁ : State} {route : Route}
      (entered : (w.enter scope p).run s = .ok ((), s₁)) (returns : inner scope p.body s₁ route) :
      PartReturns p s route

def AnyReturns (parts : List Part) (s : State) (route : Route) : Prop :=
  (w.parts scope).Returns (w.PartReturns inner scope) none parts s route

/-- Control can go on after a block. -/
inductive FallsThrough : List Stmt → State → Prop
  | nothing {s : State} : FallsThrough [] s
  | block {body : List Stmt} {s s₁ : State} {flow : TypeId}
      (walked : (w.block scope body).run s = .ok (flow, s₁))
      (goesOn : s₁.types.contains flow .cont = true) : FallsThrough body s

/-- The routes from the return statements inside of a statement. -/
inductive StmtReturns : Stmt → State → Route → Prop
  | returns {node : Node} {value : Option Expr} {s s₁ : State} {type : TypeId}
      (walked : (w.valueOf scope value).run s = .ok (type, s₁)) :
      StmtReturns (.returns node value) s { type }
  | branch {node : Node} {condition : Expr} {yes no : List Stmt} {s s₁ : State} {route : Route}
      (walked : (w.eval scope condition).run s = .ok ((), s₁))
      (returns : w.AnyReturns inner scope [.plain yes, .plain no] s₁ route) :
      StmtReturns (.branch node condition yes no) s route
  | whileLoop {node : Node} {condition : Expr} {body otherwise : List Stmt} {s s₁ : State}
      {route : Route} (walked : (w.eval scope condition).run s = .ok ((), s₁))
      (returns : w.AnyReturns inner scope [.plain body, .plain otherwise] s₁ route) :
      StmtReturns (.whileLoop node condition body otherwise) s route
  | forLoop {node : Node} {target iter : Expr} {body otherwise : List Stmt} {isAsync : Bool}
      {iterable element : TypeId} {s s₁ s₂ s₃ : State} {route : Route}
      (walked : (w.expr scope iter).run s = .ok (iterable, s₁))
      (taken : (w.element iterable node.span).run s₁ = .ok (element, s₂))
      (assigned : (w.assign scope target element).run s₂ = .ok ((), s₃))
      (returns : w.AnyReturns inner scope [.plain body, .plain otherwise] s₃ route) :
      StmtReturns (.forLoop node target iter body otherwise isAsync) s route
  | withBlock {node : Node} {items : List WithItem} {body : List Stmt} {isAsync : Bool}
      {s s₁ : State} {route : Route}
      (walked : (items.forM (w.withItem scope node.span)).run s = .ok ((), s₁))
      (returns : inner scope body s₁ route) : StmtReturns (.withBlock node items body isAsync) s route
  | tryBlock {node : Node} {body : List Stmt} {handlers : List (Handler Stmt)}
      {otherwise final : List Stmt} {flow : TypeId} {s s₁ : State} {route : Route}
      (returns : w.AnyReturns inner scope (tryParts body handlers otherwise) s route)
      (walked : (w.anyOf scope (tryParts body handlers otherwise)).run s = .ok (flow, s₁))
      (goesOn : w.FallsThrough scope final s₁) :
      StmtReturns (.tryBlock node body handlers otherwise final) s route
  /-- A block at the end of a `try` counts only when control never goes on after it. -/
  | final {node : Node} {body : List Stmt} {handlers : List (Handler Stmt)}
      {otherwise final : List Stmt} {flow : TypeId} {s s₁ : State} {route : Route}
      (walked : (w.anyOf scope (tryParts body handlers otherwise)).run s = .ok (flow, s₁))
      (returns : inner scope final s₁ route) (ends : ¬w.FallsThrough scope final s₁) :
      StmtReturns (.tryBlock node body handlers otherwise final) s route

/-- The routes from the return statements of a block to its flow. -/
inductive BlockReturns : List Stmt → State → Route → Prop
  | intro {body : List Stmt} {s s₁ : State} {flow : Flow} {route : Route}
      (returns : (w.statements scope).Returns (w.StmtReturns inner scope) {} body s route)
      (gathered : ((w.statements scope).gather {} body).run s = .ok (flow, s₁)) :
      BlockReturns body s (route.through (flow.lastJoins s₁.types))

end Walker

/-- The routes from the return statements that control can come to, out of a block at so many
levels. -/
def Returned (files : FileSystem) (limits : Limits) : Nat → ScopeId → List Stmt → State → Route → Prop
  | 0, _, _, _, _ => False
  | n + 1, scope, body, s, route =>
    (walker files limits n).BlockReturns (Returned files limits n) scope body s route

namespace Walker

variable {w : Walker} {inner : ScopeId → List Stmt → State → Route → Prop} {r : Route}

theorem walks_returned {f : Flow} (hf : f.Valid s) (hv : s.Value value) :
    Walks (do return (⟨some (← unionOpt f.returned value), ended⟩ : Flow)) s fun s' f' =>
      f'.Valid s' ∧ f'.ended = ended ∧ ∀ r : Route,
        r.Leads s f.returned ∨ r.Leads s (some value) →
          (r.through (joinsOf s.types f.returned value)).Leads s' f'.returned := by
  intro valid f' s' ran
  obtain ⟨u, s₁, united, ⟨⟩⟩ := Walks.run_bind ran
  obtain ⟨on, hu⟩ := walks_unionOpt hf.returned hv valid u s' united
  obtain ⟨_, _, leads⟩ := walks_unionOpt_leads
    (fun v found => (hf.returned v found).has) hv.has valid u s' united
  exact ⟨on, ⟨State.optional_some hu, fun _ => rfl⟩, rfl, leads⟩

theorem Flow.Valid.onward {f : Flow} (ok : f.Valid s) (on : Onward s s') : f.Valid s' :=
  ⟨on.optional ok.returned, ok.ended⟩

theorem walks_add_leads {f : Flow} (ok : f.Valid s) (hf : s.Has flow) (isOpen : f.ended = false) :
    Walks (f.add flow) s fun s' f' => f'.Valid s' ∧
      (s.types.contains flow .cont = true → f'.ended = false) ∧ ∀ r : Route,
        r.Leads s f.returned ∨ r.Leads s (some flow) →
          (r.through (f.joins s.types flow)).Leads s' f'.returned := by
  refine .assume fun valid => ?_
  unfold Flow.add Flow.joins
  rw [isOpen]
  refine .gets_bind ?_
  simp only [Bool.false_eq_true, if_false]
  split
  · refine (walks_remove_leads hf).bind fun rest s₁ on₁ outcome => ?_
    obtain ⟨removed, known, left⟩ := outcome
    rw [removed]
    cases rest with
    | none =>
      refine .pure ⟨ok.onward on₁, fun _ => isOpen, fun r leads => ?_⟩
      rw [r.through_nil]
      exact leads.elim (·.onward on₁) fun leads => (left r leads).anywhere
    | some value =>
      refine (walks_returned (ok.onward on₁) (known value rfl)).mono
        fun f' _ _ outcome => ?_
      obtain ⟨ok, ended, joined⟩ := outcome
      exact ⟨ok, fun _ => ended, fun r leads => joined r (leads.imp (·.onward on₁) (left r))⟩
  · next ends =>
    have value : s.Value flow :=
      valid.heap.sound.value_of_contains hf (by simpa [State.types] using ends)
    refine (walks_returned ok value).mono fun f' s₁ on₁ outcome => ?_
    obtain ⟨ok, ended, leads⟩ := outcome
    exact ⟨ok, fun falls => absurd falls ends, leads⟩

theorem walks_type_leads {f : Flow} (ok : f.Valid s) :
    Walks f.type s fun s' flow => ∀ r : Route, r.Leads s f.returned →
      (r.through (f.lastJoins s.types)).Leads s' (some flow) := by
  refine .assume fun valid => ?_
  unfold Flow.type Flow.lastJoins
  split
  · next ended =>
    obtain ⟨v, found⟩ := Option.isSome_iff_exists.mp (ok.ended ended)
    rw [found]
    exact .pure fun r leads => r.through_nil.symm ▸ leads
  · refine (walks_unionOpt_leads (fun v found => (ok.returned v found).has)
      (State.has_cont valid)).mono fun _ _ _ known => ?_
    exact fun r leads => known.2 r (.inl leads)

theorem statements_lawful (sound : w.Sound) (scope : ScopeId) :
    (w.statements scope).Lawful (·.returned) (fun s f => f.Valid s) (·.ended = false) where
  walks := walks_stmt sound
  onward on ok := ok.onward on
  merges {s f flow} ok hf := by
    cases isOpen : f.ended with
    | false =>
      refine (walks_add_leads ok hf isOpen).mono fun f' s' on ⟨ok, stays, leads⟩ => ?_
      exact ⟨ok, fun goesOn _ => stays goesOn, fun r before => leads r (before.imp_right And.right)⟩
    | true =>
      have same : f.add flow = pure f := by simp [Flow.add, isOpen]
      have none : f.joins s.types flow = [] := by simp [Flow.joins, isOpen]
      show Walks (f.add flow) s fun s' f' => f'.Valid s' ∧ (_ → _ → f'.ended = false) ∧
        ∀ r : Route, _ → (r.through (f.joins s.types flow)).Leads s' f'.returned
      rw [same, none]
      refine .pure ⟨ok, fun _ => nofun, fun r leads => ?_⟩
      rw [r.through_nil]
      rcases leads with leads | ⟨⟨⟩, _⟩
      exact leads

theorem parts_lawful (sound : w.Sound) :
    (w.parts scope).Lawful id (fun s acc => ∀ v, acc = some v → s.Has v) fun _ => True where
  walks := walks_part sound
  onward on ok v found := on.has (ok v found)
  merges {s acc flow} ok hf := by
    refine (walks_unionOpt_leads ok hf).bind fun u _ _ ⟨hu, leads⟩ => ?_
    refine .pure ⟨by rintro _ ⟨⟩; exact hu, fun _ => id, fun r before => ?_⟩
    exact leads r (before.imp_right And.right)

/-- The routes out of the blocks inside lead to the flows of these blocks. -/
def Carries (w : Walker) (inner : ScopeId → List Stmt → State → Route → Prop) : Prop :=
  ∀ {scope : ScopeId} {body : List Stmt} {s s' : State} {r : Route} {flow : TypeId}, s.Valid →
    inner scope body s r → (w.block scope body).run s = .ok (flow, s') → r.Leads s' (some flow)

variable (sound : w.Sound) (carries : w.Carries inner) {scope : ScopeId} {flow : TypeId}

include sound carries

theorem AnyReturns.leads {parts : List Part} (returns : w.AnyReturns inner scope parts s r)
    (valid : s.Valid) (ran : (w.anyOf scope parts).run s = .ok (flow, s')) :
    r.Leads s' (some flow) := by
  obtain ⟨acc, s₁, gathered, ⟨⟩⟩ := Walks.run_bind ran
  have leads : r.Leads s' acc := by
    refine Gathering.Returns.leads (parts_lawful sound) ?_ returns valid (by simp) trivial
      gathered
    rintro p s s' r flow valid ⟨entered, returns⟩ ran
    obtain ⟨_, _, entered', walked⟩ := Walks.run_bind ran
    obtain ⟨-, rfl⟩ := run_unique entered entered'
    obtain ⟨on, -⟩ := walks_enter sound valid _ _ entered
    exact carries on.valid returns walked
  cases acc with
  | none => exact leads.anywhere
  | some flow => exact leads

omit carries in
/-- The flow of a `try` is that of its last block, unless control can go on after it. -/
theorem run_tryBlock {parts : List Part} {final : List Stmt} (valid : s.Valid)
    (ran : (w.tryBlock scope parts final).run s = .ok (flow, s')) :
    ∃ first s₁, (w.anyOf scope parts).run s = .ok (first, s₁) ∧ Onward s s₁ ∧
      (w.FallsThrough scope final s₁ ∧ flow = first ∧ Onward s₁ s' ∨
        ¬w.FallsThrough scope final s₁ ∧ (w.block scope final).run s₁ = .ok (flow, s')) := by
  obtain ⟨first, s₁, walked, ran⟩ := Walks.run_bind ran
  obtain ⟨on₁, _⟩ := walks_anyOf sound valid _ _ walked
  refine ⟨first, s₁, walked, on₁, ?_⟩
  split at ran
  · next empty =>
    cases ran
    obtain rfl := List.isEmpty_iff.mp empty
    exact .inl ⟨.nothing, rfl, .refl on₁.valid⟩
  · next some =>
    obtain ⟨last, s₂, walked, ran⟩ := Walks.run_bind ran
    obtain ⟨on₂, _⟩ := sound.block scope final on₁.valid _ _ walked
    obtain ⟨_, _, ⟨⟩, ran⟩ := Walks.run_bind ran
    split at ran
    · next goesOn =>
      cases ran
      exact .inl ⟨.block walked goesOn, rfl, on₂⟩
    · next ends =>
      cases ran
      refine .inr ⟨?_, walked⟩
      rintro (_ | ⟨walked', goesOn⟩)
      · exact some rfl
      · obtain ⟨rfl, rfl⟩ := run_unique walked walked'
        exact ends goesOn

theorem StmtReturns.leads (returns : w.StmtReturns inner scope statement s r) (valid : s.Valid)
    (ran : (w.stmt scope statement).run s = .ok (flow, s')) : r.Leads s' (some flow) := by
  cases returns with
  | returns walked =>
    obtain ⟨rfl, rfl⟩ := run_unique walked ran
    exact .start (walks_valueOf sound valid _ _ walked).2
  | branch walked returns | whileLoop walked returns =>
    obtain ⟨_, _, walked', ran⟩ := Walks.run_bind ran
    obtain ⟨-, rfl⟩ := run_unique walked walked'
    obtain ⟨on, -⟩ := walks_eval sound valid _ _ walked
    exact AnyReturns.leads sound carries returns on.valid ran
  | forLoop walked taken assigned returns =>
    obtain ⟨_, _, walked', ran⟩ := Walks.run_bind ran
    obtain ⟨rfl, rfl⟩ := run_unique walked walked'
    obtain ⟨_, _, taken', ran⟩ := Walks.run_bind ran
    obtain ⟨rfl, rfl⟩ := run_unique taken taken'
    obtain ⟨_, _, assigned', ran⟩ := Walks.run_bind ran
    obtain ⟨-, rfl⟩ := run_unique assigned assigned'
    obtain ⟨on₁, hi⟩ := sound.expr scope _ valid _ _ walked
    obtain ⟨on₂, he⟩ := sound.element _ hi on₁.valid _ _ taken
    obtain ⟨on₃, -⟩ := sound.assign scope _ he on₂.valid _ _ assigned
    exact AnyReturns.leads sound carries returns on₃.valid ran
  | @withBlock node items body isAsync _ _ _ walked returns =>
    obtain ⟨_, _, walked', ran⟩ := Walks.run_bind ran
    obtain ⟨-, rfl⟩ := run_unique walked walked'
    have entered : Walks (items.forM (w.withItem scope node.span)) s Anything :=
      .forM fun item _ _ _ => walks_withItem sound
    exact carries (entered valid _ _ walked).1.valid returns ran
  | tryBlock returns walked goesOn =>
    obtain ⟨_, _, walked', on, ⟨-, rfl, on'⟩ | ⟨ends, -⟩⟩ := run_tryBlock sound valid ran
    · exact (AnyReturns.leads sound carries returns valid walked').onward on'
    · obtain ⟨-, rfl⟩ := run_unique walked walked'
      exact absurd goesOn ends
  | final walked returns ends =>
    obtain ⟨_, _, walked', on, ⟨goesOn, -⟩ | ⟨-, ran⟩⟩ := run_tryBlock sound valid ran
    all_goals obtain ⟨-, rfl⟩ := run_unique walked walked'
    · exact absurd goesOn ends
    · exact carries on.valid returns ran

theorem BlockReturns.leads {body : List Stmt} (returns : w.BlockReturns inner scope body s r)
    (valid : s.Valid) (ran : (w.blockStep scope body).run s = .ok (flow, s')) :
    r.Leads s' (some flow) := by
  obtain ⟨returns, gathered⟩ := returns
  obtain ⟨_, _, gathered', ended⟩ := Walks.run_bind ran
  obtain ⟨rfl, rfl⟩ := run_unique gathered gathered'
  have lawful := statements_lawful sound scope
  have start : Flow.Valid s {} := ⟨s.optional_none, nofun⟩
  have leads := returns.leads lawful
    (fun valid returns ran => StmtReturns.leads sound carries returns valid ran) valid start rfl
    gathered
  obtain ⟨on, ok⟩ := lawful.walks_gather start valid _ _ gathered
  exact (walks_type_leads ok on.valid _ _ ended).2 _ leads

end Walker

theorem returned_carries : (walker files limits n).Carries (Returned files limits n) := by
  induction n with
  | zero => exact fun _ returns => returns.elim
  | succ n ih =>
    exact fun valid returns ran =>
      Walker.BlockReturns.leads (walker_sound n) ih returns valid ran

/-- The flow of a block covers the type that any of its return statements gives to which control can
come, whatever the blocks around the statement, if all unions on the way were faithful. -/
theorem returned_type_in_flow {files : FileSystem} {limits : Limits} {n : Nat} {scope : ScopeId}
    {body : List Stmt} {flow : TypeId} {route : Route} (valid : s.Valid)
    (ran : ((walker files limits n).block scope body).run s = .ok (flow, s'))
    (returned : Returned files limits n scope body s route)
    (faithful : ∀ join ∈ route.joins, join.Faithful s'.types) :
    ∀ x ∈ s'.types.alternatives route.type, s'.types.contains flow x = true := by
  intro x member
  have leads := returned_carries valid returned ran
  obtain ⟨on, _⟩ := (walker_sound n).block scope body valid _ _ ran
  obtain ⟨v, found, covered⟩ := leads.arrives s'.types on.valid.heap.sound .refl faithful x member
  cases found
  exact covered

namespace Analysis

variable {α : Type}

/-- The result of a run that ends. -/
def outcome (m : Analysis α) (s : State) (ends : (m.run s).isOk = true) : α × State :=
  match ran : m.run s with
  | .ok result => result
  | .error _ => absurd ends (by simp [ran, Except.isOk, Except.toBool])

theorem run_eq_outcome {m : Analysis α} (ends : (m.run s).isOk = true) :
    m.run s = .ok ((outcome m s ends).1, (outcome m s ends).2) := by
  unfold outcome
  split
  · assumption
  · next ran => simp [ran, Except.isOk, Except.toBool] at ends

end Analysis

/-- A state in which no name is built in. -/
def State.bare : State := .ofPrelude Prelude.blank

def noFiles : FileSystem := MemoryTree.fileSystem {}

/-- A return statement in a `try` whose handler and last block both fall through. -/
def guardedReturn : Stmt :=
  .tryBlock default [.returns default none] [⟨default, none, none, [.pass default]⟩] []
    [.pass default]

def guarded : List Stmt := [guardedReturn, .returns default (some (.constant default .true))]

theorem guarded_type_in_flow : ∃ flow s' route,
    ((walker noFiles {} 3).block State.bare.global guarded).run State.bare = .ok (flow, s') ∧
    Returned noFiles {} 3 State.bare.global guarded State.bare route ∧ route.joins.length = 2 ∧
    (∀ join ∈ route.joins, join.Faithful s'.types) ∧
    ∀ x ∈ s'.types.alternatives route.type, s'.types.contains flow x = true := by
  have inside : Returned noFiles {} 2 State.bare.global [.returns default none] State.bare _ :=
    Walker.BlockReturns.intro (.here (.returns rfl) (.cons (run_eq_outcome (by decide +kernel))
      (run_eq_outcome (by decide +kernel)) .nil)) (run_eq_outcome (by decide +kernel))
  have tried : (walker noFiles {} 2).StmtReturns (Returned noFiles {} 2) State.bare.global
      guardedReturn State.bare _ :=
    .tryBlock (.here (.intro rfl inside) (.cons (run_eq_outcome (by decide +kernel))
        (run_eq_outcome (by decide +kernel)) (.cons (run_eq_outcome (by decide +kernel))
          (run_eq_outcome (by decide +kernel)) .nil)))
      (run_eq_outcome (by decide +kernel))
      (.block (run_eq_outcome (by decide +kernel)) (by decide +kernel))
  have returned : Returned noFiles {} 3 State.bare.global guarded State.bare _ :=
    Walker.BlockReturns.intro (.here tried (.cons (run_eq_outcome (by decide +kernel))
      (run_eq_outcome (by decide +kernel)) (.cons (run_eq_outcome (by decide +kernel))
        (run_eq_outcome (by decide +kernel)) .nil))) (run_eq_outcome (by decide +kernel))
  have ran : ((walker noFiles {} 3).block State.bare.global guarded).run State.bare = _ :=
    run_eq_outcome (by decide +kernel)
  exact ⟨_, _, _, ran, returned, by decide +kernel, by decide +kernel,
    returned_type_in_flow (State.ofPrelude_valid Prelude.blank_valid) ran returned (by decide +kernel)⟩

/-! ### Returned types that get lost -/

/-- A return statement that control may pass by. -/
def mayReturn (value : Option Expr) : Stmt :=
  .branch default (.constant default .true) [.returns default value] []

/-- It stands in a last block after which control can go on. -/
def lastReturn : List Stmt :=
  [.tryBlock default [.pass default] [] [] [mayReturn none],
    .returns default (some (.constant default .true))]

def bindList (name : String) (element : Expr) : Stmt :=
  .assign default [.name default name] (.list default [element])

def putFirst (name : String) (element : Expr) : Stmt :=
  .assign default [.subscript default (.name default name) (.number default .int "0")] element

/-- Two equal lists are returned, and then the second one changes. -/
def changedLater : List Stmt :=
  [bindList "a" (.number default .int "1"), bindList "b" (.number default .int "1"),
    mayReturn (some (.name default "a")), mayReturn (some (.name default "b")),
    putFirst "b" (.string default "s")]

/-- Two different lists are returned, and become equal before something else is returned. -/
def equalLater : List Stmt :=
  [bindList "a" (.number default .int "1"), bindList "b" (.string default "s"),
    mayReturn (some (.name default "a")), mayReturn (some (.name default "b")),
    putFirst "a" (.string default "s"), putFirst "b" (.number default .int "1"),
    .returns default none]

/-- A flow lacks the `None` of a last block, the second of two equal lists, and the `None` after two
lists that have become equal. -/
theorem flow_lacks_returned_types :
    (∃ last s', ((walker noFiles {} 4).block State.bare.global [mayReturn none]).run State.bare =
      .ok (last, s') ∧ s'.types.contains last .none = true ∧ s'.types.contains last .cont = true) ∧
    (∃ flow s', ((walker noFiles {} 4).block State.bare.global lastReturn).run State.bare =
      .ok (flow, s') ∧ s'.types.contains flow .none = false) ∧
    (∃ flow s', ((walker noFiles {} 4).block State.bare.global changedLater).run State.bare =
      .ok (flow, s') ∧ s'.scopes.lookupLocal s'.global "b" = some [⟨1⟩] ∧
        s'.types.contains flow (s'.bindings.typeOf ⟨1⟩) = false) ∧
    ∃ flow s', ((walker noFiles {} 4).block State.bare.global equalLater).run State.bare =
      .ok (flow, s') ∧ s'.types.contains flow .none = false :=
  ⟨Walks.exists_run (by decide +kernel), Walks.exists_run (by decide +kernel),
    Walks.exists_run (by decide +kernel), Walks.exists_run (by decide +kernel)⟩

end FlowTypes
