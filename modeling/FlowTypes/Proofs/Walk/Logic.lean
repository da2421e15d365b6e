import FlowTypes.Proofs.Walk.Steps

/-! Reasoning about walks. A walk is made of steps, of applications of functions, which end in the
frame they started in, and of files that are loaded, each once. -/
namespace FlowTypes

open TypeStore (Kept)

variable {s s' s'' : State}

namespace State

/-- A block has been walked at some level of a walk. -/
def BlockWalked (body : List Stmt) (s s' : State) : Prop :=
  ∃ files limits n scope flow, ((walker files limits n).block scope body).run s = .ok (flow, s')

/-- What walking can make of a state. -/
inductive Walked : State → State → Prop
  | refl (s : State) : Walked s s
  | step {s s' : State} (step : Step s s') : Walked s s'
  | trans {s s' s'' : State} (first : Walked s s') (second : Walked s' s'') : Walked s s''
  /-- A function is applied that is not being applied already. -/
  | application {s s' : State} {fn : TypeId} (new : ∀ frame ∈ s.frames, frame.function ≠ fn)
      (inside : Walked (s.enter fn) s') : Walked s s'.leave
  /-- A file that was not known can not be read or parsed. -/
  | failure {s : State} {p : Path} (record : LogRecord) (new : s.status? p = none) :
      Walked s { (s.setStatus p .unparsed).fail p with journal := record :: s.journal }
  /-- A file that was not known is parsed and walked. -/
  | load {s s₁ s₂ s₃ : State} {p : Path} {value : TypeId} {tree : Module} (next : NodeId)
      (new : s.status? p = none)
      (read : ∃ source, Module.parse source p.toString s.nextNode = .ok (tree, next))
      (parsing : Walked { s.setStatus p .unparsed with nextNode := next } s₁)
      (hv : s₁.IsModule value)
      (binding : Walked (s₁.setStatus p (.loaded .parsed value tree)) s₂)
      (inferring : Walked (s₂.advance p .bound) s₃)
      (body : BlockWalked tree.body (s₂.advance p .bound) s₃) : Walked s (s₃.advance p .inferred)

theorem Valid.setStatus (valid : s.Valid) (p : Path) (value : status.Valid s.heap.types) :
    (s.setStatus p status).Valid :=
  { valid with modules := InsertionMap.forall_values_insert value valid.modules }

theorem Valid.advance (valid : s.Valid) (p : Path) (stage : Stage) : (s.advance p stage).Valid := by
  refine { valid with modules := fun status member => ?_ }
  rcases InsertionMap.mem_values_modify member with same | ⟨old, known, rfl⟩
  · exact valid.modules status same
  · intro v found
    refine valid.modules old known v ?_
    cases old <;> exact found

theorem Valid.enter (valid : s.Valid) : (s.enter fn).Valid := by
  refine { valid with frames := fun frame member v found => ?_ }
  rcases List.mem_cons.mp member with rfl | member
  · cases found
  · exact valid.frames frame member v found

theorem Valid.leave (valid : s.Valid) : s.leave.Valid :=
  { valid with frames := fun frame member => valid.frames frame (List.mem_of_mem_tail member) }

theorem unparsed_valid {types : TypeStore} : FileStatus.unparsed.Valid types := by
  rintro _ ⟨⟩

theorem failed_valid {types : TypeStore} : FileStatus.failed.Valid types := by
  rintro _ ⟨⟩

theorem Walked.evolves (walked : Walked s s') (valid : s.Valid) :
    s'.Valid ∧ s.heap.Evolves s'.heap := by
  induction walked with
  | refl s => exact ⟨valid, .refl _⟩
  | step step => exact ⟨step.valid valid, step.evolves valid⟩
  | trans first second ih ih' =>
    obtain ⟨valid, evolves⟩ := ih valid
    obtain ⟨valid, evolves'⟩ := ih' valid
    exact ⟨valid, evolves.trans evolves'⟩
  | application new inside ih =>
    obtain ⟨valid, evolves⟩ := ih valid.enter
    exact ⟨valid.leave, evolves⟩
  | @failure s p record new =>
    have unparsed := valid.setStatus p unparsed_valid
    exact ⟨{ unparsed.setStatus p failed_valid with }, .refl _⟩
  | @load s s₁ s₂ s₃ p value tree next new read parsing hv binding inferring body ih ih₁ ih₂ =>
    obtain ⟨valid, parsed⟩ := ih { valid.setStatus p unparsed_valid with }
    obtain ⟨valid, bound⟩ := ih₁ (valid.setStatus p (by rintro _ ⟨⟩; exact hv.value))
    obtain ⟨valid, inferred⟩ := ih₂ (valid.advance p .bound)
    exact ⟨valid.advance p .inferred, parsed.trans (bound.trans inferred)⟩

theorem status?_setStatus (s : State) (status : FileStatus) : (s.setStatus p status).status? q =
      if q.components = p.components then some status else s.status? q :=
  InsertionMap.get?_insert s.modules p.components q.components status

theorem status?_advance (s : State) (p q : Path) (stage : Stage) : (s.advance p stage).status? q =
      if q.components = p.components then (s.status? q).map (·.advance stage) else s.status? q :=
  InsertionMap.get?_modify s.modules p.components q.components _

theorem Step.modules (step : Step s s') : s'.modules = s.modules := by
  cases step <;> rfl

theorem status?_congr (same : q.components = p.components) : s.status? q = s.status? p := by
  rw [status?, status?, same]

/-- Walking leaves the files alone that are known already. -/
theorem Walked.status (walked : Walked s s') {status : FileStatus}
    (known : s.status? q = some status) : s'.status? q = some status := by
  induction walked with
  | refl => exact known
  | step step => rwa [status?, step.modules]
  | trans _ _ ih ih' => exact ih' (ih known)
  | application _ _ ih => exact ih known
  | @failure s p record new =>
    have other : q.components ≠ p.components := fun same => by
      simp [status?_congr same, new] at known
    refine (status?_setStatus _ .failed).trans ?_
    rwa [if_neg other, status?_setStatus, if_neg other]
  | @load s s₁ s₂ s₃ p value tree next new read parsing hv binding inferring body ih ih₁ ih₂ =>
    have other : q.components ≠ p.components := fun same => by
      simp [status?_congr same, new] at known
    have parsed := ih ((status?_setStatus s .unparsed).trans ((if_neg other).trans known))
    have bound := ih₁ ((status?_setStatus s₁ _).trans ((if_neg other).trans parsed))
    have inferred := ih₂ ((status?_advance s₂ p q .bound).trans ((if_neg other).trans bound))
    exact (status?_advance s₃ p q .inferred).trans ((if_neg other).trans inferred)

def Has (s : State) (id : TypeId) : Prop := s.heap.types.Has id

def Values (s : State) (ids : List TypeId) : Prop := ∀ v ∈ ids, s.Value v

def Optional (s : State) (id : Option TypeId) : Prop := ∀ v, id = some v → s.Value v

theorem optional_none (s : State) : s.Optional none := by
  rintro _ ⟨⟩

theorem optional_some (value : s.Value v) : s.Optional (some v) := by
  rintro _ ⟨⟩
  exact value

theorem Optional.getD (h : s.Optional o) (value : s.Value v) : s.Value (o.getD v) := by
  cases o with
  | none => exact value
  | some w => exact h w rfl

theorem Optional.or (ha : s.Optional a) (hb : s.Optional b) : s.Optional (a.or b) := by
  cases a with
  | none => exact hb
  | some v => exact ha

end State

/-- A valid state that a walk leads to from another one. -/
structure Onward (s s' : State) : Prop where
  walked : s.Walked s'
  valid : s'.Valid
  evolves : s.heap.Evolves s'.heap

namespace Onward

theorem of_walked (walked : s.Walked s') (valid : s.Valid) : Onward s s' :=
  ⟨walked, (walked.evolves valid).1, (walked.evolves valid).2⟩

theorem refl (valid : s.Valid) : Onward s s := of_walked (.refl s) valid

theorem trans (first : Onward s s') (second : Onward s' s'') : Onward s s'' :=
  ⟨first.walked.trans second.walked, second.valid, first.evolves.trans second.evolves⟩

theorem kept (on : Onward s s') : Kept s.heap.types s'.heap.types := on.evolves.changes.kept

theorem value (on : Onward s s') {id : TypeId} (h : s.Value id) : s'.Value id := h.mono on.kept

theorem has (on : Onward s s') {id : TypeId} (h : s.Has id) : s'.Has id := on.kept.has h

theorem values (on : Onward s s') (h : s.Values ids) : s'.Values ids :=
  fun v member => on.value (h v member)

theorem optional (on : Onward s s') (h : s.Optional o) : s'.Optional o :=
  fun v found => on.value (h v found)

end Onward

/-! ### Runs of an analysis -/

/-- From a valid state, an analysis that ends has walked, with a result of which something is known. -/
def Walks {α : Type} (m : Analysis α) (s : State) (Q : State → α → Prop) : Prop :=
  s.Valid → ∀ a s', m.run s = .ok (a, s') → Onward s s' ∧ Q s' a

/-- Nothing is known of the result. -/
abbrev Anything {α : Type} (_ : State) (_ : α) : Prop := True

namespace Walks

open Analysis

variable {α β : Type} {m : Analysis α} {f : α → Analysis β} {Q : State → α → Prop}
  {R : State → β → Prop}

theorem assume (given : s.Valid → Walks m s Q) : Walks m s Q := fun valid => given valid valid

theorem pure {a : α} (h : Q s a) : Walks (pure a) s Q := by
  rintro valid _ _ ⟨⟩
  exact ⟨.refl valid, h⟩

theorem throw : Walks (throw stop : Analysis α) s Q := by
  rintro _ _ _ ⟨⟩

/-- A run of two activities goes through a state in between. -/
theorem run_bind (ran : (m >>= f).run s = .ok (b, s'')) :
    ∃ a s', m.run s = .ok (a, s') ∧ (f a).run s' = .ok (b, s'') := by
  rw [StateT.run_bind] at ran
  cases half : m.run s with
  | error stop =>
    rw [half] at ran
    cases ran
  | ok result =>
    rw [half] at ran
    exact ⟨result.1, result.2, rfl, ran⟩

theorem bind (first : Walks m s Q)
    (next : ∀ a s', Onward s s' → Q s' a → Walks (f a) s' R) : Walks (m >>= f) s R := by
  intro valid b s'' ran
  obtain ⟨a, s', ran, ran'⟩ := run_bind ran
  obtain ⟨on, known⟩ := first valid a s' ran
  obtain ⟨on', known'⟩ := next a s' on known on.valid b s'' ran'
  exact ⟨on.trans on', known'⟩

theorem mono (walks : Walks m s Q) (weaker : ∀ a s', Onward s s' → Q s' a → Q' s' a) :
    Walks m s Q' := by
  intro valid a s' ran
  obtain ⟨on, known⟩ := walks valid a s' ran
  exact ⟨on, weaker a s' on known⟩

theorem run_bind_eq (ran : m.run s = .ok (a, s')) : (m >>= f).run s = (f a).run s' := by
  rw [StateT.run_bind, ran]
  rfl

theorem run_modify_eq {f : State → State} (same : f s = s) :
    (MonadState.modifyGet fun s => ((), f s) : Analysis Unit).run s = .ok ((), s) := by
  show Except.ok ((), f s) = .ok ((), s)
  rw [same]

theorem exists_run {P : α → State → Prop} [∀ a s, Decidable (P a s)]
    (evaluated : (m.run s).toOption.any (fun r => decide (P r.1 r.2)) = true) :
    ∃ a s', m.run s = .ok (a, s') ∧ P a s' := by
  generalize m.run s = result at evaluated
  rcases result with _ | ⟨a, s'⟩
  · cases evaluated
  · exact ⟨a, s', rfl, of_decide_eq_true evaluated⟩

theorem run_discard (ran : (discard m).run s = .ok ((), s')) : ∃ a, m.run s = .ok (a, s') := by
  obtain ⟨a, _, ran, ⟨⟩⟩ := run_bind (m := m) (f := fun _ => Pure.pure ()) ran
  exact ⟨a, ran⟩

theorem discard (walks : Walks m s Q) : Walks (discard m) s Anything :=
  walks.bind fun _ _ _ _ => .pure trivial

theorem get_bind {f : State → Analysis β} (next : Walks (f s) s R) : Walks (get >>= f) s R :=
  next

theorem gets_bind (next : Walks (f (g s)) s R) : Walks (gets g >>= f) s R :=
  next

theorem modifyGet {f : State → α × State} (walked : s.Walked (f s).2)
    (h : Q (f s).2 (f s).1) : Walks (modifyGet f) s Q := by
  intro valid a s' ran
  have result : f s = (a, s') := Except.ok.inj ran
  rw [result] at walked h
  exact ⟨.of_walked walked valid, h⟩

theorem modify {f : State → State} (walked : s.Walked (f s)) : Walks (modify f) s Anything :=
  .modifyGet walked trivial

theorem onHeap {f : Heap → α × Heap} (move : s.heap.Move (f s.heap).2)
    (h : Q { s with heap := (f s.heap).2 } (f s.heap).1) : Walks (onHeap f) s Q :=
  .modifyGet (.step (.heap move)) h

theorem foldlM {xs : List α} {f : β → α → Analysis β} (start : R s b)
    (each : ∀ x ∈ xs, ∀ s' b, Onward s s' → R s' b → Walks (f b x) s' R) :
    Walks (xs.foldlM f b) s R := by
  induction xs generalizing s b with
  | nil => exact .pure start
  | cons x xs ih =>
    rw [List.foldlM_cons]
    refine .assume fun valid => ?_
    refine (each x List.mem_cons_self s b (.refl valid) start).bind fun b _ on known => ?_
    exact ih known fun y member s' b on' known =>
      each y (List.mem_cons_of_mem x member) s' b (on.trans on') known

theorem forM {xs : List α} {f : α → Analysis Unit}
    (each : ∀ x ∈ xs, ∀ s', Onward s s' → Walks (f x) s' Anything) :
    Walks (xs.forM f) s Anything := by
  induction xs generalizing s with
  | nil => exact .pure trivial
  | cons x xs ih =>
    refine .assume fun valid => (each x List.mem_cons_self s (.refl valid)).bind fun _ _ on _ => ?_
    exact ih fun y member s' on' => each y (List.mem_cons_of_mem x member) s' (on.trans on')

theorem filterM {xs : List α} {f : α → Analysis Bool}
    (each : ∀ x ∈ xs, ∀ s', Onward s s' → Walks (f x) s' Anything) :
    Walks (xs.filterM f) s Anything := by
  have aux : ∀ acc, Walks (xs.filterAuxM f acc) s Anything := by
    induction xs generalizing s with
    | nil => exact fun acc => .pure trivial
    | cons x xs ih =>
      intro acc valid
      refine (each x List.mem_cons_self s (.refl valid)).bind (fun keep _ on _ => ?_) valid
      exact ih (fun y member s' on' =>
        each y (List.mem_cons_of_mem x member) s' (on.trans on')) _
  exact (aux []).bind fun _ _ _ _ => .pure trivial

/-- The results for the members of a list, of which something is known that walking keeps. -/
theorem mapM {xs : List α} (stable : ∀ s s' b, Onward s s' → R s b → R s' b)
    (each : ∀ x ∈ xs, ∀ s', Onward s s' → Walks (f x) s' R) :
    Walks (xs.mapM f) s fun s' bs => ∀ b ∈ bs, R s' b := by
  induction xs generalizing s with
  | nil =>
    rw [List.mapM_nil]
    exact .pure (by simp)
  | cons x xs ih =>
    rw [List.mapM_cons]
    refine .assume fun valid => ?_
    refine (each x List.mem_cons_self s (.refl valid)).bind fun b _ on known => ?_
    refine (ih fun y member s' on' =>
      each y (List.mem_cons_of_mem x member) s' (on.trans on')).bind fun bs _ on' others => ?_
    refine .pure fun c member => ?_
    rcases List.mem_cons.mp member with rfl | member
    · exact stable _ _ _ on' known
    · exact others c member

end Walks
end FlowTypes
