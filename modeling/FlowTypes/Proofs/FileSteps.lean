import FlowTypes.Proofs.Heredity.Steady
import FlowTypes.Proofs.Walk.Logic
import Mathlib.Logic.Relation

/-! The steps in the life of a file. A walk may be overseen: at every change of the state that concerns
files somebody looks at what becomes of each of them, and may object. Main statement: who accepts the
steps in the life of a file never objects, however files import one another. -/
namespace FlowTypes

open Analysis
open Relation (ReflGen)

/-- One step in the life of a file. -/
inductive FileStatus.Next : Option FileStatus → Option FileStatus → Prop
  | mentioned : Next none (some .unparsed)
  | failed : Next (some .unparsed) (some .failed)
  | parsed (value : TypeId) (tree : Module) :
      Next (some .unparsed) (some (.loaded .parsed value tree))
  | bound (value : TypeId) (tree : Module) :
      Next (some (.loaded .parsed value tree)) (some (.loaded .bound value tree))
  | inferred (value : TypeId) (tree : Module) :
      Next (some (.loaded .bound value tree)) (some (.loaded .inferred value tree))
  | finished (value : TypeId) (tree : Module) :
      Next (some (.loaded .inferred value tree)) (some (.loaded .finished value tree))

open FileStatus (Next)

theorem FileStatus.next_finish (status : FileStatus) :
    ReflGen Next (some status) (some status.finish) := by
  rcases status with _ | _ | ⟨_ | _ | _ | _, value, tree⟩
  all_goals first
    | exact .refl
    | exact .single (.finished value tree)

/-! ### Overseen walks -/

/-- Changes the state, unless there is an objection to what becomes of a file. -/
def Analysis.overseen (objection : Option FileStatus → Option FileStatus → Option Stop)
    (change : State → State) : Analysis Unit := do
  let s ← get
  let places := (s.modules.entries ++ (change s).modules.entries).map (·.1)
  match places.findSome? fun place =>
      objection (s.modules.get? place) ((change s).modules.get? place) with
  | none => set (change s)
  | some stop => throw stop

namespace Walker

variable (w : Walker) (change : (State → State) → Analysis Unit)

/-! Loading a file, with a way to make the changes that concern files. -/

def failWith (p : Path) (message : String) : Analysis Unit := do
  warn message
  change (·.fail p)

def walkBodyWith (p : Path) (tree : Module) (table : ScopeId) : Analysis Unit := do
  declareModule table tree
  change (·.advance p .bound)
  discard (w.block table tree.body)
  change (·.advance p .inferred)
  debug s!"inferred {p.toString}"

def walkModuleWith (p : Path) (tree : Module) : Analysis TypeId := do
  let value ← introduceModule p tree
  change (·.setStatus p (.loaded .parsed value tree))
  match ← tableOf value with
  | none => return value
  | some table =>
    w.walkBodyWith change p tree table
    return value

def loadWith (p : Path) : Analysis (Option TypeId) := do
  match (← get).status? p with
  | some status => return status.value?
  | none =>
    change (·.setStatus p .unparsed)
    match ← w.ask p (·.textOf p) with
    | .error e =>
      failWith change p e.message
      return none
    | .ok source =>
      match Module.parse source p.toString (← get).nextNode with
      | .error e =>
        failWith change p s!"failed to parse {p.toString}: {e.message}"
        return none
      | .ok (tree, next) =>
        modify fun s => { s with nextNode := next }
        debug s!"parsed {p.toString}"
        return some (← w.walkModuleWith change p tree)

def finishWith : Analysis Unit := do
  w.applyAll w.files.allowance
  change State.finish

theorem loadWith_modify : w.loadWith modify p = w.loadStep p := rfl

theorem finishWith_modify : w.finishWith modify = w.finish := rfl

end Walker

/-- The walk with so many levels, where every change that concerns files is overseen. -/
def overseen (objection : Option FileStatus → Option FileStatus → Option Stop) (files : FileSystem)
    (limits : Limits) : Nat → Walker
  | 0 => walker files limits 0
  | n + 1 =>
    let w := overseen objection files limits n
    { files, limits
      expr := fun scope e => w.exprStep scope e
      block := fun scope body => w.blockStep scope body
      assign := fun scope target value => w.assignStep scope target value
      element := fun iterable span => w.elementStep iterable span
      call := fun callee args span => w.callStep callee args span
      load := fun path => w.loadWith (Analysis.overseen objection) path }

/-! ### What a walk leaves alone -/

/-- Files that are known keep their status, unless they are at one of some places. -/
def KeepsFiles (out : List Component → Prop) {α : Type} (m : Analysis α) : Prop :=
  ∀ s a s', m.run s = .ok (a, s') → ∀ place status, ¬out place →
    s.modules.get? place = some status → s'.modules.get? place = some status

namespace KeepsFiles

variable {out : List Component → Prop} {α : Type} {m : Analysis α} {p : Path}

theorem mono (keeps : KeepsFiles (fun _ => False) m) : KeepsFiles out m :=
  fun s a s' ran place status _ => keeps s a s' ran place status id

theorem modify {g : State → State} (keeps : ∀ s place, ¬out place →
    (g s).modules.get? place = s.modules.get? place) : KeepsFiles out (modify g) := by
  rintro s _ _ ⟨⟩ place status other known
  exact (keeps s place other).trans known

theorem steady (out : List Component → Prop) : Steady fun _ m => KeepsFiles out m where
  pure := by
    rintro α a s _ _ ⟨⟩ place status _ known
    exact known
  throw := by rintro α stop s a s' ⟨⟩
  bind := by
    intro α β m f first next s b s'' ran place status other known
    obtain ⟨a, s', ran, ran'⟩ := Walks.run_bind ran
    exact next a s' b s'' ran' place status other (first s a s' ran place status other known)
  look := fun _ next s => next s s
  change := by
    intro α f refile s a s' ran place status _ known
    have same : (f s).2 = (f s).2.refile s.records := congrArg Prod.snd (refile s s.records)
    have ran : f s = (a, s') := Except.ok.inj ran
    rw [ran] at same
    rwa [show s' = s'.refile s.records from same]
  debug := by
    rintro text s _ _ ⟨⟩ place status _ known
    exact known

theorem setStatus : KeepsFiles (· = p.components) (Analysis.setStatus p status) :=
  modify fun s _ other => (s.modules.get?_insert _ _ _).trans (if_neg other)

theorem advanceTo : KeepsFiles (· = p.components) (Analysis.advanceTo p stage) :=
  modify fun s _ other => (s.modules.get?_modify _ _ _).trans (if_neg other)

theorem fail : KeepsFiles (· = p.components) (Analysis.fail p message) :=
  (steady _).bind (modify fun _ _ _ => rfl) fun _ =>
    modify fun s _ other => (s.modules.get?_insert _ _ _).trans (if_neg other)

section

variable {w : Walker}
  (level : ∀ scope, (Steady.trait (fun _ m => KeepsFiles (fun _ => False) m) w).Hereditary scope)

include level

theorem walkModule : KeepsFiles (· = p.components) (w.walkModule p tree) := by
  have h := steady (· = p.components)
  have c := h.composed w
  refine h.bind c.introduceModule fun value => h.bind setStatus fun _ => ?_
  refine h.bind c.tableOf fun table => ?_
  split
  · exact h.pure
  · next table =>
    refine h.bind (h.bind (h.declareModule w) fun _ => h.bind advanceTo fun _ => ?_) fun _ => h.pure
    refine h.bind (h.bind (level table).block.mono fun _ => h.pure) fun _ => ?_
    exact h.bind advanceTo fun _ => h.debug

/-- A file that is known when another one is loaded stays where it is, also if it is loaded again. -/
theorem loadStep (p : Path) : KeepsFiles (fun _ => False) (w.loadStep p) := by
  intro s a s' ran place status inside known
  unfold Walker.loadStep at ran
  obtain ⟨_, _, ⟨⟩, ran⟩ := Walks.run_bind ran
  cases found : s.status? p with
  | some status' =>
    rw [found] at ran
    cases ran
    exact known
  | none =>
    have other : place ≠ p.components := by
      rintro rfl
      cases found.symm.trans known
    rw [found] at ran
    have h := steady (· = p.components)
    refine (?_ : KeepsFiles (· = p.components) _) s a s' ran place status other known
    refine h.bind setStatus fun _ => h.bind (level ⟨0⟩).ask.mono fun text => ?_
    split
    · exact h.bind fail fun _ => h.pure
    · refine h.look (fun _ _ => rfl) fun s => ?_
      split
      · exact h.bind fail fun _ => h.pure
      · refine h.bind (h.change fun _ _ => rfl) fun _ => h.bind h.debug fun _ => ?_
        exact h.bind (walkModule level) fun _ => h.pure

end
end KeepsFiles

theorem keepsFiles_walker (files : FileSystem) (limits : Limits) (n : Nat) (scope : ScopeId) :
    (Steady.trait (fun _ m => KeepsFiles (fun _ => False) m) (walker files limits n)).Hereditary
      scope :=
  (KeepsFiles.steady _).hereditary
    ((KeepsFiles.steady _).below (fun _ level path => KeepsFiles.loadStep level path) n) scope

/-! ### Nobody objects -/

/-- Where the file has the status, one activity does what the other does. -/
def SameAt (p : Path) (status : FileStatus) {α : Type} (m m' : Analysis α) : Prop :=
  ∀ s : State, s.status? p = some status → m'.run s = m.run s

theorem SameAt.bind {m : Analysis α} {f f' : α → Analysis β} (keeps : KeepsFiles (fun _ => False) m)
    (next : ∀ a, SameAt p status (f a) (f' a)) : SameAt p status (m >>= f) (m >>= f') := by
  intro s known
  rw [StateT.run_bind, StateT.run_bind]
  cases ran : m.run s with
  | error stop => rfl
  | ok result =>
    obtain ⟨a, s'⟩ := result
    exact next a s' (keeps s a s' ran p.components status id known)

section

variable {objection : Option FileStatus → Option FileStatus → Option Stop}
  (accepts : ∀ a b, ReflGen Next a b → objection a b = none)

include accepts

theorem run_overseen {s : State} {g : State → State}
    (steps : ∀ place, ReflGen Next (s.modules.get? place) ((g s).modules.get? place)) :
    (Analysis.overseen objection g).run s = .ok ((), g s) := by
  have none : (((s.modules.entries ++ (g s).modules.entries).map (·.1)).findSome? fun place =>
      objection (s.modules.get? place) ((g s).modules.get? place)) = none :=
    List.findSome?_eq_none_iff.mpr fun place _ => accepts _ _ (steps place)
  unfold Analysis.overseen
  rw [Walks.run_bind_eq (rfl : (get : Analysis State).run s = .ok (s, s))]
  dsimp only
  rw [none]
  rfl

theorem run_overseen_step {s : State} {g : State → State} {status : FileStatus}
    (moves : ∀ place, (g s).modules.get? place =
      if place = p.components then some status else s.modules.get? place)
    (next : Next (s.status? p) (some status)) :
    (Analysis.overseen objection g).run s = .ok ((), g s) ∧ (g s).status? p = some status := by
  refine ⟨run_overseen accepts fun place => ?_, (moves _).trans (if_pos rfl)⟩
  rw [moves]
  split
  · next here =>
    rw [here]
    exact .single next
  · exact .refl

theorem SameAt.step {f f' : Unit → Analysis α} {g : State → State} {x y : FileStatus}
    (next : Next (some x) (some y))
    (moves : ∀ s : State, s.status? p = some x → ∀ place, (g s).modules.get? place =
      if place = p.components then some y else s.modules.get? place)
    (rest : SameAt p y (f ()) (f' ())) :
    SameAt p x (modify g >>= f) (Analysis.overseen objection g >>= f') := by
  intro s known
  obtain ⟨ran, status⟩ := run_overseen_step accepts (moves s known) (by rwa [known])
  rw [Walks.run_bind_eq ran]
  exact rest (g s) status

theorem SameAt.advance {f f' : Unit → Analysis α} {x : FileStatus}
    (next : Next (some x) (some (x.advance stage)))
    (rest : SameAt p (x.advance stage) (f ()) (f' ())) :
    SameAt p x (advanceTo p stage >>= f) (Analysis.overseen objection (·.advance p stage) >>= f') := by
  refine SameAt.step accepts next (fun s known place => ?_) rest
  refine (s.modules.get?_modify _ _ _).trans ?_
  split
  · next here =>
    rw [here]
    exact congrArg _ known
  · rfl

theorem SameAt.setStatus {f f' : Unit → Analysis α} {x y : FileStatus} (next : Next (some x) (some y))
    (rest : SameAt p y (f ()) (f' ())) :
    SameAt p x (setStatus p y >>= f) (Analysis.overseen objection (·.setStatus p y) >>= f') :=
  SameAt.step accepts next (fun s _ _ => s.modules.get?_insert _ _ _) rest

theorem SameAt.fail {f : Unit → Analysis α} : SameAt p .unparsed (fail p message >>= f)
    (Walker.failWith (Analysis.overseen objection) p message >>= f) := by
  simp only [Analysis.fail, Walker.failWith, bind_assoc]
  refine .bind (.modify fun _ _ _ => rfl) fun _ => ?_
  exact .step accepts .failed (fun s _ _ => s.modules.get?_insert _ _ _) fun _ _ => rfl

section

variable {w : Walker}
  (level : ∀ scope, (Steady.trait (fun _ m => KeepsFiles (fun _ => False) m) w).Hereditary scope)

include level

theorem sameAt_walkModule : SameAt p .unparsed (w.walkModule p tree)
    (w.walkModuleWith (Analysis.overseen objection) p tree) := by
  have h := KeepsFiles.steady fun _ => False
  have c := h.composed w
  refine .bind c.introduceModule fun value => .setStatus accepts (.parsed value tree) ?_
  refine .bind c.tableOf fun table => ?_
  split
  · exact fun _ _ => rfl
  · next table =>
    simp only [Walker.walkBody, Walker.walkBodyWith, bind_assoc]
    refine .bind (h.declareModule w) fun _ => .advance accepts (.bound value tree) ?_
    refine .bind (c.discard (level table).block) fun _ => ?_
    exact .advance accepts (.inferred value tree) fun _ _ => rfl

theorem loadWith_overseen (p : Path) :
    w.loadWith (Analysis.overseen objection) p = w.loadWith modify p := by
  funext s
  rw [Walker.loadWith_modify]
  unfold Walker.loadWith Walker.loadStep
  have known : (get : Analysis State).run s = .ok (s, s) := rfl
  refine (Walks.run_bind_eq known).trans (Eq.trans ?_ (Walks.run_bind_eq known).symm)
  cases found : s.status? p with
  | some status => rfl
  | none =>
    obtain ⟨ran, status⟩ := run_overseen_step accepts (g := (·.setStatus p .unparsed))
      (fun place => s.modules.get?_insert _ _ _) (by rw [found]; exact .mentioned)
    dsimp only
    rw [Walks.run_bind_eq ran, Walks.run_bind_eq (rfl : (setStatus p .unparsed).run s = .ok ((), _))]
    refine (?_ : SameAt p .unparsed _ _) _ status
    refine .bind (level ⟨0⟩).ask fun text => ?_
    cases text with
    | error e => exact .fail accepts
    | ok source =>
      refine .bind (fun _ _ _ ran _ _ _ known => by cases ran; exact known) fun s => ?_
      cases Module.parse source p.toString s.nextNode with
      | error e => exact .fail accepts
      | ok parsed =>
        refine .bind (.modify fun _ _ _ => rfl) fun _ => .bind (KeepsFiles.steady _).debug fun _ => ?_
        intro s known
        rw [StateT.run_bind, StateT.run_bind, sameAt_walkModule accepts level s known]

end

theorem overseen_eq (files : FileSystem) (limits : Limits) (n : Nat) :
    overseen objection files limits n = walker files limits n := by
  induction n with
  | zero => rfl
  | succ n ih =>
    have loads := loadWith_overseen accepts (keepsFiles_walker files limits n)
    simp only [overseen, walker, ih, loads, Walker.loadWith_modify]

theorem finishWith_overseen (w : Walker) :
    w.finishWith (Analysis.overseen objection) = w.finishWith modify := by
  refine bind_congr fun _ => funext fun s => run_overseen accepts fun place => ?_
  show ReflGen Next _ ((s.modules.mapValues (·.finish)).get? place)
  rw [InsertionMap.get?_mapValues]
  cases s.modules.get? place with
  | none => exact .refl
  | some status => exact status.next_finish

end

end FlowTypes
