import FlowTypes.Proofs.FrameBalance

/-! Walking an expression or a statement leads to everything in it, except for the bodies of functions
and for what the walk has no use for. -/
namespace FlowTypes

open Analysis

namespace State

variable {s s' : State}

def Marks (s : State) : Site → Prop
  | .noted node => (s.nodeTypes.get? node).isSome = true
  | .met d => (s.functions.get? d.node.id).isSome = true
  | _ => True

/-- The walk has been to a place and to everything that the place leads to. -/
inductive Visited (s : State) : Site → Prop
  | intro {q : Site} (own : s.Marks q) (parts : ∀ r ∈ q.parts, s.Visited r) : s.Visited q

theorem Visited.part (visited : s.Visited q) (part : r ∈ q.parts) : s.Visited r := by
  cases visited with
  | intro _ parts => exact parts r part

theorem Visited.own (visited : s.Visited q) : s.Marks q := by
  cases visited with
  | intro own _ => exact own

theorem Grows.marks (grows : s.Grows s') (own : s.Marks q) : s'.Marks q := by
  cases q with
  | noted node => exact grows.noted node own
  | met d =>
    obtain ⟨fn, known⟩ := Option.isSome_iff_exists.mp own
    exact Option.isSome_iff_exists.mpr ⟨fn, grows.met _ fn known⟩
  | value | target | index | stmt => trivial

theorem Visited.mono (visited : s.Visited q) (grows : s.Grows s') : s'.Visited q := by
  induction visited with
  | intro own _ ih => exact .intro (grows.marks own) ih

end State

/-- An activity that has been to some places at its end. -/
def Visits {α : Type} (m : Analysis α) (sites : List Site) : Prop :=
  ∀ s a s', s.Classed → m.run s = .ok (a, s') → s.Grows s' ∧ ∀ q ∈ sites, s'.Visited q

namespace Visits

variable {α β : Type} {m : Analysis α} {f : α → Analysis β} {A B : List Site}

theorem of_quiet (quiet : Quiet m) : Visits m [] := by
  intro s a s' _ ran
  exact ⟨(quiet s a s' ran).grows, List.forall_mem_nil _⟩

theorem spared (holds : Quiet.trait.holds [] fun _ => m) : Visits m [] := .of_quiet (.of holds)

theorem bind (first : Visits m A) (next : ∀ a, Visits (f a) B) : Visits (m >>= f) (A ++ B) := by
  intro s b s'' classed ran
  obtain ⟨a, s', ran, ran'⟩ := Walks.run_bind ran
  obtain ⟨grows, visited⟩ := first s a s' classed ran
  obtain ⟨grows', visited'⟩ := next a s' b s'' (grows.classed classed) ran'
  refine ⟨grows.trans grows', List.forall_mem_append.mpr ⟨fun q member => ?_, visited'⟩⟩
  exact (visited q member).mono grows'

/-- A place that leaves no mark itself has been come to with all that it leads to. -/
theorem site (own : ∀ s : State, s.Marks q) (visits : Visits m q.parts) : Visits m [q] := by
  intro s a s' classed ran
  obtain ⟨grows, visited⟩ := visits s a s' classed ran
  exact ⟨grows, List.forall_mem_singleton.mpr (.intro (own s') visited)⟩

/-- To have been to some places, as a trait of a walk. -/
abbrev trait (w : Walker) : Trait := ⟨fun A F => Visits (F w) A⟩

theorem composed (w : Walker) : (trait w).Composed where
  pure := .of_quiet .pure
  throw := fun _ _ _ _ ran => nomatch ran
  seq := bind
  same := fun same visits s a s' classed ran => by
    obtain ⟨grows, visited⟩ := visits s a s' classed ran
    exact ⟨grows, fun q member => visited q ((same q).mpr member)⟩
  site := fun {_ q _} plain => site fun _ => by
    cases q with
    | noted | met => cases plain
    | value | target | index | stmt => trivial
  look := fun _ next s a s' classed ran => next s s a s' classed ran
  heap := fun spares => .spared (Quiet.composed.heap spares)
  note := fun note => .spared (Quiet.composed.note note)
  debug := .spared Quiet.composed.debug
  bindTo := .spared Quiet.composed.bindTo

end Visits

/-! ### Marks -/

theorem visits_recordType : Visits (recordType node type) [.noted node] := by
  intro s a s' classed ran
  obtain ⟨grows, _⟩ := Visits.spared Quiet.composed.recordType s a s' classed ran
  obtain ⟨_, _, ⟨⟩, ran⟩ := Walks.run_bind ran
  obtain ⟨merged, s₁, _, ran⟩ := Walks.run_bind ran
  cases ran
  constructor
  · exact grows
  · intro q member
    obtain rfl := List.mem_singleton.mp member
    apply State.Visited.intro
    · show ((s₁.nodeTypes.insert node merged).get? node).isSome = true
      rw [InsertionMap.get?_insert, if_pos rfl]
      rfl
    · exact List.forall_mem_nil _

theorem visits_defineValue
    (kept : ∀ outer f, (complete outer f).lineage = f.lineage ∧
      (complete outer f).arrows = f.arrows) :
    Visits (defineValue scope d complete) [.met d] := by
  intro s fn s' classed ran
  suffices found : s.Grows s' ∧ s'.functions.get? d.node.id = some fn by
    constructor
    · exact found.1
    · intro q member
      obtain rfl := List.mem_singleton.mp member
      apply State.Visited.intro
      · exact Option.isSome_iff_exists.mpr ⟨fn, found.2⟩
      · exact List.forall_mem_nil _
  cases known : s.functions.get? d.node.id with
  | none =>
    obtain ⟨_, meets⟩ := Watch.run_defineValue_new kept known ran
    constructor
    · exact Watch.grows_defineValue_new known ran
    · rw [meets.functions, InsertionMap.get?_insert, if_pos rfl]
  | some g =>
    obtain ⟨_, _, ⟨⟩, ran⟩ := Walks.run_bind ran
    rw [known] at ran
    have quiet : Quiet (modifyTypes (·.modifyFunction g fun f => { f with env := scope }) >>=
        fun _ => pure g : Analysis TypeId) :=
      .bind (quiet_modifyFunction fun _ => rfl) fun _ => .pure
    have quietly := quiet _ _ _ ran
    obtain ⟨_, _, ⟨⟩, ⟨⟩⟩ := Walks.run_bind ran
    exact ⟨quietly.grows, known⟩

theorem isClass_defineClass {s s' : State} {scope : ScopeId} {d : ClassDef Stmt} {c : TypeId}
    (classed : s.Classed) (ran : (defineClass scope d).run s = .ok (c, s')) :
    (s'.types.get c).isClass = true := by
  obtain ⟨_, _, ⟨⟩, ran⟩ := Walks.run_bind ran
  cases known : s.classes.get? d.node.id with
  | some c' =>
    rw [known] at ran
    cases ran
    exact classed _ _ known
  | none =>
    rw [known] at ran
    obtain ⟨_, _, ⟨⟩, ran⟩ := Walks.run_bind ran
    obtain ⟨_, s₁, made, ran⟩ := Walks.run_bind ran
    obtain ⟨_, _, ⟨⟩, ran⟩ := Walks.run_bind ran
    obtain ⟨_, s₂, defined, ⟨⟩⟩ := Walks.run_bind ran
    have isClass := isClass_newClass made
    exact (Quiet.of Quiet.composed.defineClassAttributes _ _ _ defined).types.isClass isClass

/-! ### The walk -/

theorem visits_aside (files : FileSystem) (limits : Limits) (n : Nat) {F : Walker → Analysis α}
    (tracks : (Watch.of .free files limits n).Tracks .full true F) :
    Visits (F (walker files limits n)) [] := by
  intro s a s' _ ran
  obtain ⟨_, known⟩ := (tracks s trivial).same id
  exact ⟨(known a s' ran).2.grows, List.forall_mem_nil _⟩

section

variable {w : Walker} (below : ∀ scope, (Visits.trait w).Below scope)

include below

theorem visits_classDef : Visits (w.classDef scope d) [.stmt (.classDef d)] := by
  refine .site (fun _ => trivial) fun s a s'' classed ran => ?_
  obtain ⟨c, s', defined, ran⟩ := Walks.run_bind ran
  have quietly := quiet_defineClass s c s' defined
  have isClass := isClass_defineClass classed defined
  obtain ⟨_, _, ⟨⟩, ran⟩ := Walks.run_bind ran
  have table : ∃ table, s'.types.tableOf c = some table := by
    unfold TypeStore.tableOf
    cases type : s'.types.get c with
    | classType data => exact ⟨data.table, rfl⟩
    | _ =>
      rw [type] at isClass
      cases isClass
  obtain ⟨table, found⟩ := table
  dsimp only at ran
  rw [found] at ran
  obtain ⟨grows, visited⟩ := (below table).classBody _ _ _ (quietly.grows.classed classed) ran
  exact ⟨quietly.grows.trans grows, visited⟩

theorem visits_bodyWith : (Visits.trait w).holds d.sites fun v => v.bodyWith f d types := by
  have c := Visits.composed w
  refine c.bind c.newLocals fun scope => c.bind c.bindLocals fun _ => ?_
  cases d with
  | function d =>
    exact c.before (below scope).block fun flow => c.returnOfFlow
  | lambda node parameters body => exact (below scope).expr

end

theorem visits_walker : ∀ scope, (Visits.trait (walker files limits n)).Below scope := by
  refine Trait.below_walker (P := fun _ _ A m => Visits m A) (fun w _ => Visits.composed w)
    visits_recordType (.of_quiet .undefine) (fun n below scope => ?_) (fun n _ _ path => ?_) n
  · have holds := Watch.holds .free files limits n
    have defaulted : ∀ {fn defaults}, Visits (Walker.setDefaults fn defaults) [] :=
      .of_quiet quiet_setDefaults
    exact { below scope with
      yieldValue := visits_aside files limits n Watch.tracks_yieldValue
      apply := visits_aside files limits n (Watch.tracks_apply holds)
      function := (below scope).function defaulted (visits_defineValue fun _ _ => ⟨rfl, rfl⟩)
      lambda := (below scope).lambda defaulted (visits_defineValue fun _ _ => ⟨rfl, rfl⟩)
      classDef := visits_classDef below }
  · exact visits_aside files limits n (Watch.tracks_loadStep (Watch.holds .free files limits n))

end FlowTypes
