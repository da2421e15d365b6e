import FlowTypes.FileSystem.Memory
import FlowTypes.Proofs.Heredity.Steady
import FlowTypes.Proofs.Places.Statements
import FlowTypes.Proofs.Walk.Start

/-! Files that cannot be loaded. They may be asked for directly, by imports in the middle of other
files, twice or never; whoever asks for them gets nothing. Main statement: loading a list of files and
loading the list without such files come to the same, up to the records about those files. -/
namespace FlowTypes

open Analysis

/-- Nothing can be loaded from the place, however the path to it is written: the file cannot be read,
or what is read off it cannot be parsed. -/
def FileSystem.Fails (files : FileSystem) (place : List Component) : Prop :=
  ∀ p : Path, p.components = place → files.isSeen p = true ∧
    ∀ source, files.read p = .ok source → (Module.parse source p.toString 0).isOk = false

/-- A text that is refused once is refused whenever it is read. -/
theorem FileSystem.Fails.parse {files : FileSystem} (fails : files.Fails p.components)
    (read : files.read p = .ok source) :
    ∃ e, Module.parse source p.toString first = .error e := by
  have refused := (fails p rfl).2 source read
  rw [Module.isOk_parse] at refused
  cases parsed : Module.parse source p.toString first with
  | error e => exact ⟨e, rfl⟩
  | ok parsed' => rw [parsed] at refused; cases refused

namespace InsertionMap

variable {κ ν : Type} [DecidableEq κ] {m : InsertionMap κ ν} {k : κ} {F : κ → Bool}

/-- The entries without those under some of the keys. -/
def without (m : InsertionMap κ ν) (F : κ → Bool) : InsertionMap κ ν :=
  ⟨m.entries.filter fun e => !F e.1⟩

theorem get?_without (kept : F k = false) : (m.without F).get? k = m.get? k := by
  unfold get? without
  induction m.entries with
  | nil => rfl
  | cons e entries ih =>
    obtain ⟨key, value⟩ := e
    by_cases same : k = key
    · subst same
      simp [kept]
    · by_cases out : F key = true
      · simpa [out, List.lookup_cons, beq_false_of_ne same] using ih
      · simpa [out, List.lookup_cons, beq_false_of_ne same] using ih

theorem without_insert_of_pos (out : F k = true) : (m.insert k v).without F = m.without F := by
  unfold insert
  split
  · simp only [without, mk.injEq]
    induction m.entries with
    | nil => rfl
    | cons e entries ih =>
      rw [List.map_cons, List.filter_cons, List.filter_cons, ih]
      by_cases own : e.1 = k
      · simp [own, out]
      · simp [own]
  · simp [without, out]

theorem without_insert_of_neg (kept : F k = false) :
    (m.insert k v).without F = (m.without F).insert k v := by
  have known : (m.without F).contains k = m.contains k := by
    rw [contains, contains, get?_without kept]
  unfold insert
  rw [known]
  split
  · simp only [without, mk.injEq, List.filter_map]
    congr 1
    refine List.filter_congr fun e _ => ?_
    by_cases own : e.1 = k <;> simp [own]
  · simp [without, kept]

theorem without_modify : (m.modify k f).without F = (m.without F).modify k f := by
  simp only [modify, without, mk.injEq, List.filter_map]
  congr 1
  refine List.filter_congr fun e _ => ?_
  by_cases own : e.1 = k <;> simp [own]

end InsertionMap

namespace Records

variable {F : List Component → Bool} {r q : Records}

/-- About some files no more is known than that they can not be loaded. -/
def Unread (F : List Component → Bool) (r : Records) : Prop :=
  ∀ place, F place = true → r.modules.get? place = none ∨ r.modules.get? place = some .failed

/-- The records without what they say about some files. -/
def without (F : List Component → Bool) (r : Records) : Records where
  modules := r.modules.without F
  failed := r.failed.filter fun p => !F p.components
  journal := r.journal.filter fun record => record.level ≠ .warn

variable {place : List Component}

theorem Unread.insert (unread : r.Unread F) (allowed : F place = true → status = .failed) :
    Unread F { r with modules := r.modules.insert place status } := by
  intro other out
  show (r.modules.insert place status).get? other = none ∨
    (r.modules.insert place status).get? other = some .failed
  rw [InsertionMap.get?_insert]
  split
  · next own =>
    subst own
    exact .inr (congrArg some (allowed out))
  · exact unread other out

theorem Unread.modify (unread : r.Unread F) :
    Unread F { r with modules := r.modules.modify place (·.advance stage) } := by
  intro other out
  show (r.modules.modify place (·.advance stage)).get? other = none ∨
    (r.modules.modify place (·.advance stage)).get? other = some .failed
  rw [InsertionMap.get?_modify]
  split
  · rcases unread other out with known | known <;> rw [known]
    · exact .inl rfl
    · exact .inr rfl
  · exact unread other out

/-- Records that differ in what they say about some files, which could not be loaded. -/
structure Alike (F : List Component → Bool) (r q : Records) : Prop where
  same : q.without F = r.without F
  unread : r.Unread F
  unread' : q.Unread F

end Records

namespace State

variable {F : List Component → Bool} {s t : State}

/-- States that differ in the records about some files, which could not be loaded. -/
structure Alike (F : List Component → Bool) (s t : State) : Prop where
  rest : t = s.refile t.records
  records : s.records.Alike F t.records

end State

/-- Two runs stop for the same reason, or they return the same and lead to states that are alike. -/
inductive Matches (F : List Component → Bool) {α : Type} :
    Except Stop (α × State) → Except Stop (α × State) → Prop
  | stopped (stop : Stop) : Matches F (.error stop) (.error stop)
  | done (a : α) {s t : State} (alike : s.Alike F t) : Matches F (.ok (a, s)) (.ok (a, t))

theorem Matches.inv (matched : Matches F x y) : (∃ stop, x = .error stop ∧ y = .error stop) ∨
      ∃ a s t, x = .ok (a, s) ∧ y = .ok (a, t) ∧ s.Alike F t := by
  cases matched with
  | stopped stop => exact .inl ⟨stop, rfl, rfl⟩
  | done a alike => exact .inr ⟨a, _, _, rfl, rfl, alike⟩

theorem Matches.bind {x y : Except Stop (α × State)} {f g : α × State → Except Stop (β × State)}
    (first : Matches F x y) (next : ∀ a s t, s.Alike F t → Matches F (f (a, s)) (g (a, t))) :
    Matches F (x.bind f) (y.bind g) := by
  cases first with
  | stopped stop => exact .stopped stop
  | done a alike => exact next a _ _ alike

/-- An activity that does not see what is known about some files. -/
def Blind (F : List Component → Bool) {α : Type} (m : Analysis α) : Prop :=
  ∀ s t : State, s.Alike F t → Matches F (m.run s) (m.run t)

namespace Blind

variable {F : List Component → Bool} {α β : Type} {m : Analysis α}
  {f : α → Analysis β}

theorem pure : Blind F (Pure.pure a) := fun _ _ alike => .done a alike

theorem throw : Blind F (throw stop : Analysis α) := fun _ _ _ => .stopped stop

theorem bind (first : Blind F m) (next : ∀ a, Blind F (f a)) : Blind F (m >>= f) := by
  intro s t alike
  rw [StateT.run_bind, StateT.run_bind]
  exact (first s t alike).bind fun a s t alike => next a s t alike

theorem read (same : ∀ s t : State, s.Alike F t → k t = k s) (next : ∀ s, Blind F (k s)) :
    Blind F (get >>= k) := by
  intro s t alike
  show Matches F ((k s).run s) ((k t).run t)
  rw [same s t alike]
  exact next s s t alike

theorem look (same : ∀ s r, k (s.refile r) = k s) (next : ∀ s, Blind F (k s)) :
    Blind F (get >>= k) := by
  refine read (fun s t alike => ?_) next
  rw [alike.rest]
  exact same s _

theorem modifyGet {f : State → α × State}
    (refile : ∀ s r, f (s.refile r) = ((f s).1, (f s).2.refile r)) :
    Blind F (modifyGet f) := by
  intro s t alike
  have kept : (f s).2.records = s.records := by
    have same : (f s).2 = (f s).2.refile s.records := congrArg Prod.snd (refile s s.records)
    rw [same]
    rfl
  have other : f t = ((f s).1, (f s).2.refile t.records) := by
    conv_lhs => rw [alike.rest]
    exact refile s t.records
  show Matches F (.ok (f s)) (.ok (f t))
  rw [other]
  refine .done (f s).1 ⟨rfl, ?_⟩
  rw [kept]
  exact alike.records

theorem debug : Blind F (Analysis.debug text) := by
  intro s t alike
  refine .done () ⟨?_, ⟨?_, alike.records.unread, alike.records.unread'⟩⟩
  · exact congrArg (·.log .debug text) alike.rest
  · have same := alike.records.same
    have journal := congrArg Records.journal same
    simp only [Records.without, Records.mk.injEq] at same journal ⊢
    refine ⟨same.1, same.2.1, ?_⟩
    show List.filter _ (_ :: t.journal) = List.filter _ (_ :: s.journal)
    rw [List.filter_cons_of_pos (by rfl), List.filter_cons_of_pos (by rfl)]
    exact congrArg _ journal

/-- Being blind as a trait of a walk. -/
abbrev trait (F : List Component → Bool) (w : Walker) : Trait := Steady.trait (fun _ m => Blind F m) w

theorem steady (F : List Component → Bool) : Steady fun _ m => Blind F m where
  pure := pure
  throw := throw
  bind := bind
  look := look
  change := modifyGet
  debug := debug

/-! ### Files -/

theorem onRecords {h : Records → Records} (change : ∀ s : State, g s = s.refile (h s.records))
    (keeps : ∀ r q : Records, r.Alike F q → (h r).Alike F (h q)) : Blind F (modify g) := by
  intro s t alike
  show Matches F (.ok ((), g s)) (.ok ((), g t))
  rw [change s, change t]
  refine .done () ⟨?_, keeps _ _ alike.records⟩
  conv_lhs => rw [alike.rest]
  rfl

variable {p : Path}

theorem setStatus (kept : F p.components = false) : Blind F (Analysis.setStatus p status) := by
  refine onRecords (h := fun r => { r with modules := r.modules.insert p.components status })
    (fun _ => rfl) fun r q alike => ⟨?_, ?_, ?_⟩
  · have same := alike.same
    simp only [Records.without, Records.mk.injEq] at same ⊢
    simp only [InsertionMap.without_insert_of_neg kept, same, and_self]
  · exact alike.unread.insert fun out => absurd out (by simp [kept])
  · exact alike.unread'.insert fun out => absurd out (by simp [kept])

theorem advanceTo : Blind F (Analysis.advanceTo p stage) := by
  refine onRecords (h := fun r =>
    { r with modules := r.modules.modify p.components (·.advance stage) })
    (fun _ => rfl) fun r q alike => ⟨?_, alike.unread.modify, alike.unread'.modify⟩
  have same := alike.same
  simp only [Records.without, Records.mk.injEq] at same ⊢
  simp only [InsertionMap.without_modify, same, and_self]

theorem fail (kept : F p.components = false) : Blind F (Analysis.fail p message) := by
  refine bind (onRecords (h := fun r => { r with journal := ⟨.warn, message⟩ :: r.journal })
    (fun _ => rfl) fun r q alike => ⟨?_, alike.unread, alike.unread'⟩) fun _ => ?_
  · have same := alike.same
    simp only [Records.without, Records.mk.injEq] at same ⊢
    simpa using same
  · refine onRecords (h := fun r => { r with
        modules := r.modules.insert p.components .failed, failed := r.failed ++ [p] })
      (fun _ => rfl) fun r q alike => ⟨?_, ?_, ?_⟩
    · have same := alike.same
      simp only [Records.without, Records.mk.injEq] at same ⊢
      simp only [InsertionMap.without_insert_of_neg kept, List.filter_append, same, and_self]
    · exact alike.unread.insert fun out => absurd out (by simp [kept])
    · exact alike.unread'.insert fun out => absurd out (by simp [kept])

theorem status?_eq {s : State} (alike : s.Alike F t) (kept : F p.components = false) :
    t.status? p = s.status? p := by
  have same := congrArg (fun r : Records => r.modules.get? p.components) alike.records.same
  simp only [Records.without, InsertionMap.get?_without kept] at same
  exact same

section

variable {w : Walker} (h : ∀ scope, (trait F w).Hereditary scope)

include h

theorem walkModule (kept : F p.components = false) : Blind F (w.walkModule p tree) := by
  have c := (steady F).composed w
  refine bind c.introduceModule fun value => ?_
  refine bind (setStatus kept) fun _ => bind c.tableOf fun table => ?_
  split
  · exact pure
  · next table =>
    refine bind ?_ fun _ => pure
    refine bind ((steady F).declareModule w) fun _ => bind advanceTo fun _ => ?_
    refine bind (c.discard (h table).block) fun _ => ?_
    exact bind advanceTo fun _ => debug

/-- A file that is not among those is loaded in the same way, whether that works or not. -/
theorem loadStep_of_kept (kept : F p.components = false) : Blind F (w.loadStep p) := by
  refine read (fun s t alike => by rw [status?_eq alike kept]) fun s => ?_
  split
  · exact pure
  · refine bind (setStatus kept) fun _ => ?_
    refine bind (h ⟨0⟩).ask fun text => ?_
    split
    · exact bind (fail kept) fun _ => pure
    · refine look (fun _ _ => rfl) fun s => ?_
      split
      · exact bind (fail kept) fun _ => pure
      · next tree next _ =>
        refine bind (modifyGet fun _ _ => rfl) fun _ => bind debug fun _ => ?_
        exact bind (walkModule h kept) fun _ => pure

omit h in
/-- A file that can not be loaded gives nothing, and nothing but the records about it changes. -/
theorem run_loadStep (out : F p.components = true) (fails : w.files.Fails p.components) {s : State}
    (unread : s.records.Unread F) : ∃ r, (w.loadStep p).run s = .ok (none, s.refile r) ∧
      r.without F = s.records.without F ∧ r.Unread F := by
  unfold Walker.loadStep
  rw [Walks.run_bind_eq (rfl : (get : Analysis State).run s = .ok (s, s))]
  rcases unread _ out with new | known
  · have failed : ∀ message, ∃ r : Records,
        ((s.setStatus p .unparsed).log .warn message).fail p = s.refile r ∧
          r.without F = s.records.without F ∧ r.Unread F := by
      intro message
      refine ⟨⟨(s.modules.insert p.components .unparsed).insert p.components .failed,
        s.failed ++ [p], ⟨.warn, message⟩ :: s.journal⟩, rfl, ?_, ?_⟩
      · simp [Records.without, State.records, InsertionMap.without_insert_of_pos out, out]
      · intro other listed
        show ((s.modules.insert p.components .unparsed).insert p.components .failed).get? other =
          none ∨ _ = some FileStatus.failed
        rw [InsertionMap.get?_insert, InsertionMap.get?_insert]
        split
        · exact .inr rfl
        · exact unread other listed
    have asked : (w.ask p (·.textOf p)).run (s.setStatus p .unparsed) =
        .ok (w.files.textOf p, s.setStatus p .unparsed) := by
      simp only [Walker.ask, (fails p rfl).1]
      rfl
    rw [show s.status? p = none from new]
    dsimp only
    rw [Walks.run_bind_eq (rfl : (Analysis.setStatus p .unparsed).run s = .ok ((), _)),
      Walks.run_bind_eq asked]
    cases text : w.files.textOf p with
    | error e =>
      obtain ⟨r, same, rest⟩ := failed e.message
      refine ⟨r, ?_, rest⟩
      rw [← same]
      rfl
    | ok source =>
      have read : w.files.read p = .ok source := by
        unfold FileSystem.textOf at text
        cases found : w.files.read p with
        | error e => rw [found] at text; cases text
        | ok source' => rw [found] at text; cases text; rfl
      obtain ⟨e, wrong⟩ := fails.parse read
      obtain ⟨r, same, rest⟩ := failed s!"failed to parse {p.toString}: {e.message}"
      refine ⟨r, ?_, rest⟩
      rw [← same]
      dsimp only
      rw [Walks.run_bind_eq (rfl : (get : Analysis State).run _ = .ok (_, _))]
      rw [show Module.parse source p.toString (s.setStatus p .unparsed).nextNode = .error e from wrong]
      rfl
  · refine ⟨s.records, ?_, rfl, unread⟩
    rw [show s.status? p = some .failed from known]
    rfl

theorem loadStep (fails : ∀ place, F place = true → w.files.Fails place) :
    Blind F (w.loadStep p) := by
  cases listed : F p.components with
  | false => exact loadStep_of_kept h listed
  | true =>
    intro s t alike
    obtain ⟨r, ran, same, unread⟩ := run_loadStep listed (fails _ listed) alike.records.unread
    obtain ⟨r', ran', same', unread'⟩ := run_loadStep listed (fails _ listed) alike.records.unread'
    rw [ran, ran']
    refine .done none ⟨?_, ⟨?_, unread, unread'⟩⟩
    · conv_lhs => rw [alike.rest]
      rfl
    · exact same'.trans (alike.records.same.trans same.symm)

end

/-- The walk does not see what is known about files that can not be loaded. -/
theorem below (fails : ∀ place, F place = true → files.Fails place) (limits : Limits) (n : Nat) :
    ∀ scope, (trait F (walker files limits n)).Below scope :=
  (steady F).below (fun n level path => loadStep level (by cases n <;> exact fails)) n

theorem matches_forM (fails : ∀ place, F place = true → files.Fails place) {limits : Limits}
    {n : Nat} {paths : List Path} (alike : s.Alike F t) :
    Matches F ((paths.forM fun p => discard ((walker files limits (n + 1)).load p)).run s)
      (((paths.filter fun p => !F p.components).forM
        fun p => discard ((walker files limits (n + 1)).load p)).run t) := by
  have inherits := (steady F).hereditary (below fails limits n)
  have fails : ∀ place, F place = true → (walker files limits n).files.Fails place := by
    cases n <;> exact fails
  induction paths generalizing s t with
  | nil => exact .done () alike
  | cons p paths ih =>
    cases listed : F p.components with
    | true =>
      obtain ⟨r, ran, same, unread⟩ := run_loadStep listed (fails _ listed) alike.records.unread
      have alike : (s.refile r).Alike F t :=
        ⟨alike.rest, alike.records.same.trans same.symm, unread, alike.records.unread'⟩
      have loaded : (discard ((walker files limits (n + 1)).load p)).run s =
          .ok ((), s.refile r) := Walks.run_bind_eq (f := fun _ => Pure.pure ()) ran
      rw [List.filter_cons_of_neg (by simp [listed])]
      show Matches F (StateT.run (_ >>= _) s) _
      rw [Walks.run_bind_eq loaded]
      exact ih alike
    | false =>
      have loaded : Blind F (discard ((walker files limits (n + 1)).load p)) :=
        bind (loadStep inherits fails) fun _ => pure
      rw [List.filter_cons_of_pos (by simp [listed])]
      show Matches F (StateT.run (_ >>= _) s) (StateT.run (_ >>= _) t)
      rw [StateT.run_bind, StateT.run_bind]
      exact (loaded s t alike).bind fun _ _ _ alike => ih alike

end Blind

/-- The state without what it says about some files, which is the entry and the mark of failure of
each; of the log, what is not a warning. -/
def State.without (F : List Component → Bool) (s : State) : State :=
  s.refile (s.records.without F)

/-- Files that cannot be loaded do not disturb the others. The list and the list without some of them,
loaded one after the other from a state that knows no more of those files than that they fail, end
for the same reason, or both lead to a state; and the two states are the same without what they say
about those files, of which they still know no more than that they fail. -/
theorem Walker.loads_without_failing (files : FileSystem) (limits : Limits)
    {F : List Component → Bool} (fails : ∀ place, F place = true → files.Fails place) {s : State}
    (unread : s.records.Unread F) (paths : List Path) :
    (∃ stop,
      (paths.forM fun p => discard ((Walker.of files limits).load p)).run s = .error stop ∧
      ((paths.filter fun p => !F p.components).forM
        fun p => discard ((Walker.of files limits).load p)).run s = .error stop) ∨
    ∃ t t',
      (paths.forM fun p => discard ((Walker.of files limits).load p)).run s = .ok ((), t) ∧
      ((paths.filter fun p => !F p.components).forM
        fun p => discard ((Walker.of files limits).load p)).run s = .ok ((), t') ∧
      t.without F = t'.without F ∧ t.records.Unread F ∧ t'.records.Unread F := by
  obtain ⟨n, levels⟩ : ∃ n, files.allowance = n + 1 :=
    Nat.exists_eq_add_one.mpr (by simp [FileSystem.allowance])
  rw [Walker.of, levels]
  rcases (Blind.matches_forM fails ⟨rfl, rfl, unread, unread⟩).inv with
    ⟨stop, ran, ran'⟩ | ⟨_, t, t', ran, ran', alike⟩
  · exact .inl ⟨stop, ran, ran'⟩
  · refine .inr ⟨t, t', ran, ran', ?_, alike.records.unread, alike.records.unread'⟩
    rw [State.without, State.without, alike.records.same]
    conv_rhs => rw [alike.rest]
    rfl

/-! ### Trees in memory -/

def MemoryEntry.isModule : MemoryEntry → Bool
  | .file text => (Module.parse text "" 0).isOk
  | .directory => false

theorem MemoryTree.fails_of_not_module {t : MemoryTree}
    (none : (t.get? p).any MemoryEntry.isModule = false) : t.fileSystem.Fails p.components := by
  intro q same
  have found : t.get? q = t.get? p := by simp only [MemoryTree.get?, Path.same, same]
  refine ⟨rfl, fun source read => ?_⟩
  unfold MemoryTree.fileSystem at read
  dsimp only at read
  rw [found] at read
  cases entry : t.get? p with
  | none => rw [entry] at read; cases read
  | some entry' =>
    rw [entry] at read none
    cases entry' with
    | file text =>
      cases read
      exact Module.isOk_parse.trans none
    | directory => cases read

/-- One file imports a broken one in its middle. -/
def brokenImport : MemoryTree :=
  ((MemoryTree.file {} "a.py" "x=1\nimport b\ny=x").file "b.py" "x=").file "c.py" "import a\nz=a.y"

/-- The broken file, and one that is not there. -/
def unloadable (place : List Component) : Bool :=
  place ∈ [(Path.ofString "/b.py").components, (Path.ofString "/d.py").components]

def brokenImportLoads (paths : List Path) : Analysis Unit :=
  paths.forM fun p => discard ((Walker.of brokenImport.fileSystem {}).load p)

/-- The broken file comes first and once more, the missing one in between. -/
def brokenImportPaths : List Path :=
  ["/b.py", "/a.py", "/d.py", "/b.py", "/c.py"].map Path.ofString

theorem brokenImport_runs :
    (∃ a t, (brokenImportLoads brokenImportPaths).run State.initial = .ok (a, t) ∧
      t.failed.map (·.toString) = ["/b.py", "/d.py"]) ∧
    ∃ a t, (brokenImportLoads (brokenImportPaths.filter fun p => !unloadable p.components)).run
      State.initial = .ok (a, t) ∧ t.failed.map (·.toString) = ["/b.py"] :=
  ⟨Walks.exists_run (by decide +kernel), Walks.exists_run (by decide +kernel)⟩

theorem brokenImport_loads_without_failing : ∃ t t',
    (brokenImportLoads brokenImportPaths).run State.initial = .ok ((), t) ∧
      t.failed.map (·.toString) = ["/b.py", "/d.py"] ∧
    (brokenImportLoads (brokenImportPaths.filter fun p => !unloadable p.components)).run
      State.initial = .ok ((), t') ∧ t'.failed.map (·.toString) = ["/b.py"] ∧
    t.without unloadable = t'.without unloadable := by
  have fails : ∀ place, unloadable place = true → brokenImport.fileSystem.Fails place := by
    intro place listed
    have listed : place ∈ _ := of_decide_eq_true listed
    simp only [List.mem_cons, List.not_mem_nil, or_false] at listed
    rcases listed with rfl | rfl
    · exact MemoryTree.fails_of_not_module (by decide +kernel)
    · exact MemoryTree.fails_of_not_module (by decide +kernel)
  obtain ⟨⟨_, t, ran, failed⟩, ⟨_, t', ran', failed'⟩⟩ := brokenImport_runs
  refine ⟨t, t', ran, failed, ran', failed', ?_⟩
  unfold brokenImportLoads at ran ran'
  have unread : State.initial.records.Unread unloadable := fun _ _ => .inl rfl
  rcases Walker.loads_without_failing brokenImport.fileSystem {} fails unread brokenImportPaths with
    ⟨stop, stopped, _⟩ | ⟨u, u', done, done', same, _⟩
  · rw [ran] at stopped
    cases stopped
  · rw [ran] at done
    rw [ran'] at done'
    cases done
    cases done'
    exact same

end FlowTypes
