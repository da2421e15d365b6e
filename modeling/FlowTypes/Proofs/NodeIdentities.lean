import FlowTypes.Proofs.FileLifeCycle
import FlowTypes.Proofs.Postorder

/-! Identities of nodes. The identities that are free are handed to the reader of a file, and those that
are left are taken back when it has read the file to its end. Main statement: no two nodes of the files
that a session has read have the same identity. -/
namespace FlowTypes

namespace State

variable {s s' s'' : State}

/-- The content of a file that was read. -/
def tree? (s : State) (p : Path) : Option Module := (s.status? p).bind (·.tree?)

/-- The identities of all nodes of all files that were read are distinct, and none of them is given
away again. -/
structure Numbered (s : State) : Prop where
  distinct : ∀ {p tree}, s.tree? p = some tree → tree.ids.Nodup
  given : ∀ {p tree}, s.tree? p = some tree → ∀ i ∈ tree.ids, i < s.nextNode
  apart : ∀ {p q t u}, s.tree? p = some t → s.tree? q = some u → p.components ≠ q.components →
    t.ids.Disjoint u.ids

/-- Identities are given away for the files that are read on the way from one state to another. -/
structure Numbers (s s' : State) : Prop where
  free : s.nextNode ≤ s'.nextNode
  trees : ∀ {p tree}, s'.tree? p = some tree →
    s.tree? p = some tree ∨ ∀ i ∈ tree.ids, s.nextNode ≤ i
  numbered : s.Numbered → s'.Numbered

theorem Numbers.of_same (trees : ∀ p, s'.tree? p = s.tree? p) (free : s.nextNode ≤ s'.nextNode) :
    s.Numbers s' := by
  constructor
  · exact free
  · intro p tree found
    exact .inl ((trees p).symm.trans found)
  · intro numbered
    constructor
    · intro p tree found
      exact numbered.distinct ((trees p).symm.trans found)
    · intro p tree found i member
      exact Nat.lt_of_lt_of_le (numbered.given ((trees p).symm.trans found) i member) free
    · intro p q t u found found'
      exact numbered.apart ((trees p).symm.trans found) ((trees q).symm.trans found')

theorem Numbers.trans (first : s.Numbers s') (second : s'.Numbers s'') : s.Numbers s'' := by
  constructor
  · exact Nat.le_trans first.free second.free
  · intro p tree found
    rcases second.trees found with known | new
    · exact first.trees known
    · exact .inr fun i member => Nat.le_trans first.free (new i member)
  · exact fun numbered => second.numbered (first.numbered numbered)

theorem tree?_setStatus (s : State) : (s.setStatus p status).tree? q =
      if q.components = p.components then status.tree? else s.tree? q := by
  rw [tree?, status?_setStatus]
  split <;> rfl

theorem tree?_advance (s : State) : (s.advance p stage).tree? q = s.tree? q := by
  rw [tree?, tree?, status?_advance]
  split
  · rcases s.status? q with _ | _ | _ | ⟨_, _, _⟩ <;> rfl
  · rfl

theorem tree?_setStatus_of_vacant (vacant : s.tree? p = none) (without : status.tree? = none) :
    (s.setStatus p status).tree? q = s.tree? q := by
  rw [tree?_setStatus]
  split
  · next same =>
    rw [without, tree?, status?_congr same]
    exact vacant.symm
  · rfl

theorem tree?_of_new (new : s.status? p = none) : s.tree? p = none := by
  rw [tree?, new]
  rfl

theorem tree?_fail (new : s.status? p = none) (q : Path) :
    ((s.setStatus p .unparsed).fail p).tree? q = s.tree? q := by
  have unparsed : ∀ r, (s.setStatus p .unparsed).tree? r = s.tree? r :=
    fun r => tree?_setStatus_of_vacant (tree?_of_new new) rfl
  exact (tree?_setStatus_of_vacant ((unparsed p).trans (tree?_of_new new)) rfl).trans (unparsed q)

theorem tree?_finish (s : State) (p : Path) : s.finish.tree? p = s.tree? p := by
  rw [tree?, tree?, status?_finish]
  rcases s.status? p with _ | _ | _ | ⟨_ | _ | _ | _, _, _⟩ <;> rfl

theorem Numbered.hold (numbered : s.Numbered) (distinct : tree.ids.Nodup)
    (given : ∀ i ∈ tree.ids, i < s.nextNode)
    (others : ∀ {q t}, s.tree? q = some t → t.ids.Disjoint tree.ids) :
    (s.setStatus p (.loaded .parsed value tree)).Numbered := by
  have held : ∀ {q t}, (s.setStatus p (.loaded .parsed value tree)).tree? q = some t →
      q.components = p.components ∧ t = tree ∨ s.tree? q = some t := by
    intro q t found
    rw [tree?_setStatus] at found
    split at found
    · next same =>
      cases found
      exact .inl ⟨same, rfl⟩
    · exact .inr found
  constructor
  · intro q t found
    rcases held found with ⟨_, rfl⟩ | known
    · exact distinct
    · exact numbered.distinct known
  · intro q t found
    rcases held found with ⟨_, rfl⟩ | known
    · exact given
    · exact numbered.given known
  · intro q r t u found found' different
    rcases held found with ⟨same, rfl⟩ | known <;> rcases held found' with ⟨same', rfl⟩ | known'
    · exact absurd (same.trans same'.symm) different
    · exact List.disjoint_symm (others known')
    · exact others known
    · exact numbered.apart known known' different

theorem Step.nextNode (step : Step s s') : s'.nextNode = s.nextNode := by
  cases step <;> rfl

theorem Walked.numbers (walked : Walked s s') : s.Numbers s' := by
  induction walked with
  | refl s => exact .of_same (fun _ => rfl) (Nat.le_refl _)
  | step step =>
    apply Numbers.of_same
    · intro p
      rw [tree?, tree?, status?, status?, step.modules]
    · exact Nat.le_of_eq step.nextNode.symm
  | trans _ _ ih ih' => exact ih.trans ih'
  | @application s s' fn _ _ ih =>
    have entered : s.Numbers (s.enter fn) := .of_same (fun _ => rfl) (Nat.le_refl _)
    have left : s'.Numbers s'.leave := .of_same (fun _ => rfl) (Nat.le_refl _)
    exact (entered.trans ih).trans left
  | @failure s p record new =>
    exact .of_same (tree?_fail new) (Nat.le_refl _)
  | @load s s₁ s₂ s₃ p value tree next new read parsing hv binding inferring body ih ih₁ ih₂ =>
    obtain ⟨source, read⟩ := read
    obtain ⟨distinct, free, given⟩ := Module.ids_parse read
    have vacant := tree?_of_new new
    have parsed : s.Numbers { s.setStatus p .unparsed with nextNode := next } :=
      .of_same (fun _ => tree?_setStatus_of_vacant vacant rfl) free
    have advanced : ∀ {t : State} {stage : Stage}, t.Numbers (t.advance p stage) :=
      .of_same (fun q => tree?_advance _) (Nat.le_refl _)
    have held : s.Numbers (s₁.setStatus p (.loaded .parsed value tree)) := by
      have walked := parsed.trans ih
      constructor
      · exact walked.free
      · intro q t found
        rw [tree?_setStatus] at found
        split at found
        · cases found
          exact .inr fun i member => (given i member).1
        · exact walked.trees found
      · intro numbered
        apply (walked.numbered numbered).hold distinct
        · intro i member
          exact Nat.lt_of_lt_of_le (given i member).2 ih.free
        · -- Other files were read before this one got its identities, or after that.
          intro q t found i member member'
          rcases ih.trees found with known | new
          · have before := numbered.given ((tree?_setStatus_of_vacant vacant rfl).symm.trans known)
            exact Nat.not_le_of_lt (before i member) (given i member').1
          · exact Nat.not_le_of_lt (given i member').2 (new i member)
    exact ((held.trans ih₁).trans advanced).trans (ih₂.trans advanced)

theorem Called.numbered (called : Called s s') (numbered : s.Numbered) : s'.Numbered := by
  induction called with
  | walked walked => exact walked.numbers.numbered numbered
  | trans _ _ ih ih' => exact ih' (ih numbered)
  | root | taken => exact ⟨numbered.distinct, numbered.given, numbered.apart⟩
  | @finished s done =>
    exact (Numbers.of_same s.tree?_finish (Nat.le_refl _)).numbered numbered

theorem initial_numbered : State.initial.Numbered := by
  have none : ∀ {p tree}, State.initial.tree? p ≠ some tree := by
    rintro _ _ ⟨⟩
  constructor
  · exact fun found => absurd found none
  · exact fun found => absurd found none
  · exact fun found => absurd found none

end State

/-- After any calls, no two nodes of the files that were read have the same identity, and all identities
that are in use come before those that are free. -/
theorem Session.identities_distinct {s : State} (session : Session s) : s.Numbered :=
  session.called.numbered State.initial_numbered

/-- A file that imports two others, one of which can not be parsed. -/
def broken : FileSystem :=
  (((MemoryTree.file {} "a.py" "import b, c\nx = 1").file "b.py" "1 +").file "c.py"
    "def f(y=2):\n  return y").fileSystem

theorem broken_identities : ∃ s t u, Session s ∧ s.failed.map (·.toString) = ["/b.py"] ∧
    s.tree? (.ofString "/a.py") = some t ∧ s.tree? (.ofString "/c.py") = some u ∧
    t.ids.Nodup ∧ u.ids.Nodup ∧ t.ids.Disjoint u.ids ∧
    (∀ i ∈ t.ids, i < s.nextNode) ∧ ∀ i ∈ u.ids, i < s.nextNode := by
  obtain ⟨_, s, ran, failed, known, known'⟩ : ∃ answer s,
      ((Call.analyze (.ofString "/a.py")).run (Walker.of broken {})).run State.initial =
        .ok (answer, s) ∧
      s.failed.map (·.toString) = ["/b.py"] ∧
      (s.tree? (.ofString "/a.py")).isSome = true ∧ (s.tree? (.ofString "/c.py")).isSome = true :=
    Walks.exists_run (by decide +kernel)
  obtain ⟨t, known⟩ := Option.isSome_iff_exists.mp known
  obtain ⟨u, known'⟩ := Option.isSome_iff_exists.mp known'
  have session : Session s := .call .start ran
  have numbered := session.identities_distinct
  exact ⟨s, t, u, session, failed, known, known', numbered.distinct known,
    numbered.distinct known', numbered.apart known known' (by decide), numbered.given known,
    numbered.given known'⟩

end FlowTypes
