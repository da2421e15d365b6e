import Mathlib.Data.List.Induction
import FlowTypes.Proofs.Subsumption

/-! Signature tables hold few arrows, and none of them covers another. Subsumption is symmetric, so of
two arrows that cover each other the table keeps the earlier one: as long as the old arrows are apart,
only the newest can be dropped. -/
namespace FlowTypes.TypeStore

variable {s s' : TypeStore} {owner fn : TypeId} {table table' : List Arrow} {arrow new : Arrow}
  {limits : Limits}

/-- The arrows that a function has recorded. -/
def signature (s : TypeStore) (owner : TypeId) : List Arrow :=
  ((s.function? owner).map (·.arrows)).getD []

/-- No arrow of the table covers another. -/
def Apart (s : TypeStore) (table : List Arrow) : Prop :=
  table.Pairwise fun x y =>
    s.subsumed x.arguments y.arguments = false ∧ s.subsumed y.arguments x.arguments = false

/-! ### What is dropped from a table -/

/-- The newest arrow covers no older one: what it covers covers it and came first. -/
theorem coveredAt_append (older : entry.2 < n) :
    s.coveredAt (numbered ++ [(new, n)]) entry = s.coveredAt numbered entry := by
  have uncovered : ∀ same : Bool, (same && s.subsumed entry.1.arguments new.arguments &&
      !(s.subsumed new.arguments entry.1.arguments && decide (entry.2 < n))) = false := by
    simp [older, s.subsumed_comm]
  simp only [coveredAt, List.any_append, List.any_cons, List.any_nil, uncovered, Bool.or_false]

theorem coveredAt_newest : s.coveredAt (table.zipIdx ++ [(new, table.length)]) (new, table.length) =
      table.any fun old => decide (new.arguments ≠ old.arguments) &&
        s.subsumed new.arguments old.arguments := by
  rw [Bool.eq_iff_iff]
  simp only [coveredAt, List.any_append, List.any_cons, List.any_nil, ne_eq, not_true_eq_false,
    decide_false, Bool.false_and, Bool.or_false, List.any_eq_true]
  constructor
  · rintro ⟨⟨old, i⟩, member, covers⟩
    refine ⟨old, List.fst_mem_of_mem_zipIdx member, ?_⟩
    simp_all
  · rintro ⟨old, member, covers⟩
    obtain ⟨i, hi, rfl⟩ := List.mem_iff_getElem.mp member
    refine ⟨(table[i], i), List.mem_zipIdx_iff_getElem?.mpr (by simp [hi]), ?_⟩
    have other : table.length ≠ i := by omega
    simp_all [Nat.le_of_lt hi]

/-- A new arrow is dropped if an older one covers it, and takes no older one away. -/
theorem compress_append : s.compress (table ++ [new]) = s.compress table ++
      if table.any fun old => decide (new.arguments ≠ old.arguments) &&
        s.subsumed new.arguments old.arguments then [] else [new] := by
  unfold compress
  rw [List.zipIdx_append, List.zipIdx_singleton, Nat.zero_add, List.filter_append, List.map_append,
    ← coveredAt_newest]
  congr 1
  · congr 1
    refine List.filter_congr fun entry member => ?_
    rw [coveredAt_append (by simpa using List.snd_lt_of_mem_zipIdx member)]
  · rw [List.filter_singleton]
    split <;> simp_all

theorem compress_of_apart (apart : s.Apart table) : s.compress table = table := by
  induction table using List.reverseRecOn with
  | nil => rfl
  | append_singleton table new ih =>
    obtain ⟨older, -, newest⟩ := List.pairwise_append.mp apart
    have kept : ¬(table.any fun old => decide (new.arguments ≠ old.arguments) &&
        s.subsumed new.arguments old.arguments) = true := by
      simp only [List.any_eq_true, not_exists, not_and, Bool.not_eq_true]
      intro old member
      rw [(newest old member new List.mem_cons_self).2, Bool.and_false]
    rw [compress_append, ih older, if_neg kept]

/-! ### What becomes of one arrow -/

/-- A table after an arrow was recorded: the first arrow with an equal shape gets the result, or the
arrow is new and comes last, unless a recorded shape covers it. -/
inductive Filed (s : TypeStore) (arrow : Arrow) (room : Nat) : List Arrow → List Arrow → Prop
  | replaced {before after : List Arrow} {old : Arrow}
      (first : ∀ x ∈ before, s.equal x.arguments arrow.arguments = false)
      (equal : s.equal old.arguments arrow.arguments = true) :
      Filed s arrow room (before ++ old :: after)
        (before ++ { old with result := arrow.result } :: after)
  | appended {table : List Arrow} (notFull : table.length < room)
      (new : ∀ old ∈ table, s.equal old.arguments arrow.arguments = false)
      (apart : ∀ old ∈ table, s.subsumed arrow.arguments old.arguments = false) :
      Filed s arrow room table (table ++ [arrow])
  | covered {table : List Arrow} (notFull : table.length < room)
      (new : ∀ old ∈ table, s.equal old.arguments arrow.arguments = false)
      (covers : ∃ old ∈ table, s.subsumed arrow.arguments old.arguments = true) :
      Filed s arrow room table table

/-- Only results change, so that shapes that were apart still are. -/
theorem apart_of_arguments (same : table'.map (·.arguments) = table.map (·.arguments)) :
    s.Apart table' ↔ s.Apart table := by
  have shapes : ∀ l : List Arrow, s.Apart l ↔ (l.map (·.arguments)).Pairwise fun x y =>
      s.subsumed x y = false ∧ s.subsumed y x = false := fun l => by
    rw [List.pairwise_map]
    rfl
  rw [shapes, shapes, same]

theorem withArrow_known (first : ∀ x ∈ before, s.equal x.arguments arrow.arguments = false)
    (equal : s.equal old.arguments arrow.arguments = true) :
    s.withArrow (before ++ old :: after) arrow =
      before ++ { old with result := arrow.result } :: after := by
  have found : (before ++ old :: after).findIdx? (fun known =>
      s.equal known.arguments arrow.arguments) = some before.length := by
    rw [List.findIdx?_append, List.findIdx?_eq_none_iff.mpr first]
    simp [List.findIdx?_cons, equal]
  unfold withArrow
  rw [found]
  simp [List.modify_eq_take_drop]

theorem withArrow_new (new : ∀ old ∈ table, s.equal old.arguments arrow.arguments = false) :
    s.withArrow table arrow = table ++ [arrow] := by
  unfold withArrow
  rw [List.findIdx?_eq_none_iff.mpr new]

theorem exists_first_equal (known : (table.any fun old => s.equal old.arguments arrow.arguments) = true) :
    ∃ before old after, table = before ++ old :: after ∧
      (∀ x ∈ before, s.equal x.arguments arrow.arguments = false) ∧
      s.equal old.arguments arrow.arguments = true := by
  obtain ⟨old, found⟩ := Option.isSome_iff_exists.mp (List.find?_isSome.mpr (List.any_eq_true.mp known))
  obtain ⟨equal, before, after, rfl, first⟩ := List.find?_eq_some_iff_append.mp found
  exact ⟨before, old, after, rfl, by simpa using first, equal⟩

/-- Where an arrow is known or has room, the table that replaces the old one has it filed. -/
theorem filed_compress (apart : s.Apart table)
    (fits : (table.any fun old => s.equal old.arguments arrow.arguments) = true ∨
      table.length < room) :
    s.Filed arrow room table (s.compress (s.withArrow table arrow)) := by
  cases known : table.any fun old => s.equal old.arguments arrow.arguments with
  | true =>
    obtain ⟨before, old, after, rfl, first, equal⟩ := exists_first_equal known
    rw [withArrow_known first equal, compress_of_apart ((apart_of_arguments (by simp)).mpr apart)]
    exact .replaced first equal
  | false =>
    have notFull : table.length < room := by simpa [known] using fits
    have new : ∀ old ∈ table, s.equal old.arguments arrow.arguments = false := by
      simpa using known
    rw [withArrow_new new, compress_append, compress_of_apart apart]
    split
    · next covers =>
      obtain ⟨old, member, covers⟩ := List.any_eq_true.mp covers
      rw [List.append_nil]
      exact .covered notFull new ⟨old, member, (Bool.and_eq_true_iff.mp covers).2⟩
    · next uncovered =>
      refine .appended notFull new fun old member => ?_
      have other : arrow.arguments ≠ old.arguments := by
        intro same
        simpa [same] using new old member
      simp only [List.any_eq_true, not_exists, not_and, Bool.and_eq_true, decide_eq_true_eq,
        Bool.not_eq_true] at uncovered
      exact uncovered old member other

theorem Filed.apart (filed : s.Filed arrow room table table') (apart : s.Apart table) :
    s.Apart table' := by
  cases filed with
  | replaced => exact (apart_of_arguments (by simp)).mpr apart
  | appended notFull new uncovered =>
    refine List.pairwise_append.mpr ⟨apart, List.pairwise_singleton _ _, fun old member x last => ?_⟩
    rw [List.mem_singleton.mp last, s.subsumed_comm]
    exact ⟨uncovered old member, uncovered old member⟩
  | covered => exact apart

theorem Filed.length_le (filed : s.Filed arrow room table table') (bounded : table.length ≤ room) :
    table'.length ≤ room := by
  cases filed with
  | replaced => simpa using bounded
  | appended notFull => simpa using Nat.succ_le_of_lt notFull
  | covered => exact bounded

theorem Filed.has (filed : s.Filed arrow room table table') (ha : s.Has arrow.arguments)
    (has : ∀ x ∈ table, s.Has x.arguments) : ∀ x ∈ table', s.Has x.arguments := by
  cases filed with
  | replaced => simpa [or_imp, forall_and] using has
  | appended => simpa [or_imp, forall_and] using ⟨has, ha⟩
  | covered => exact has

/-- What a call does: the arrow is filed and the signature stays short, or nothing happens, since
there is no room for a new shape or the signature would get too long. -/
inductive Inserts (s : TypeStore) (owner : TypeId) (arrow : Arrow) (limits : Limits) :
    Recorded × TypeStore → Prop
  | filed {table' : List Arrow}
      (filed : s.Filed arrow limits.maxArrows (s.signature owner) table')
      (short : ∀ bound ∈ limits.maxChars,
        Text.byteSize ((s.setArrows owner table').display owner).toList ≤ bound) :
      Inserts s owner arrow limits (.recorded, s.setArrows owner table')
  | full (new : ∀ old ∈ s.signature owner, s.equal old.arguments arrow.arguments = false)
      (noRoom : limits.maxArrows ≤ (s.signature owner).length) :
      Inserts s owner arrow limits (.full, s)
  | tooLong {table' : List Arrow} {bound : Nat}
      (filed : s.Filed arrow limits.maxArrows (s.signature owner) table')
      (bounded : limits.maxChars = some bound)
      (long : bound < Text.byteSize ((s.setArrows owner table').display owner).toList) :
      Inserts s owner arrow limits (.tooLong, s)

theorem signature_eq (found : s.get owner = .function f) : s.signature owner = f.arrows := by
  simp [signature, function?_eq_some.mpr found]

theorem inserts (found : s.get (s.originOf fn) = .function f) (apart : s.Apart f.arrows) :
    s.Inserts (s.originOf fn) arrow limits (s.insertArrow fn arrow limits) := by
  have table := signature_eq found
  unfold insertArrow
  dsimp only
  rw [function?_eq_some.mpr found]
  dsimp only
  split
  · next full =>
    simp only [Bool.and_eq_true, Bool.not_eq_true', List.any_eq_false, decide_eq_true_eq,
      Bool.not_eq_true] at full
    exact .full (table ▸ full.1) (table ▸ full.2)
  · next room =>
    have filed : s.Filed arrow limits.maxArrows (s.signature (s.originOf fn))
        (s.compress (s.withArrow f.arrows arrow)) := by
      rw [table]
      refine filed_compress apart ?_
      cases known : f.arrows.any fun old => s.equal old.arguments arrow.arguments with
      | true => exact .inl rfl
      | false => exact .inr (by simpa [known] using room)
    split
    · next unbounded => exact .filed filed (by simp [unbounded])
    · next bound bounded =>
      split
      · next long => exact .tooLong filed bounded long
      · next short => exact .filed filed (by simpa [bounded] using short)

/-! ### Sequences of calls -/

/-- The stores in which a table is filled under the same limits, starting with an empty one. Between
the calls there may be new types and notes, but not about this table. -/
inductive Recording (limits : Limits) (owner : TypeId) : TypeStore → Prop
  | empty {s : TypeStore} {f : FunctionType} (wf : s.WellFormed)
      (found : s.get owner = .function f) (none : f.arrows = []) : Recording limits owner s
  | added {s s' : TypeStore} (earlier : Recording limits owner s) (additions : Additions Has s s')
      (same : s'.signature owner = s.signature owner) : Recording limits owner s'
  | inserted {s : TypeStore} {fn : TypeId} {arrow : Arrow} (earlier : Recording limits owner s)
      (own : s.originOf fn = owner) (ha : s.Has arrow.arguments) (hr : s.Has arrow.result) :
      Recording limits owner (s.insertArrow fn arrow limits).2

/-- What every call keeps. -/
structure Tidy (limits : Limits) (owner : TypeId) (s : TypeStore) : Prop where
  wf : s.WellFormed
  found : ∃ f, s.get owner = .function f
  bounded : (s.signature owner).length ≤ limits.maxArrows
  apart : s.Apart (s.signature owner)

theorem Grows.apart (grows : s.Grows s') (wf : s.WellFormed)
    (has : ∀ x ∈ table, s.Has x.arguments) (apart : s.Apart table) : s'.Apart table := by
  refine apart.imp_of_mem fun {x y} hx hy separate => ?_
  rwa [grows.subsumed wf (has x hx) (has y hy), grows.subsumed wf (has y hy) (has x hx)]

theorem WellFormed.signature_has (wf : s.WellFormed) (found : ∃ f, s.get owner = .function f) :
    ∀ x ∈ s.signature owner, s.Has x.arguments := by
  obtain ⟨f, found⟩ := found
  rw [signature_eq found]
  exact fun x member => (wf.arrow found member).1

theorem Tidy.added (tidy : Tidy limits owner s) (additions : Additions Has s s')
    (same : s'.signature owner = s.signature owner) : Tidy limits owner s' where
  wf := additions.changes.sound tidy.wf
  found := by
    obtain ⟨f, found⟩ := tidy.found
    obtain ⟨g, found, _⟩ := additions.changes.kept.function found
    exact ⟨g, found⟩
  bounded := same ▸ tidy.bounded
  apart := same ▸ additions.grows.apart tidy.wf (tidy.wf.signature_has tidy.found) tidy.apart

theorem signature_setArrows (found : s.get owner = .function f) :
    (s.setArrows owner table).signature owner = table := by
  have has : s.Has owner := has_of_get (by simp [found])
  simp [signature, setArrows, modifyFunction, found, function?, get_set_self has]

theorem Tidy.inserts (tidy : Tidy limits (s.originOf fn) s) :
    s.Inserts (s.originOf fn) arrow limits (s.insertArrow fn arrow limits) := by
  obtain ⟨f, found⟩ := tidy.found
  exact TypeStore.inserts found (signature_eq found ▸ tidy.apart)

theorem Tidy.signature_insertArrow (tidy : Tidy limits (s.originOf fn) s) :
    (s.insertArrow fn arrow limits).1 = .recorded ∧
      s.Filed arrow limits.maxArrows (s.signature (s.originOf fn))
        ((s.insertArrow fn arrow limits).2.signature (s.originOf fn)) ∨
    (s.insertArrow fn arrow limits).1.isRecorded = false ∧
      (s.insertArrow fn arrow limits).2 = s := by
  obtain ⟨f, found⟩ := tidy.found
  have inserts : s.Inserts (s.originOf fn) arrow limits (s.insertArrow fn arrow limits) :=
    tidy.inserts
  generalize s.insertArrow fn arrow limits = result at inserts ⊢
  cases inserts with
  | filed filed => exact .inl ⟨rfl, by rwa [signature_setArrows found]⟩
  | full => exact .inr ⟨rfl, rfl⟩
  | tooLong => exact .inr ⟨rfl, rfl⟩

theorem Tidy.inserted (tidy : Tidy limits (s.originOf fn) s) (ha : s.Has arrow.arguments)
    (hr : s.Has arrow.result) :
    Tidy limits (s.originOf fn) (s.insertArrow fn arrow limits).2 := by
  have additions := tidy.wf.insertArrow fn ha hr limits
  rcases tidy.signature_insertArrow with ⟨-, filed⟩ | ⟨-, same⟩
  · obtain ⟨f, found⟩ := tidy.found
    obtain ⟨g, found', _⟩ := additions.changes.kept.function found
    have has := filed.has ha (tidy.wf.signature_has tidy.found)
    exact {
      wf := additions.changes.sound tidy.wf
      found := ⟨g, found'⟩
      bounded := filed.length_le tidy.bounded
      apart := additions.grows.apart tidy.wf has (filed.apart tidy.apart) }
  · rwa [same]

theorem Recording.tidy (recording : Recording limits owner s) : Tidy limits owner s := by
  induction recording with
  | empty wf found none =>
    have table := (signature_eq found).trans none
    exact ⟨wf, ⟨_, found⟩, by simp [table], by simp [table, Apart]⟩
  | added _ additions same ih => exact ih.added additions same
  | inserted _ own ha hr ih =>
    subst own
    exact ih.inserted ha hr

/-- However a table has been filled, after the next call it still holds no more arrows than are
allowed and none that covers another. The call files the arrow, with all others in their places, or
changes nothing at all, which is what it does whenever it reports that the arrow was not recorded. -/
theorem signature_tables_stay_tidy (recording : Recording limits owner s)
    (own : s.originOf fn = owner) (ha : s.Has arrow.arguments) (hr : s.Has arrow.result) :
    let result := s.insertArrow fn arrow limits
    (result.2.signature owner).length ≤ limits.maxArrows ∧
      result.2.Apart (result.2.signature owner) ∧
      s.Inserts owner arrow limits result ∧
      (result.1.isRecorded = true →
        s.Filed arrow limits.maxArrows (s.signature owner) (result.2.signature owner)) ∧
      (result.1.isRecorded = false → result.2 = s) := by
  subst own
  have after := recording.tidy.inserted ha hr
  refine ⟨after.bounded, after.apart, recording.tidy.inserts, fun recorded => ?_, fun rejected => ?_⟩
  · rcases recording.tidy.signature_insertArrow with ⟨-, filed⟩ | ⟨rejected, -⟩
    · exact filed
    · rw [rejected] at recorded
      cases recorded
  · rcases recording.tidy.signature_insertArrow with ⟨recorded, -⟩ | ⟨-, same⟩
    · rw [recorded] at rejected
      cases rejected
    · exact same

/-- A function with an empty table, and the argument shapes of a number and of a text. -/
def oneFunction : TypeStore :=
  let s := (TypeStore.initial.alloc (.function { name := "f", table := ⟨0⟩, env := ⟨0⟩ })).2
  let s := (s.alloc (.tuple { elements := [.int], table := ⟨0⟩ })).2
  (s.alloc (.tuple { elements := [.str], table := ⟨0⟩ })).2

theorem oneFunction_wellFormed : oneFunction.WellFormed := by
  have tuple : ∀ {s : TypeStore} (e : TypeId), s.Has e →
      Fits Has s (.tuple { elements := [e], table := ⟨0⟩ }) := fun e has =>
    .of_refers (by simp) (by simp) (by simpa [Ty.mentions] using has)
  refine Changes.sound (.tail (.tail (.single (.alloc ?_)) (.alloc ?_)) (.alloc ?_))
    initial_sound
  · exact .of_refers (by simp) (by simp) (by simp [Ty.mentions, FunctionType.mentions])
  · exact tuple .int (by decide)
  · exact tuple .str (by decide)

/-- The table of the function after it was applied to a number. -/
def oneArrow : TypeStore := (oneFunction.insertArrow ⟨10⟩ ⟨⟨11⟩, .int⟩ {}).2

theorem oneArrow_recording : Recording {} ⟨10⟩ oneArrow :=
  .inserted (.empty oneFunction_wellFormed rfl rfl) (by decide +kernel) (by decide) (by decide)

theorem twoArrows_tidy : Recording {} ⟨10⟩ oneArrow ∧ oneArrow.originOf ⟨10⟩ = ⟨10⟩ ∧
    oneArrow.Has ⟨12⟩ ∧ oneArrow.Has .str ∧
    ((oneArrow.insertArrow ⟨10⟩ ⟨⟨12⟩, .str⟩ {}).2.signature ⟨10⟩).length ≤ 5 ∧
    oneArrow.Inserts ⟨10⟩ ⟨⟨12⟩, .str⟩ {} (oneArrow.insertArrow ⟨10⟩ ⟨⟨12⟩, .str⟩ {}) ∧
    (oneArrow.insertArrow ⟨10⟩ ⟨⟨12⟩, .str⟩ {}).2.signature ⟨10⟩ =
      [⟨⟨11⟩, .int⟩, ⟨⟨12⟩, .str⟩] := by
  have own : oneArrow.originOf ⟨10⟩ = ⟨10⟩ := by decide +kernel
  have arguments : oneArrow.Has ⟨12⟩ := by decide +kernel
  have result : oneArrow.Has .str := by decide +kernel
  have tidy := @signature_tables_stay_tidy oneArrow ⟨10⟩ ⟨10⟩ ⟨⟨12⟩, .str⟩ {} oneArrow_recording own
    arguments result
  exact ⟨oneArrow_recording, own, arguments, result, tidy.1, tidy.2.2.1, by decide +kernel⟩

end FlowTypes.TypeStore
