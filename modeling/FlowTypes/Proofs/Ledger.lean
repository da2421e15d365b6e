import FlowTypes.Proofs.Waiting

/-! The functions that a program defines. Each definition that the walk meets gets a value of its own,
which is put at the end of the list of functions that wait and never gets there again. All these
definitions stand in files that have been read. -/
namespace FlowTypes

open Analysis

theorem InsertionMap.entries_insert [DecidableEq κ] {m : InsertionMap κ ν} {k : κ}
    (new : m.get? k = none) (v : ν) : (m.insert k v).entries = m.entries ++ [(k, v)] := by
  simp [insert, contains, new]

namespace State

variable {s s' s'' : State} {fn : TypeId} {d : Definition}

/-- Definitions have values of their own, and those that wait are among them. -/
structure Tidy (s : State) : Prop where
  nodes : s.functions.keys.Nodup
  values : s.functions.values.Nodup
  made : ∀ fn ∈ s.functions.values, (s.types.lineage? fn).isSome = true
  waiting : s.uncalled.Nodup
  among : ∀ fn ∈ s.uncalled, fn ∈ s.functions.values

/-- From one state to the other, definitions have been met, and only their values have been put on the
list of those that wait. -/
structure Ledger (s s' : State) : Prop extends s'.Tidy where
  met : s.functions.entries <+: s'.functions.entries
  listed : s'.uncalled.Sublist (s.uncalled ++ s'.functions.values.drop s.functions.size)

instance (s s' : State) : Decidable (s.Ledger s') :=
  decidable_of_iff
    ((s'.functions.keys.Nodup ∧ s'.functions.values.Nodup ∧
      (∀ fn ∈ s'.functions.values, (s'.types.lineage? fn).isSome = true) ∧
      s'.uncalled.Nodup ∧ ∀ fn ∈ s'.uncalled, fn ∈ s'.functions.values) ∧
      s.functions.entries <+: s'.functions.entries ∧
      s'.uncalled.Sublist (s.uncalled ++ s'.functions.values.drop s.functions.size))
    ⟨fun ⟨⟨nodes, values, made, waiting, among⟩, met, listed⟩ =>
        ⟨⟨nodes, values, made, waiting, among⟩, met, listed⟩,
      fun h => ⟨⟨h.nodes, h.values, h.made, h.waiting, h.among⟩, h.met, h.listed⟩⟩

theorem ledger_iff : s.Ledger s' ↔ s'.Tidy ∧ ∃ new,
    s'.functions.entries = s.functions.entries ++ new ∧
      s'.uncalled.Sublist (s.uncalled ++ new.map (·.2)) := by
  have dropped : ∀ new, s'.functions.entries = s.functions.entries ++ new →
      s'.functions.values.drop s.functions.size = new.map (·.2) := by
    intro new same
    rw [InsertionMap.values, same, List.map_append, InsertionMap.size]
    exact List.drop_left' (List.length_map _)
  constructor
  · intro ledger
    obtain ⟨new, same⟩ := ledger.met
    refine ⟨ledger.toTidy, new, same.symm, ?_⟩
    rw [← dropped new same.symm]
    exact ledger.listed
  · rintro ⟨tidy, new, same, listed⟩
    refine ⟨tidy, ⟨new, same.symm⟩, ?_⟩
    rw [dropped new same]
    exact listed

theorem Tidy.ledger (tidy : s.Tidy) : s.Ledger s :=
  ledger_iff.mpr ⟨tidy, [], by simp, by simp⟩

theorem Ledger.trans (first : s.Ledger s') (second : s'.Ledger s'') : s.Ledger s'' := by
  obtain ⟨_, new, same, listed⟩ := ledger_iff.mp first
  obtain ⟨tidy, new', same', listed'⟩ := ledger_iff.mp second
  refine ledger_iff.mpr ⟨tidy, new ++ new', ?_, ?_⟩
  · rw [same', same, List.append_assoc]
  · rw [List.map_append, ← List.append_assoc]
    exact listed'.trans (listed.append_right _)

/-- No definition is met, and none of the functions comes to the list. -/
theorem Tidy.shrink (tidy : s.Tidy) (functions : s'.functions = s.functions)
    (uncalled : s'.uncalled.Sublist s.uncalled)
    (kept : ∀ id l, s.types.lineage? id = some l → s'.types.lineage? id = some l) :
    s.Ledger s' := by
  refine ledger_iff.mpr ⟨⟨?_, ?_, fun fn member => ?_, ?_, fun fn member => ?_⟩, [], ?_, ?_⟩
  · exact functions ▸ tidy.nodes
  · exact functions ▸ tidy.values
  · rw [functions] at member
    obtain ⟨l, found⟩ := Option.isSome_iff_exists.mp (tidy.made fn member)
    rw [kept fn l found]
    rfl
  · exact tidy.waiting.sublist uncalled
  · rw [functions]
    exact tidy.among fn (uncalled.subset member)
  · rw [functions, List.append_nil]
  · rw [List.map_nil, List.append_nil]
    exact uncalled

theorem Tidy.meets (tidy : s.Tidy) (meets : s.Meets d fn s') : s.Ledger s' := by
  have entries : s'.functions.entries = s.functions.entries ++ [(d.node.id, fn)] := by
    rw [meets.functions]
    exact InsertionMap.entries_insert meets.unmet fn
  have values : s'.functions.values = s.functions.values ++ [fn] := by
    simp [InsertionMap.values, entries]
  have unmet : d.node.id ∉ s.functions.keys := by
    intro member
    obtain ⟨⟨node, g⟩, there, same⟩ := List.mem_map.mp member
    have absent := List.lookup_eq_none_iff.mp meets.unmet _ there
    simp [← same] at absent
  have fresh : fn ∉ s.functions.values := by
    intro member
    have known := tidy.made fn member
    rw [TypeStore.lineage?, meets.fresh] at known
    cases known
  refine ledger_iff.mpr ⟨⟨?_, ?_, fun g member => ?_, ?_, fun g member => ?_⟩, _, entries, ?_⟩
  · rw [InsertionMap.keys, entries, List.map_append, List.nodup_append_comm]
    exact List.nodup_cons.mpr ⟨unmet, tidy.nodes⟩
  · rw [values, List.nodup_append_comm]
    exact List.nodup_cons.mpr ⟨fresh, tidy.values⟩
  · rw [values, List.mem_append, List.mem_singleton] at member
    rcases member with member | rfl
    · obtain ⟨l, found⟩ := Option.isSome_iff_exists.mp (tidy.made g member)
      rw [meets.lineage? found]
      rfl
    · rw [TypeStore.lineage?_of_facts? meets.own]
      rfl
  · rw [meets.uncalled, List.nodup_append_comm]
    exact List.nodup_cons.mpr ⟨fun member => fresh (tidy.among fn member), tidy.waiting⟩
  · rw [meets.uncalled, List.mem_append] at member
    rw [values, List.mem_append]
    exact member.imp_left (tidy.among g)
  · rw [meets.uncalled]
    exact .refl _

theorem Ledger.shrink {s₀ : State} (ledger : s₀.Ledger s) (functions : s'.functions = s.functions)
    (uncalled : s'.uncalled.Sublist s.uncalled)
    (kept : ∀ id l, s.types.lineage? id = some l → s'.types.lineage? id = some l) :
    s₀.Ledger s' :=
  ledger.trans (ledger.toTidy.shrink functions uncalled kept)

theorem Ledger.quiet {s₀ : State} (ledger : s₀.Ledger s) (quietly : s.Quietly s') : s₀.Ledger s' :=
  ledger.shrink quietly.functions (quietly.uncalled ▸ .refl _) fun _ _ => quietly.types.lineage?

theorem Ledger.withFrames {s₀ : State} (ledger : s₀.Ledger s) {frames : List Frame} :
    s₀.Ledger { s with frames } :=
  ledger.shrink rfl (.refl _) fun _ _ known => known

theorem Ledger.withUncalled {s₀ : State} (ledger : s₀.Ledger s) {uncalled : List TypeId}
    (fewer : uncalled.Sublist s.uncalled) : s₀.Ledger { s with uncalled } :=
  ledger.shrink rfl fewer fun _ _ known => known

theorem Ledger.isGone (ledger : s.Ledger s') (gone : s.isGone fn = true) : s'.isGone fn = true := by
  obtain ⟨member, absent⟩ := of_decide_eq_true gone
  obtain ⟨tidy, new, same, listed⟩ := ledger_iff.mp ledger
  have values : s'.functions.values = s.functions.values ++ new.map (·.2) := by
    simp [InsertionMap.values, same]
  refine decide_eq_true ⟨values ▸ List.mem_append_left _ member, fun back => ?_⟩
  have distinct := tidy.values
  rw [values, List.nodup_append] at distinct
  rcases List.mem_append.mp (listed.subset back) with old | new
  · exact absent old
  · exact distinct.2.2 fn member fn new rfl

end State

/-- The watch for the list of functions that wait. -/
def Discipline.ledger (first : State) (stop : Stop) : Discipline where
  check := State.insist first.Ledger stop
  stop := stop
  Stops := False
  Inv := fun _ s => first.Ledger s
  Taken := fun _ _ _ s => first.Ledger s
  Left := fun _ _ s => first.Ledger s
  passes := fun ledger => if_pos ledger
  quiet := fun ledger quietly => ledger.quiet quietly
  yields := fun _ ledger _ => ledger.withFrames
  meets := fun ledger _ meets _ => ledger.trans (ledger.toTidy.meets meets)
  loaded := fun ledger _ => ⟨.full, fun _ _ => trivial, ledger, fun _ ledger' _ => ledger'⟩
  taken := fun ledger _ _ _ => ledger.withUncalled List.filter_sublist
  taken_quiet := fun ledger quietly => ledger.quiet quietly
  answered := fun ledger _ => ledger
  entered := fun ledger _ _ =>
    .inl ⟨.full, trivial, ledger.withFrames, fun _ ledger' _ _ => ledger'.withFrames⟩
  left_quiet := fun ledger quietly => ledger.quiet quietly
  recorded := fun {_ s g} arrow limits ledger => ledger.shrink rfl (.refl _)
    fun id _ known => (s.types.lineage?_insertArrow g arrow limits id).trans known

/-! ### Where definitions come from -/

/-- All functions of a store have definitions with a property. -/
def TypeStore.Defines (s : TypeStore) (P : Definition → Prop) : Prop :=
  ∀ id l d, s.lineage? id = some l → l.definition = some d → P d

theorem TypeStore.Calm.defines {s : TypeStore} (calm : s.Calm s') (defines : s.Defines P) :
    s'.Defines P := by
  induction calm with
  | agrees same =>
    intro id l d found
    exact defines id l d ((congrArg (Option.map Prod.fst) (same id)).symm.trans found)
  | @bound s fn f receiver known =>
    intro id l d found definition
    rcases s.lineage?_alloc_cases id with same | ⟨_, own⟩
    · exact defines id l d (same ▸ found) definition
    · rw [own] at found
      obtain rfl : _ = l := Option.some.inj found
      exact defines _ _ d (lineage?_of_facts? (facts?_of_function? known)) definition
  | trans _ _ ih ih' => exact ih' (ih defines)

namespace State

variable {s s' : State} {loud : Bool} {fn : TypeId} {d : Definition} {p : Phrase}

/-- The phrase stands in a file that has been read. -/
def Knows (s : State) (p : Phrase) : Prop :=
  ∃ tree, s.Holds tree ∧ ∃ t ∈ tree.body, p ∈ (Phrase.stmt t).all

/-- Everything that stands in the files that have been read. -/
def realm (s : State) : Realm where
  has := s.Knows
  closed := by
    rintro p q ⟨tree, held, t, member, inside⟩ part
    exact ⟨tree, held, t, member, Phrase.mem_all_of_mem_parts inside part⟩

theorem Knows.mono (known : s.Knows p) (trees : ∀ tree, s.Holds tree → s'.Holds tree) :
    s'.Knows p := by
  obtain ⟨tree, held, there⟩ := known
  exact ⟨tree, trees tree held, there⟩

/-- All definitions in the files that have been read. -/
def definitions (s : State) : List Definition :=
  (s.modules.values.filterMap (·.tree?)).flatMap (·.definitions)

theorem Knows.mem_definitions (known : s.Knows d.phrase) : d ∈ s.definitions := by
  obtain ⟨tree, ⟨path, status, found, read⟩, t, member, inside⟩ := known
  have module : tree ∈ s.modules.values.filterMap (·.tree?) :=
    List.mem_filterMap.mpr ⟨status, InsertionMap.mem_values_of_get? found, read⟩
  refine List.mem_flatMap.mpr ⟨tree, module, List.mem_filterMap.mpr ⟨d.phrase, ?_, ?_⟩⟩
  · exact List.mem_flatMap.mpr ⟨t, member, inside⟩
  · exact Phrase.definition?_phrase

/-- The definitions that have been met stand in files that have been read. -/
structure Sourced (s : State) : Prop where
  functions : s.types.Defines fun d => s.Knows d.phrase
  nodes : ∀ node ∈ s.functions.keys, ∃ d : Definition, d.node.id = node ∧ s.Knows d.phrase

theorem Sourced.mono (sourced : s.Sourced) (functions : s'.functions = s.functions)
    (defines : s'.types.Defines fun d => s.Knows d.phrase)
    (trees : ∀ tree, s.Holds tree → s'.Holds tree) : s'.Sourced where
  functions := fun id l d found definition => (defines id l d found definition).mono trees
  nodes := fun node member => by
    rw [functions] at member
    obtain ⟨d, same, known⟩ := sourced.nodes node member
    exact ⟨d, same, known.mono trees⟩

theorem Sourced.quiet (sourced : s.Sourced) (quietly : s.Quietly s') : s'.Sourced :=
  sourced.mono quietly.functions (quietly.types.defines sourced.functions) quietly.trees

theorem Sourced.meets (sourced : s.Sourced) (known : s.Knows d.phrase) (meets : s.Meets d fn s') :
    s'.Sourced where
  functions := fun id l d' found definition => by
    by_cases own : id = fn
    · rw [own, TypeStore.lineage?_of_facts? meets.own] at found
      obtain rfl := Option.some.inj found
      obtain rfl : d = d' := Option.some.inj definition
      exact known.mono fun _ => meets.holds
    · rw [TypeStore.lineage?, meets.others id own] at found
      exact (sourced.functions id l d' found definition).mono fun _ => meets.holds
  nodes := fun node member => by
    rw [InsertionMap.keys, meets.functions, InsertionMap.entries_insert meets.unmet,
      List.map_append, List.mem_append] at member
    rcases member with member | member
    · obtain ⟨d', same, known⟩ := sourced.nodes node member
      exact ⟨d', same, known.mono fun _ => meets.holds⟩
    · exact ⟨d, (List.mem_singleton.mp member).symm, known.mono fun _ => meets.holds⟩

theorem Tidy.size_le (tidy : s.Tidy) (sourced : s.Sourced) :
    s.functions.size ≤ s.definitions.length := by
  have nodes : s.functions.keys ⊆ s.definitions.map (·.node.id) := by
    intro node member
    obtain ⟨d, rfl, known⟩ := sourced.nodes node member
    exact List.mem_map_of_mem known.mem_definitions
  have fewer := tidy.nodes.length_le_of_subset nodes
  rwa [InsertionMap.keys, List.length_map, List.length_map] at fewer

/-- Phrases of a realm are walked, all from files that have been read. -/
structure Reads (D : Realm) (s : State) : Prop extends s.Sourced where
  within : ∀ p, D.has p → s.Knows p

theorem Reads.quiet (reads : s.Reads D) (quietly : s.Quietly s') : s'.Reads D where
  toSourced := reads.toSourced.quiet quietly
  within := fun p has => (reads.within p has).mono quietly.trees

theorem Reads.withFrames (reads : s.Reads D) {frames : List Frame} : Reads D { s with frames } :=
  ⟨reads.toSourced.mono rfl reads.functions fun _ held => held, reads.within⟩

theorem Reads.withUncalled (reads : s.Reads D) {uncalled : List TypeId} :
    Reads D { s with uncalled } :=
  ⟨reads.toSourced.mono rfl reads.functions fun _ held => held, reads.within⟩

theorem Sourced.reads (sourced : s.Sourced) : s.Reads s.realm := ⟨sourced, fun _ known => known⟩

theorem Reads.narrow (reads : s.Reads D) (reads' : s'.Reads D')
    (trees : ∀ tree, s.Holds tree → s'.Holds tree) : s'.Reads D :=
  ⟨reads'.toSourced, fun p has => (reads.within p has).mono trees⟩

end State

/-- Definitions are met in files that have been read. -/
def Discipline.reads : Discipline where
  check := fun _ => none
  stop := .endless
  Stops := False
  Inv := fun D s => s.Reads D
  Taken := fun _ d D s => s.Reads D ∧ s.Knows d.phrase
  Left := fun _ D s => s.Reads D
  passes := fun _ => rfl
  quiet := fun reads quietly => reads.quiet quietly
  yields := fun _ reads _ => reads.withFrames
  meets := fun reads has meets _ => ⟨reads.toSourced.meets (reads.within _ has) meets,
    fun p has => (reads.within p has).mono fun _ => meets.holds⟩
  loaded := fun {_ s tree} reads held =>
    ⟨s.realm, fun t member => ⟨tree, held, t, member, Phrase.mem_all_self _⟩,
      reads.toSourced.reads, fun _ reads' later => reads.narrow reads' later.trees⟩
  taken := fun reads found _ defined => ⟨reads.withUncalled, reads.functions _ _ _
    (TypeStore.lineage?_of_facts? (TypeStore.facts?_of_function? found)) defined⟩
  taken_quiet := fun taken quietly => ⟨taken.1.quiet quietly, taken.2.mono quietly.trees⟩
  answered := fun taken _ => taken.1
  entered := fun {_ s _ _ _} taken _ _ =>
    .inl ⟨s.realm, taken.2, taken.1.toSourced.reads.withFrames, fun _ reads' later _ =>
      taken.1.narrow reads'.withFrames later.trees⟩
  left_quiet := fun left quietly => left.quiet quietly
  recorded := fun {_ s g} arrow limits left => by
    refine ⟨left.toSourced.mono rfl ?_ fun _ held => held, left.within⟩
    intro id l d found definition
    exact left.functions id l d
      ((s.types.lineage?_insertArrow g arrow limits id).symm.trans found) definition

end FlowTypes
