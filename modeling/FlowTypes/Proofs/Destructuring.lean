import FlowTypes.FileSystem.Memory
import FlowTypes.Proofs.Walk.Names
import FlowTypes.Proofs.Walk.Start

/-! Several targets at once. A tuple is dealt out: every target is given one share, in the order of the
targets. Without a starred target the shares are the elements; with one, it has what the targets on both
of its sides leave. If there are too few or too many elements the shares are empty, which is reported. -/
namespace FlowTypes.Walker

open Analysis

/-- What a target is given of a tuple. -/
inductive Share
  | element (type : TypeId)
  /-- A list of what the other targets leave. -/
  | rest (types : List TypeId)
  | nothing

/-- The value for a share. Without elements a list is one of unknown elements. -/
def Share.value : Share → Analysis TypeId
  | element type => return type
  | rest [] => newListOf .unknown
  | rest types => do newListOf (← unionAll types)
  | nothing => return .unknown

def isStarred : Expr → Bool
  | .starred _ _ => true
  | _ => false

/-- No target is starred. -/
def Plain (targets : List Expr) : Prop := ∀ target ∈ targets, isStarred target = false

/-- Whether a tuple has elements for all targets: as many without a starred target, and with one as
many as there are other targets at least. -/
def Suffices (targets : List Expr) (elements : List TypeId) : Prop :=
  (Plain targets → elements.length = targets.length) ∧
  (¬ Plain targets → targets.length ≤ elements.length + 1)

/-- The shares of the targets, one for each. -/
inductive Shares : List Expr → List TypeId → List Share → Prop
  | even {targets : List Expr} {elements : List TypeId} (plain : Plain targets)
      (same : elements.length = targets.length) : Shares targets elements (elements.map .element)
  | around {before after : List Expr} {star : Expr} {front middle back : List TypeId}
      (plain : Plain before) (starred : isStarred star)
      (first : front.length = before.length) (last : back.length = after.length) :
      Shares (before ++ star :: after) (front ++ (middle ++ back))
        (front.map .element ++ .rest middle :: back.map .element)
  | misfit {targets : List Expr} {elements : List TypeId} (unfit : ¬ Suffices targets elements) :
      Shares targets elements (targets.map fun _ => .nothing)

variable {targets : List Expr} {elements : List TypeId} {shares : List Share}

theorem Shares.length_eq (h : Shares targets elements shares) : shares.length = targets.length := by
  cases h with
  | even _ same => simpa using same
  | around _ _ first last => simp [first, last]
  | misfit => simp

variable (w : Walker) (scope : ScopeId)

/-- Gives each target its share. -/
def deal (pairs : List (Expr × Share)) : Analysis Unit :=
  pairs.forM fun pair => do w.assign scope pair.1 (← pair.2.value)

theorem deal_cons : w.deal scope (pair :: pairs) =
      (do w.assign scope pair.1 (← pair.2.value)) >>= fun _ => w.deal scope pairs := rfl

theorem deal_append :
    w.deal scope (before ++ after) = w.deal scope before >>= fun _ => w.deal scope after := by
  induction before with
  | nil => rfl
  | cons pair before ih => simp only [List.cons_append, deal_cons, ih, bind_assoc]

theorem deal_of_value (share : TypeId → Share)
    (own : ∀ pair ∈ pairs, (share pair.2).value = pure pair.2) :
    w.deal scope (pairs.map fun pair => (pair.1, share pair.2)) = w.assignEach scope pairs := by
  induction pairs with
  | nil => rfl
  | cons pair pairs ih =>
    rw [List.map_cons, deal_cons, own pair List.mem_cons_self, pure_bind,
      ih fun other member => own other (List.mem_cons_of_mem pair member)]
    rfl

theorem deal_elements :
    w.deal scope (targets.zip (elements.map .element)) = w.assignEach scope (targets.zip elements) := by
  rw [List.zip_map_right]
  exact w.deal_of_value scope .element fun _ _ => rfl

theorem deal_nothing : w.deal scope (targets.zip (targets.map fun _ => .nothing)) =
      w.assignEach scope (targets.map fun target => (target, .unknown)) := by
  have each : targets.zip (targets.map fun _ => Share.nothing) =
      (targets.map fun target => (target, TypeId.unknown)).map fun pair => (pair.1, .nothing) := by
    induction targets with
    | nil => rfl
    | cons target targets ih =>
      rw [List.map_cons, List.zip_cons_cons, ih, List.map_cons, List.map_cons]
  rw [each]
  refine w.deal_of_value scope (fun _ => .nothing) fun pair member => ?_
  obtain ⟨target, -, rfl⟩ := List.mem_map.mp member
  rfl

theorem starIndex?_eq_none_iff : starIndex? targets = none ↔ Plain targets := by
  have same : starIndex? targets = targets.findIdx? isStarred := rfl
  rw [same, List.findIdx?_eq_none_iff]
  rfl

theorem split_of_starIndex? (found : starIndex? targets = some k) :
    ∃ before star after, targets = before ++ star :: after ∧ before.length = k ∧
      Plain before ∧ isStarred star := by
  have same : starIndex? targets = targets.findIdx? isStarred := rfl
  rw [same, List.findIdx?_eq_some_iff_getElem] at found
  obtain ⟨inside, starred, earlier⟩ := found
  refine ⟨targets.take k, targets[k], targets.drop (k + 1), ?_,
    List.length_take_of_le (Nat.le_of_lt inside), fun target member => ?_, starred⟩
  · rw [List.getElem_cons_drop, List.take_append_drop]
  · obtain ⟨j, before, rfl⟩ := List.mem_take_iff_getElem.mp member
    have := earlier j (by omega)
    simpa using this

theorem split_elements (elements : List TypeId) (enough : k + n ≤ elements.length) :
    ∃ front middle back, elements = front ++ (middle ++ back) ∧ front.length = k ∧ back.length = n := by
  refine ⟨elements.take k, (elements.drop k).take (elements.length - n - k),
    (elements.drop k).drop (elements.length - n - k), ?_, by simp; omega, by simp; omega⟩
  rw [List.take_append_drop, List.take_append_drop]

theorem unpack_around {star : Expr} (first : front.length = before.length)
    (last : back.length = after.length) :
    w.unpack scope (before ++ star :: after) (front ++ (middle ++ back)) (some before.length) =
      w.deal scope ((before ++ star :: after).zip
        (front.map .element ++ .rest middle :: back.map .element)) := by
  have behind : (before ++ star :: after).length - before.length - 1 = after.length := by
    simp only [List.length_append, List.length_cons]
    omega
  have stop : (front ++ (middle ++ back)).length - after.length = (front ++ middle).length := by
    simp only [List.length_append]
    omega
  have tail : (before ++ star :: after).drop (before.length + 1) = after := by simp
  have value : (Share.rest middle).value = unionAll middle >>= newListOf := by cases middle <;> rfl
  have zipped : (before ++ star :: after).zip
        (front.map Share.element ++ .rest middle :: back.map .element) =
      before.zip (front.map .element) ++ (star, .rest middle) :: after.zip (back.map .element) := by
    rw [List.zip_append (by simp [first]), List.zip_cons_cons]
  rw [zipped, deal_append, deal_cons, value, deal_elements, deal_elements]
  have taken : ((front ++ (middle ++ back)).take (front ++ middle).length).drop before.length =
      middle := by
    rw [← List.append_assoc, List.take_left, ← first, List.drop_left]
  have dropped : (front ++ (middle ++ back)).drop (front ++ middle).length = back := by
    rw [← List.append_assoc, List.drop_left]
  have chosen : (before ++ star :: after)[before.length]? = some star := by simp
  have leading : (front ++ (middle ++ back)).take before.length = front := by
    rw [← first, List.take_left]
  simp only [unpack, behind, stop, taken, dropped, chosen, tail, leading, List.take_left, bind_assoc]
  have single : ∀ list, w.assignEach scope [(star, list)] = w.assign scope star list :=
    fun list => bind_pure_unit
  simp only [Option.toList_some, List.map_cons, List.map_nil, single]

theorem fits_iff :
    fits elements.length targets.length (starIndex? targets) ↔ Suffices targets elements := by
  unfold Suffices
  cases found : starIndex? targets with
  | none => simp [fits, starIndex?_eq_none_iff.mp found]
  | some k =>
    have starred : ¬ Plain targets := fun plain => by simp [starIndex?_eq_none_iff.mpr plain] at found
    simp [fits, starred]

/-- What is reported is there afterwards, and once if everything was there at most once. -/
theorem report_noted : ∃ diagnostics journal,
      (report category span message).run s = .ok ((), { s with diagnostics, journal }) ∧
      ⟨category, span, message⟩ ∈ diagnostics ∧ (s.diagnostics.Nodup → diagnostics.Nodup) := by
  have ran : (report category span message).run s =
      if s.diagnostics.contains ⟨category, span, message⟩ then .ok ((), s)
      else .ok ((), { s.log .debug (Diagnostic.text ⟨category, span, message⟩) with
        diagnostics := s.diagnostics ++ [⟨category, span, message⟩] }) := by
    show (if s.diagnostics.contains ⟨category, span, message⟩ then _ else _ : Analysis Unit).run s = _
    split <;> rfl
  rw [ran]
  split
  · next known => exact ⟨s.diagnostics, s.journal, rfl, by simpa using known, id⟩
  · next new =>
    have other : ⟨category, span, message⟩ ∉ s.diagnostics := by simpa using new
    refine ⟨_, _, rfl, by simp, fun nodup => List.nodup_append.mpr ⟨nodup, by simp, ?_⟩⟩
    rintro d member _ last rfl
    exact other (List.mem_singleton.mp last ▸ member)

variable {value : TypeId} {d : TupleType} {s : State}

theorem run_destructure (isTuple : s.types.get value = .tuple d) :
    (w.destructure scope targets value span).run s =
      (if fits d.elements.length targets.length (starIndex? targets) then
        w.unpack scope targets d.elements (starIndex? targets)
      else do
        report .warning span
          s!"cannot unpack {d.elements.length} values into {targets.length} targets"
        w.assignEach scope (targets.map fun target => (target, .unknown)) : Analysis Unit).run s := by
  have read : (typeOf value).run s = .ok (.tuple d, s) := by rw [← isTuple]; rfl
  exact Walks.run_bind_eq read

/-- The bounds within which elements are taken apart: those of the targets behind the starred one are
there, and what they leave does not end before it starts. -/
theorem Suffices.bounds (enough : Suffices targets elements) (found : starIndex? targets = some k) :
    k + 1 ≤ targets.length ∧ targets.length - k - 1 ≤ elements.length ∧
      k ≤ elements.length - (targets.length - k - 1) := by
  obtain ⟨before, star, after, rfl, rfl, plain, starred⟩ := split_of_starIndex? found
  have some : ¬ Plain (before ++ star :: after) := fun plain => by
    rw [plain star (by simp)] at starred
    cases starred
  have few := enough.2 some
  simp only [List.length_append, List.length_cons] at few ⊢
  omega

/-- A tuple is dealt out to the targets, after a report if it does not suffice. -/
theorem destructure_deals (targets : List Expr) (span : Span) (isTuple : s.types.get value = .tuple d) :
    ∃ shares s', Shares targets d.elements shares ∧ shares.length = targets.length ∧
      (w.destructure scope targets value span).run s = (w.deal scope (targets.zip shares)).run s' ∧
      (Suffices targets d.elements → s' = s ∧ ∀ k, starIndex? targets = some k →
        k + 1 ≤ targets.length ∧ targets.length - k - 1 ≤ d.elements.length ∧
        k ≤ d.elements.length - (targets.length - k - 1)) ∧
      (¬ Suffices targets d.elements →
        s' = { s with diagnostics := s'.diagnostics, journal := s'.journal } ∧
        ⟨.warning, span, s!"cannot unpack {d.elements.length} values into {targets.length} targets"⟩ ∈
          s'.diagnostics ∧ (s.diagnostics.Nodup → s'.diagnostics.Nodup)) := by
  rw [run_destructure w scope isTuple]
  by_cases enough : Suffices targets d.elements
  · rw [if_pos (fits_iff.mpr enough)]
    suffices ∃ shares, Shares targets d.elements shares ∧
        w.unpack scope targets d.elements (starIndex? targets) = w.deal scope (targets.zip shares) by
      obtain ⟨shares, dealt, same⟩ := this
      exact ⟨shares, s, dealt, dealt.length_eq, by rw [same],
        fun _ => ⟨rfl, fun k found => enough.bounds found⟩, fun short => absurd enough short⟩
    cases found : starIndex? targets with
    | none =>
      have plain := starIndex?_eq_none_iff.mp found
      exact ⟨_, .even plain (enough.1 plain), (w.deal_elements scope).symm⟩
    | some k =>
      have bounds := enough.bounds found
      obtain ⟨before, star, after, rfl, rfl, plain, starred⟩ := split_of_starIndex? found
      simp only [List.length_append, List.length_cons] at bounds
      obtain ⟨front, middle, back, same, first, last⟩ :=
        split_elements (k := before.length) (n := after.length) d.elements (by omega)
      rw [same]
      exact ⟨_, .around plain starred first last, w.unpack_around scope first last⟩
  · rw [if_neg (fits_iff.not.mpr enough)]
    obtain ⟨diagnostics, journal, reported, noted, once⟩ := report_noted
    refine ⟨_, { s with diagnostics, journal }, .misfit enough, by simp, ?_,
      fun fitting => absurd fitting enough, fun _ => ⟨rfl, noted, once⟩⟩
    rw [Walks.run_bind_eq reported, deal_nothing]

/-- A state with one more tuple. -/
def withTuple (s : State) (elements : List TypeId) : State :=
  { s with heap := (s.heap.newTuple s.builtins.bases elements).2 }

theorem get_withTuple (s : State) (elements : List TypeId) : ∃ table,
    (withTuple s elements).types.get ⟨s.types.size⟩ = .tuple ⟨elements, table⟩ := by
  simp only [withTuple, State.types, Heap.newTuple, Heap.types_inheritTable, Heap.allocWithTable]
  exact ⟨_, TypeStore.get_alloc_new _ _⟩

theorem withTuple_valid (valid : s.Valid) (values : s.Values elements) :
    (withTuple s elements).Valid :=
  (walks_newTuple values valid ⟨s.types.size⟩ _ rfl).1.valid

/-- Numbers and texts in a tuple of five. -/
def fiveElements : State := withTuple .initial [.int, .str, .str, .int, .str]

/-- The targets `a, *b, c, d`. -/
def fourTargets : List Expr :=
  [.name default "a", .starred default (.name default "b"), .name default "c", .name default "d"]

/-- A walk of a few levels over no files. -/
def shallow : Walker := walker (MemoryTree.fileSystem {}) {} 4

/-- Two elements are left for the starred target. -/
theorem fourTargets_dealt : fiveElements.Valid ∧
    ∃ value d, fiveElements.types.get value = .tuple d ∧ Suffices fourTargets d.elements ∧
      ∃ shares s', Shares fourTargets d.elements shares ∧
        (shallow.destructure fiveElements.global fourTargets value default).run fiveElements =
          .ok ((), s') ∧
        (shallow.deal fiveElements.global (fourTargets.zip shares)).run fiveElements = .ok ((), s') := by
  obtain ⟨table, isTuple⟩ := get_withTuple .initial [.int, .str, .str, .int, .str]
  let value : TypeId := ⟨State.initial.types.size⟩
  have simple : ∀ v ∈ [TypeId.int, .str, .str, .int, .str], v.index < 10 ∧ v ≠ .cont := by decide
  have valid : fiveElements.Valid := withTuple_valid State.initial_valid fun v member =>
    State.initial_valid.simple (simple v member)
  have enough : Suffices fourTargets [.int, .str, .str, .int, .str] := fits_iff.mp (by decide)
  obtain ⟨_, s', ran, -⟩ : ∃ a s', (shallow.destructure fiveElements.global fourTargets value
      default).run fiveElements = .ok (a, s') ∧ True := Walks.exists_run (by decide +kernel)
  obtain ⟨shares, _, dealt, -, same, unchanged, -⟩ :=
    destructure_deals shallow fiveElements.global fourTargets default isTuple
  rw [(unchanged enough).1] at same
  exact ⟨valid, value, _, isTuple, enough, shares, s', dealt, ran, same ▸ ran⟩

end FlowTypes.Walker
