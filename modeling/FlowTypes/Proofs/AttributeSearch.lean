import FlowTypes.Scope
import Mathlib.Data.List.Nodup
import Mathlib.Data.List.Perm.Subperm
import Mathlib.Logic.Relation

/-! The search for an attribute. Tables inherit from each other in any way, also from the same table
twice and in a circle. The search goes to every table once, and it comes to the tables in the order of
a depth-first walk through all that can be reached. -/
namespace FlowTypes.ScopeStore

open Relation (ReflTransGen TransGen)

variable {s : ScopeStore} {name : String} {id sup t : ScopeId} {ids ids' seen seen' : List ScopeId}
  {r r' : Search}

/-! ### Tables that inherit from each other -/

def Inherits (s : ScopeStore) (id sup : ScopeId) : Prop := sup ∈ (s.get id).supers

/-- A table inherits from another one in some steps, or is the same. -/
abbrev Reaches (s : ScopeStore) : ScopeId → ScopeId → Prop := ReflTransGen s.Inherits

/-- No table inherits from itself. -/
def Acyclic (s : ScopeStore) : Prop := ∀ id, ¬ TransGen s.Inherits id id

theorem supers_eq_nil (outside : s.size ≤ id.index) : (s.get id).supers = [] := by
  have absent : s.scopes[id.index]? = none := Array.getElem?_eq_none outside
  rw [get, absent]
  rfl

/-! ### The order of a depth-first walk -/

/-- How many tables there are besides those that were seen. -/
def unseen (s : ScopeStore) (seen : List ScopeId) : Nat :=
  ((List.range s.size).filter fun i => ⟨i⟩ ∉ seen).length

theorem filter_unseen_sublist (more : seen ⊆ seen') :
    ((List.range s.size).filter fun i => ⟨i⟩ ∉ seen').Sublist
      ((List.range s.size).filter fun i => ⟨i⟩ ∉ seen) := by
  apply List.monotone_filter_right
  intro i new
  simp only [decide_eq_true_eq] at new ⊢
  exact fun known => new (more known)

theorem unseen_le (more : seen ⊆ seen') : s.unseen seen' ≤ s.unseen seen :=
  (filter_unseen_sublist more).length_le

theorem unseen_cons_lt (inside : id.index < s.size) (new : id ∉ seen) :
    s.unseen (id :: seen) < s.unseen seen := by
  have fewer := filter_unseen_sublist (s := s) (List.subset_cons_self id seen)
  apply Nat.lt_of_le_of_ne fewer.length_le
  intro same
  have missing : id.index ∈ (List.range s.size).filter fun i => ⟨i⟩ ∉ seen := by
    simpa using ⟨inside, new⟩
  rw [← fewer.eq_of_length same] at missing
  simp at missing

/-- The tables that a depth-first walk comes to, in its order. `agenda` is what is still ahead; the
tables that one inherits from come before the rest of it. -/
def walk (s : ScopeStore) (seen : List ScopeId) : List ScopeId → List ScopeId
  | [] => []
  | id :: agenda =>
    if id ∈ seen then s.walk seen agenda
    else id :: s.walk (id :: seen) ((s.get id).supers ++ agenda)
termination_by agenda => (s.unseen seen, agenda.length)
decreasing_by
  · exact Prod.Lex.right _ (Nat.lt_succ_self _)
  · rcases Nat.lt_or_ge id.index s.size with inside | outside
    · exact Prod.Lex.left _ _ (unseen_cons_lt inside ‹_›)
    · rw [supers_eq_nil outside]
      rcases Nat.lt_or_eq_of_le (unseen_le (s := s) (List.subset_cons_self id seen)) with less | same
      · exact Prod.Lex.left _ _ less
      · rw [same]
        exact Prod.Lex.right _ (Nat.lt_succ_self _)

/-- Everything that a table reaches, in depth-first preorder. -/
def preorder (s : ScopeStore) (id : ScopeId) : List ScopeId := s.walk [] [id]

theorem walk_nil : s.walk seen [] = [] := by rw [walk]

theorem walk_seen (known : id ∈ seen) : s.walk seen (id :: ids) = s.walk seen ids := by
  rw [walk, if_pos known]

theorem walk_new (new : id ∉ seen) :
    s.walk seen (id :: ids) = id :: s.walk (id :: seen) ((s.get id).supers ++ ids) := by
  rw [walk, if_neg new]

/-- It does not matter in which order the tables were seen. -/
theorem walk_congr (same : ∀ t, t ∈ seen ↔ t ∈ seen') : s.walk seen ids = s.walk seen' ids := by
  fun_induction s.walk seen ids generalizing seen' with
  | case1 => rw [walk_nil]
  | case2 seen id ids known ih => rw [walk_seen ((same id).mp known), ih same]
  | case3 seen id ids new ih =>
    rw [walk_new fun known => new ((same id).mpr known), ih]
    intro t
    simp only [List.mem_cons, same]

theorem walk_append (both : ∀ t, t ∈ seen' ↔ t ∈ seen ∨ t ∈ s.walk seen ids) :
    s.walk seen (ids ++ ids') = s.walk seen ids ++ s.walk seen' ids' := by
  fun_induction s.walk seen ids with
  | case1 seen =>
    rw [List.nil_append, List.nil_append]
    apply walk_congr
    intro t
    simp [both]
  | case2 seen id ids known ih => rw [List.cons_append, walk_seen known, ih both]
  | case3 seen id ids new ih =>
    rw [List.cons_append, walk_new new, List.cons_append, ← List.append_assoc, ih]
    intro t
    simp only [both, List.mem_cons]
    tauto

theorem not_mem_of_mem_walk (found : t ∈ s.walk seen ids) : t ∉ seen := by
  fun_induction s.walk seen ids with
  | case1 => cases found
  | case2 seen id ids known ih => exact ih found
  | case3 seen id ids new ih =>
    rcases List.mem_cons.mp found with rfl | found
    · exact new
    · exact fun known => ih found (List.mem_cons_of_mem id known)

theorem nodup_walk : (s.walk seen ids).Nodup := by
  fun_induction s.walk seen ids with
  | case1 => exact List.nodup_nil
  | case2 seen id ids known ih => exact ih
  | case3 seen id ids new ih =>
    apply List.nodup_cons.mpr
    constructor
    · exact fun found => not_mem_of_mem_walk found List.mem_cons_self
    · exact ih

theorem reaches_of_mem_walk (found : t ∈ s.walk seen ids) : ∃ id ∈ ids, s.Reaches id t := by
  fun_induction s.walk seen ids with
  | case1 => cases found
  | case2 seen id ids known ih =>
    obtain ⟨start, member, reaches⟩ := ih found
    exact ⟨start, List.mem_cons_of_mem id member, reaches⟩
  | case3 seen id ids new ih =>
    rcases List.mem_cons.mp found with rfl | found
    · exact ⟨t, List.mem_cons_self, .refl⟩
    · obtain ⟨start, member, reaches⟩ := ih found
      rcases List.mem_append.mp member with inherits | member
      · exact ⟨id, List.mem_cons_self, .head inherits reaches⟩
      · exact ⟨start, List.mem_cons_of_mem id member, reaches⟩

/-- Nothing is left out: if all that the tables seen so far inherit from was seen or is ahead, it was
seen or the walk comes to it, and so for the tables on the walk. -/
theorem walk_closed (s : ScopeStore) (seen ids : List ScopeId)
    (ahead : ∀ t ∈ seen, ∀ sup ∈ (s.get t).supers, sup ∈ seen ∨ sup ∈ ids) :
    (∀ t ∈ ids, t ∈ seen ∨ t ∈ s.walk seen ids) ∧
    ∀ t, t ∈ seen ∨ t ∈ s.walk seen ids → ∀ sup ∈ (s.get t).supers,
      sup ∈ seen ∨ sup ∈ s.walk seen ids := by
  fun_induction s.walk seen ids with
  | case1 seen =>
    constructor
    · exact fun _ found => nomatch found
    · intro t found
      rcases found with known | found
      · exact ahead t known
      · cases found
  | case2 seen id ids known ih =>
    obtain ⟨all, closed⟩ := ih fun t seen sup inherits => by
      rcases ahead t seen sup inherits with done | next
      · exact .inl done
      · rcases List.mem_cons.mp next with rfl | next
        · exact .inl known
        · exact .inr next
    constructor
    · intro t found
      rcases List.mem_cons.mp found with rfl | found
      · exact .inl known
      · exact all t found
    · exact closed
  | case3 seen id ids new ih =>
    obtain ⟨all, closed⟩ := ih fun t known sup inherits => by
      simp only [List.mem_cons, List.mem_append]
      rcases List.mem_cons.mp known with rfl | known
      · exact .inr (.inl inherits)
      · rcases ahead t known sup inherits with done | next
        · exact .inl (.inr done)
        · rcases List.mem_cons.mp next with rfl | next
          · exact .inl (.inl rfl)
          · exact .inr (.inr next)
    have moved : ∀ t, t ∈ id :: seen ∨ t ∈ s.walk (id :: seen) ((s.get id).supers ++ ids) ↔
        t ∈ seen ∨ t ∈ id :: s.walk (id :: seen) ((s.get id).supers ++ ids) := by
      intro t
      simp only [List.mem_cons]
      tauto
    simp only [moved] at all closed
    constructor
    · intro t found
      rcases List.mem_cons.mp found with rfl | found
      · exact .inr List.mem_cons_self
      · exact all t (List.mem_append_right _ found)
    · exact closed

theorem mem_preorder : t ∈ s.preorder id ↔ s.Reaches id t := by
  constructor
  · intro found
    obtain ⟨start, member, reaches⟩ := reaches_of_mem_walk found
    rwa [List.mem_singleton.mp member] at reaches
  · intro reaches
    obtain ⟨all, closed⟩ := walk_closed s [] [id] nofun
    simp only [List.not_mem_nil, false_or] at all closed
    induction reaches with
    | refl => exact all id List.mem_cons_self
    | tail _ inherits ih => exact closed _ ih _ inherits

theorem nodup_preorder : (s.preorder id).Nodup := nodup_walk

/-- Without circles, what a table inherits from reaches less than the table itself. -/
theorem Acyclic.length_preorder_lt (acyclic : s.Acyclic) (inherits : s.Inherits id sup) :
    (s.preorder sup).length < (s.preorder id).length := by
  have fewer : (id :: s.preorder sup).Subperm (s.preorder id) := by
    apply List.subperm_of_subset
    · apply List.nodup_cons.mpr
      constructor
      · intro found
        exact acyclic id (.head' inherits (mem_preorder.mp found))
      · exact nodup_preorder
    · intro t found
      rw [mem_preorder]
      rcases List.mem_cons.mp found with rfl | found
      · exact .refl
      · exact .head inherits (mem_preorder.mp found)
  exact fewer.length_le

/-! ### Searches -/

/-- A search through tables, one after the other, and through all that they inherit from. There is no
bound on how deep it leads. -/
inductive Searches (s : ScopeStore) (name : String) : Search → List ScopeId → Search → Prop
  | done (r : Search) : Searches s name r [] r
  | skip {r r' : Search} {id : ScopeId} {ids : List ScopeId}
      (idle : r.found.isSome = true ∨ id ∈ r.visited) (others : Searches s name r ids r') :
      Searches s name r (id :: ids) r'
  | hit {visited : List ScopeId} {id : ScopeId} {ids : List ScopeId} {bindings : List BindingId}
      {r' : Search} (new : id ∉ visited) (defined : s.lookupLocal id name = some bindings)
      (others : Searches s name ⟨some bindings, id :: visited⟩ ids r') :
      Searches s name ⟨none, visited⟩ (id :: ids) r'
  | enter {visited : List ScopeId} {id : ScopeId} {ids : List ScopeId} {mid r' : Search}
      (new : id ∉ visited) (undefined : s.lookupLocal id name = none)
      (supers : Searches s name ⟨none, id :: visited⟩ (s.get id).supers mid)
      (others : Searches s name mid ids r') : Searches s name ⟨none, visited⟩ (id :: ids) r'

namespace Searches

theorem visited_subset (search : s.Searches name r ids r') : r.visited ⊆ r'.visited := by
  induction search with
  | done => exact List.Subset.refl _
  | skip _ _ ih => exact ih
  | hit _ _ _ ih => exact List.Subset.trans (List.subset_cons_self _ _) ih
  | enter _ _ _ _ ih ih' =>
    exact List.Subset.trans (List.subset_cons_self _ _) (List.Subset.trans ih ih')

theorem eq_of_found (search : s.Searches name r ids r') (found : r.found.isSome = true) :
    r' = r := by
  induction search with
  | done => rfl
  | skip _ _ ih => exact ih found
  | hit | enter => cases found

/-- A search finds what comes first on the walk, and until then it goes where the walk goes. -/
theorem outcome (search : s.Searches name r ids r') (unfound : r.found = none) :
    r'.found = (s.walk r.visited ids).findSome? (s.lookupLocal · name) ∧
    (r'.found = none → ∀ t, t ∈ r'.visited ↔ t ∈ r.visited ∨ t ∈ s.walk r.visited ids) := by
  induction search with
  | done r =>
    rw [walk_nil]
    exact ⟨unfound, fun _ t => by simp⟩
  | @skip r r' id ids idle others ih =>
    have known : id ∈ r.visited := by simpa [unfound] using idle
    rw [walk_seen known]
    exact ih unfound
  | hit new defined others _ =>
    have same := others.eq_of_found rfl
    rw [walk_new new, List.findSome?_cons, defined, same]
    exact ⟨rfl, nofun⟩
  | @enter visited id ids mid r' new undefined supers others below beside =>
    obtain ⟨found, visits⟩ := below rfl
    rw [walk_new new, List.findSome?_cons, undefined]
    cases result : mid.found with
    | some bindings =>
      have same := others.eq_of_found (by rw [result]; rfl)
      -- The walk begins with the one through the tables that `id` inherits from.
      have split : s.walk (id :: visited) ((s.get id).supers ++ ids) =
          s.walk (id :: visited) (s.get id).supers ++
            s.walk (s.walk (id :: visited) (s.get id).supers ++ id :: visited) ids :=
        walk_append fun t => by rw [List.mem_append, or_comm]
      rw [same, split, List.findSome?_append, ← found, result]
      exact ⟨rfl, nofun⟩
    | none =>
      obtain ⟨found', visits'⟩ := beside result
      rw [walk_append (visits result), List.findSome?_append, ← found, result]
      refine ⟨found', fun nothing t => ?_⟩
      rw [visits' nothing t, visits result t, List.mem_cons, List.mem_cons, List.mem_append]
      tauto

end Searches

/-- The allowance lasts: every table that the search enters is one less to come. -/
theorem searches_foldl (room : Nat) (r : Search) (ids : List ScopeId)
    (enough : s.unseen r.visited < room) :
    s.Searches name r ids (ids.foldl (fun r id => s.searchFrom name room r id) r) := by
  induction room generalizing r ids with
  | zero => contradiction
  | succ room below =>
    induction ids generalizing r with
    | nil => exact .done r
    | cons id ids beside =>
      obtain ⟨found, visited⟩ := r
      rw [List.foldl_cons, searchFrom]
      split
      · case isTrue idle =>
        apply Searches.skip
        · simpa using idle
        · exact beside _ enough
      · case isFalse busy =>
        obtain ⟨rfl, new⟩ : found = none ∧ id ∉ visited := by simpa using busy
        have fewer := unseen_le (s := s) (List.subset_cons_self id visited)
        cases defined : s.lookupLocal id name with
        | some bindings => exact .hit new defined (beside _ (Nat.lt_of_le_of_lt fewer enough))
        | none =>
          have supers : s.Searches name ⟨none, id :: visited⟩ (s.get id).supers
              ((s.get id).supers.foldl (fun r sup => s.searchFrom name room r sup)
                ⟨none, id :: visited⟩) := by
            rcases Nat.lt_or_ge id.index s.size with inside | outside
            · apply below
              exact Nat.lt_of_lt_of_le (unseen_cons_lt inside new) (Nat.le_of_lt_succ enough)
            · rw [supers_eq_nil outside]
              exact .done _
          apply Searches.enter new defined supers
          apply beside
          exact Nat.lt_of_le_of_lt (Nat.le_trans (unseen_le supers.visited_subset) fewer) enough

theorem searches_from : s.Searches name {} [id] (s.searchFrom name (s.size + 1) {} id) := by
  apply searches_foldl (s.size + 1) {} [id]
  apply Nat.lt_succ_of_le
  simp [unseen]

theorem lookupAttribute_eq_findSome? :
    s.lookupAttribute id name = (s.preorder id).findSome? (s.lookupLocal · name) :=
  (searches_from.outcome rfl).1

/-! ### Searches without a record of the tables visited -/

/-- The search that goes to a table as often as something inherits from it. Without circles it comes
to an end. -/
def plainSearch (s : ScopeStore) (acyclic : s.Acyclic) (name : String) (id : ScopeId) :
    Option (List BindingId) :=
  (s.lookupLocal id name).or
    ((s.get id).supers.attach.findSome? fun sup => s.plainSearch acyclic name sup.1)
termination_by (s.preorder id).length
decreasing_by exact acyclic.length_preorder_lt sup.2

theorem plainSearch_eq (acyclic : s.Acyclic) :
    s.plainSearch acyclic name id = (s.lookupLocal id name).or
      ((s.get id).supers.findSome? (s.plainSearch acyclic name)) := by
  conv_rhs => rw [← List.attach_map_subtype_val (s.get id).supers, List.findSome?_map]
  rw [plainSearch]
  rfl

/-- A table that was visited was searched in vain, or is searched further up. Without circles only the
first can hold of a table that the search comes to again. -/
theorem Searches.plain (search : s.Searches name r ids r') (acyclic : s.Acyclic)
    (unfound : r.found = none)
    (visited : ∀ t ∈ r.visited, s.plainSearch acyclic name t = none ∨
      ∀ id ∈ ids, TransGen s.Inherits t id) :
    r'.found = ids.findSome? (s.plainSearch acyclic name) ∧
    (r'.found = none → ∀ t ∈ r'.visited, t ∈ r.visited ∨ s.plainSearch acyclic name t = none) := by
  induction search with
  | done r => exact ⟨unfound, fun _ _ known => .inl known⟩
  | @skip r r' id ids idle others ih =>
    have known : id ∈ r.visited := by simpa [unfound] using idle
    have vain : s.plainSearch acyclic name id = none := by
      rcases visited id known with vain | above
      · exact vain
      · exact absurd (above id List.mem_cons_self) (acyclic id)
    rw [List.findSome?_cons, vain]
    apply ih unfound
    intro t known
    rcases visited t known with vain | above
    · exact .inl vain
    · exact .inr fun id member => above id (List.mem_cons_of_mem _ member)
  | hit new defined others _ =>
    have same := others.eq_of_found rfl
    rw [List.findSome?_cons, plainSearch_eq, defined, same]
    exact ⟨rfl, nofun⟩
  | @enter visited' id ids mid r' new undefined supers others below beside =>
    obtain ⟨found, visits⟩ := below rfl fun t known => by
      rcases List.mem_cons.mp known with rfl | known
      · exact .inr fun sup inherits => .single inherits
      · rcases visited t known with vain | above
        · exact .inl vain
        · exact .inr fun sup inherits => .tail (above id List.mem_cons_self) inherits
    have own : s.plainSearch acyclic name id = mid.found := by
      rw [plainSearch_eq, undefined, found, Option.none_or]
    rw [List.findSome?_cons, own]
    cases result : mid.found with
    | some bindings =>
      have same := others.eq_of_found (by rw [result]; rfl)
      rw [same, result]
      exact ⟨rfl, nofun⟩
    | none =>
      have vain : ∀ t ∈ mid.visited, t ∈ visited' ∨ s.plainSearch acyclic name t = none := by
        intro t known
        rcases visits result t known with known | vain
        · rcases List.mem_cons.mp known with rfl | known
          · exact .inr (own.trans result)
          · exact .inl known
        · exact .inr vain
      obtain ⟨found', visits'⟩ := beside result fun t known => by
        rcases vain t known with known | vain
        · rcases visited t known with vain | above
          · exact .inl vain
          · exact .inr fun id member => above id (List.mem_cons_of_mem _ member)
        · exact .inl vain
      refine ⟨found', fun nothing t known => ?_⟩
      rcases visits' nothing t known with known | vain'
      · exact vain t known
      · exact .inr vain'

theorem lookupAttribute_eq_plainSearch (acyclic : s.Acyclic) :
    s.lookupAttribute id name = s.plainSearch acyclic name id := by
  obtain ⟨found, -⟩ := searches_from.plain acyclic rfl nofun
  rw [lookupAttribute, found, List.findSome?_singleton]

/-- The search for an attribute comes to an end however tables inherit from each other, and gives the
bindings of the first table in depth-first preorder that defines the name. It fails only if no table
that can be reached defines it. Without circles it needs no record of the tables visited. -/
theorem lookupAttribute_depthFirst (s : ScopeStore) (id : ScopeId) (name : String) :
    s.Searches name {} [id] (s.searchFrom name (s.size + 1) {} id) ∧
    (s.preorder id).Nodup ∧ (∀ t, t ∈ s.preorder id ↔ s.Reaches id t) ∧
    s.lookupAttribute id name = (s.preorder id).findSome? (s.lookupLocal · name) ∧
    (s.lookupAttribute id name = none ↔ ∀ t, s.Reaches id t → s.lookupLocal t name = none) ∧
    ∀ acyclic : s.Acyclic, s.lookupAttribute id name = s.plainSearch acyclic name id := by
  refine ⟨searches_from, nodup_preorder, fun _ => mem_preorder,
    lookupAttribute_eq_findSome?, ?_, fun acyclic => lookupAttribute_eq_plainSearch acyclic⟩
  rw [lookupAttribute_eq_findSome?, List.findSome?_eq_none_iff]
  simp only [mem_preorder]

/-- Four tables, the last of which is reached in two ways; the second one may lead back. -/
def stair (back : List ScopeId) : ScopeStore :=
  ⟨#[{ kind := .classBody, path := "a", parent := none, supers := [⟨1⟩, ⟨2⟩] },
    { kind := .classBody, path := "b", parent := none, supers := ⟨3⟩ :: back },
    { kind := .classBody, path := "c", parent := none, supers := [⟨3⟩], table := ⟨[("x", [⟨5⟩])]⟩ },
    { kind := .classBody, path := "d", parent := none, table := ⟨[("x", [⟨7⟩])]⟩ }]⟩

theorem acyclic_stair : (stair []).Acyclic := by
  have climbs : ∀ {id sup}, (stair []).Inherits id sup → id.index < sup.index := by
    rintro ⟨i⟩ sup inherits
    rcases Nat.lt_or_ge i 4 with inside | outside
    · have links : ∀ i < 4, ∀ sup ∈ ((stair []).get ⟨i⟩).supers, i < sup.index := by decide
      exact links i inside sup inherits
    · have nothing : ((stair []).get ⟨i⟩).supers = [] := supers_eq_nil outside
      rw [Inherits, nothing] at inherits
      cases inherits
  have rises : ∀ {id t}, TransGen (stair []).Inherits id t → id.index < t.index := by
    intro id t path
    induction path with
    | single inherits => exact climbs inherits
    | tail _ inherits ih => exact Nat.lt_trans ih (climbs inherits)
  exact fun id circle => Nat.lt_irrefl _ (rises circle)

/-- The table `d` comes before `c`, and the circle between `a` and `b` leads nowhere. -/
theorem stair_searched : (stair [⟨0⟩]).Inherits ⟨0⟩ ⟨1⟩ ∧ (stair [⟨0⟩]).Inherits ⟨1⟩ ⟨0⟩ ∧
    ((stair [⟨0⟩]).preorder ⟨0⟩).findSome? ((stair [⟨0⟩]).lookupLocal · "x") = some [⟨7⟩] ∧
    (∀ t, (stair [⟨0⟩]).Reaches ⟨0⟩ t → (stair [⟨0⟩]).lookupLocal t "y" = none) ∧
    ∃ acyclic : (stair []).Acyclic, (stair []).plainSearch acyclic "x" ⟨0⟩ = some [⟨7⟩] := by
  have found : ∀ back ∈ [[⟨0⟩], []], (stair back).lookupAttribute ⟨0⟩ "x" = some [⟨7⟩] := by decide
  have missing : (stair [⟨0⟩]).lookupAttribute ⟨0⟩ "y" = none := by decide
  obtain ⟨-, -, -, first, -, -⟩ := lookupAttribute_depthFirst (stair [⟨0⟩]) ⟨0⟩ "x"
  obtain ⟨-, -, -, -, nowhere, -⟩ := lookupAttribute_depthFirst (stair [⟨0⟩]) ⟨0⟩ "y"
  obtain ⟨-, -, -, -, -, plain⟩ := lookupAttribute_depthFirst (stair []) ⟨0⟩ "x"
  refine ⟨.head _, .tail _ (.head _), ?_, nowhere.mp missing, acyclic_stair, ?_⟩
  · rw [← first]
    exact found _ List.mem_cons_self
  · rw [← plain acyclic_stair]
    exact found _ (.tail _ (.head _))

end FlowTypes.ScopeStore
