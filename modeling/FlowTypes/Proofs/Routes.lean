import FlowTypes.Proofs.UnionCoverage
import FlowTypes.Proofs.Walk.Calls

/-! The way of a returned type through the unions that are made of it. A union covers its operands,
unless one is given back for it that happens to have the right number of alternatives; and an
alternative that it leaves out, because another one is equal, may differ from that one later. -/
namespace FlowTypes

open TypeStore Analysis

variable {s s' : State} {a b u x : TypeId}

namespace TypeStore

variable {σ : TypeStore} {P : TypeStore → TypeId → Prop}

theorem mem_alternatives_union (sound : Sound P σ) (ha : σ.Has a) (hb : σ.Has b)
    (member : x ∈ (σ.union a b).2.alternatives (σ.union a b).1) :
    x ∈ σ.alternatives a ++ σ.alternatives b := by
  have plain := sound.distinct ha hb
  have joins := σ.union_joins a b
  generalize σ.union a b = result at joins member
  cases joins with
  | same | first => exact List.mem_append_left _ member
  | second => exact List.mem_append_right _ member
  | @single t different types =>
    have only : t ∈ σ.distinct (σ.alternatives a ++ σ.alternatives b) := by simp [types]
    rw [alternatives_of_not_union (plain t only).2, List.mem_singleton] at member
    exact mem_of_mem_distinct (member ▸ only)
  | fresh =>
    exact mem_of_mem_distinct (alternatives_of_union (get_alloc_new σ _) ▸ member)

theorem Sound.contains_trans (sound : Sound P σ) (covers : ∀ y ∈ σ.alternatives a, σ.contains b y = true)
    (h : σ.contains a x = true) : σ.contains b x = true :=
  covered_trans sound.equal_trans covers h

/-- Without the mark a flow still covers what else it covered. -/
theorem Sound.remove_contains (sound : Sound P σ) (sound' : Sound P final) (ha : σ.Has a)
    (kept : Kept (σ.remove a .cont).2 final) (h : final.contains a x = true)
    (other : final.get x ≠ .cont) :
    ∃ v, (σ.remove a .cont).1 = some v ∧ final.contains v x = true := by
  have later : Kept σ final := (sound.remove ha).changes.kept.trans kept
  obtain ⟨y, member, same⟩ := covered_iff.mp h
  rw [later.alternatives ha] at member
  obtain ⟨has, plain⟩ := sound.flat ha y member
  have there : y ∈ σ.without a .cont := by
    refine mem_without.mpr ⟨member, Bool.eq_false_iff.mpr fun mark => other ?_⟩
    have marked : final.get y = .cont :=
      (later.stays has).cont_iff.mpr (sound.equal_cont_iff.mp mark)
    exact sound'.equal_cont_iff.mp
      (sound'.equal_trans (equal_symm same) (sound'.equal_cont_iff.mpr marked))
  have removes := σ.remove_removes a .cont
  generalize σ.remove a .cont = result at removes kept ⊢
  cases removes with
  | nothing empty => simp [empty] at there
  | @single z one =>
    obtain rfl : y = z := by simpa [one] using there
    have alternatives := alternatives_of_not_union ((later.isUnion has).trans plain)
    exact ⟨y, rfl, covered_iff.mpr ⟨y, by simp [alternatives], same⟩⟩
  | whole => exact ⟨a, rfl, h⟩
  | fresh =>
    have new : (σ.alloc (.union (σ.without a .cont))).2.Has (σ.alloc (.union (σ.without a .cont))).1 := by
      simp [Has, alloc, size]
    refine ⟨_, rfl, covered_iff.mpr ⟨y, ?_, same⟩⟩
    rw [kept.alternatives new]
    exact (alternatives_of_union (get_alloc_new σ _)).symm ▸ there

end TypeStore

/-! ### Unions on the way -/

/-- Two flows that are united, and the store in which they are. -/
structure Join where
  store : TypeStore
  left : TypeId
  right : TypeId

namespace Join

variable {final : TypeStore}

def alternatives (j : Join) : List TypeId :=
  j.store.alternatives j.left ++ j.store.alternatives j.right

/-- The union covers both flows, and those of their alternatives that are equal stay so. -/
structure Faithful (final : TypeStore) (j : Join) : Prop where
  keeps : ¬j.store.Loses j.left j.right
  stays : ∀ x ∈ j.alternatives, ∀ y ∈ j.alternatives,
    j.store.equal x y = true → final.equal x y = true

instance (final : TypeStore) (j : Join) : Decidable (j.Faithful final) :=
  decidable_of_iff (¬j.store.Loses j.left j.right ∧ ∀ x ∈ j.alternatives, ∀ y ∈ j.alternatives,
    j.store.equal x y = true → final.equal x y = true) ⟨fun h => ⟨h.1, h.2⟩, fun h => ⟨h.1, h.2⟩⟩

theorem Faithful.covers {j : Join} (faithful : j.Faithful final) (sound : Sound Value j.store)
    (hl : j.store.Has j.left) (hr : j.store.Has j.right)
    (kept : Kept (j.store.union j.left j.right).2 final) (member : x ∈ j.alternatives) :
    final.contains (j.store.union j.left j.right).1 x = true := by
  obtain ⟨additions, has⟩ := sound.union_flow hl hr
  have covered := (sound.wellFormed.covers_iff hl hr).mpr faithful.keeps x member
  obtain ⟨y, alternative, same⟩ := covered_iff.mp covered
  have old := mem_alternatives_union sound hl hr alternative
  have exist : ∀ z ∈ j.alternatives, j.store.Has z := fun z member => by
    rcases List.mem_append.mp member with member | member
    · exact (sound.flat hl z member).1
    · exact (sound.flat hr z member).1
  rw [additions.grows.equal sound.wellFormed (exist y old) (exist x member)] at same
  exact covered_iff.mpr
    ⟨y, (kept.alternatives has).symm ▸ alternative, faithful.stays y old x member same⟩

end Join

/-- The unions that are made of a flow and one that may be missing. -/
def joinsOf (store : TypeStore) (a : Option TypeId) (b : TypeId) : List Join :=
  (a.map (⟨store, ·, b⟩)).toList

/-- The type that a return statement gives, and the unions that it has gone through since. -/
structure Route where
  type : TypeId
  joins : List Join := []

namespace Route

variable {r : Route}

def through (joins : List Join) (r : Route) : Route := { r with joins := r.joins ++ joins }

/-- In any later store a flow covers the type, if all unions were faithful. -/
structure Leads (s : State) (r : Route) (flow : Option TypeId) : Prop where
  value : s.Value r.type
  arrives : ∀ final, Sound Value final → Kept s.types final → (∀ j ∈ r.joins, j.Faithful final) →
    ∀ x ∈ s.types.alternatives r.type, ∃ v, flow = some v ∧ final.contains v x = true

theorem Leads.onward (leads : r.Leads s flow) (on : Onward s s') : r.Leads s' flow where
  value := on.value leads.value
  arrives final sound kept faithful x member :=
    leads.arrives final sound (on.kept.trans kept) faithful x
      (on.kept.alternatives leads.value.has ▸ member)

theorem Leads.start (value : s.Value a) : Leads s { type := a } (some a) where
  value := value
  arrives _ _ kept _ _ member :=
    ⟨a, rfl, covered_of_mem (kept.alternatives value.has ▸ member)⟩

theorem Leads.anywhere (leads : r.Leads s none) : r.Leads s flow where
  value := leads.value
  arrives final sound kept faithful x member := by
    obtain ⟨_, ⟨⟩, _⟩ := leads.arrives final sound kept faithful x member

end Route

/-! ### Gathering -/

/-- Flows that are gathered one after the other. -/
structure Gathering (ι α : Type) where
  walk : ι → Analysis TypeId
  merge : α → TypeId → Analysis α
  /-- The unions that merging makes. -/
  joins : TypeStore → α → TypeId → List Join
  /-- Whether control can come to what is after a flow. -/
  goesOn : TypeStore → TypeId → Bool

namespace Gathering

variable {ι α : Type} (G : Gathering ι α)

def gather (acc : α) (xs : List ι) : Analysis α :=
  xs.foldlM (fun acc x => do G.merge acc (← G.walk x)) acc

/-- The unions that are made with what has been gathered, on to the end. -/
inductive Joins : α → List ι → State → List Join → Prop
  | nil {acc : α} {s : State} : Joins acc [] s []
  | cons {acc acc' : α} {x : ι} {xs : List ι} {s s₁ s₂ : State} {flow : TypeId} {joins : List Join}
      (walked : (G.walk x).run s = .ok (flow, s₁))
      (merged : (G.merge acc flow).run s₁ = .ok (acc', s₂))
      (rest : Joins acc' xs s₂ joins) : Joins acc (x :: xs) s (G.joins s₁.types acc flow ++ joins)

/-- The routes from the return statements inside of the members that control can come to. -/
inductive Returns (inside : ι → State → Route → Prop) : α → List ι → State → Route → Prop
  | here {acc : α} {x : ι} {xs : List ι} {s : State} {route : Route} {joins : List Join}
      (returns : inside x s route) (rest : G.Joins acc (x :: xs) s joins) :
      Returns inside acc (x :: xs) s (route.through joins)
  | later {acc acc' : α} {x : ι} {xs : List ι} {s s₁ s₂ : State} {flow : TypeId} {route : Route}
      (walked : (G.walk x).run s = .ok (flow, s₁)) (goesOn : G.goesOn s₁.types flow = true)
      (merged : (G.merge acc flow).run s₁ = .ok (acc', s₂))
      (there : Returns inside acc' xs s₂ route) : Returns inside acc (x :: xs) s route

end Gathering

/-! ### Unions and removals on a route -/

theorem Join.Faithful.contains (valid : s.Valid) (ha : s.Has a) (hb : s.Has b)
    (faithful : Join.Faithful final ⟨s.types, a, b⟩) (sound : Sound Value final)
    (kept : Kept (s.types.union a b).2 final) (operand : v = a ∨ v = b)
    (h : final.contains v x = true) : final.contains (s.types.union a b).1 x = true := by
  have later : Kept s.types final :=
    (valid.heap.sound.union_flow ha hb).1.changes.kept.trans kept
  refine sound.contains_trans (fun y member => ?_) h
  refine faithful.covers valid.heap.sound ha hb kept ?_
  rcases operand with rfl | rfl
  · exact List.mem_append_left _ (later.alternatives ha ▸ member)
  · exact List.mem_append_right _ (later.alternatives hb ▸ member)

theorem Route.Leads.union {r : Route} (valid : s.Valid) (ha : s.Has a) (hb : s.Has b)
    (operand : u = a ∨ u = b) (leads : r.Leads s (some u)) :
    (r.through [⟨s.types, a, b⟩]).Leads { s with heap.types := (s.types.union a b).2 }
      (some (s.types.union a b).1) := by
  have grown : Kept s.types (s.types.union a b).2 :=
    (valid.heap.sound.union_flow ha hb).1.changes.kept
  refine ⟨leads.value.mono grown, fun final sound kept faithful x member => ⟨_, rfl, ?_⟩⟩
  obtain ⟨before, last⟩ := List.forall_mem_append.mp faithful
  obtain ⟨v, found, covered⟩ := leads.arrives final sound (grown.trans kept) before x
    (grown.alternatives leads.value.has ▸ member)
  obtain rfl := Option.some.inj found
  exact (last _ (List.mem_singleton_self _)).contains valid ha hb sound kept operand covered

theorem Route.through_nil (r : Route) : r.through [] = r := by
  simp [Route.through]

theorem Route.through_append (r : Route) {joins joins' : List Join} :
    r.through (joins ++ joins') = (r.through joins).through joins' := by
  simp [Route.through]

theorem walks_unionOpt_leads {a : Option TypeId} (ha : ∀ v, a = some v → s.Has v) (hb : s.Has b) :
    Walks (unionOpt a b) s fun s' u => s'.Has u ∧ ∀ r : Route,
      r.Leads s a ∨ r.Leads s (some b) → (r.through (joinsOf s.types a b)).Leads s' (some u) := by
  cases a with
  | none =>
    refine .pure ⟨hb, fun r leads => ?_⟩
    have same : r.through (joinsOf s.types none b) = r := r.through_nil
    rw [same]
    exact leads.elim (·.anywhere) id
  | some a =>
    intro valid u s' ran
    obtain ⟨on, has⟩ := walks_union_flow (ha a rfl) hb valid u s' ran
    refine ⟨on, has, fun r leads => ?_⟩
    cases ran
    rcases leads with leads | leads
    · exact leads.union valid (ha a rfl) hb (.inl rfl)
    · exact leads.union valid (ha a rfl) hb (.inr rfl)

theorem walks_remove_leads (hf : s.Has flow) : Walks (remove flow .cont) s fun s' rest =>
      s.types.remove flow .cont = (rest, s'.types) ∧ s'.Optional rest ∧
        ∀ r : Route, r.Leads s (some flow) → r.Leads s' rest := by
  intro valid rest s' ran
  obtain ⟨on, known⟩ := walks_remove_cont hf valid rest s' ran
  cases ran
  refine ⟨on, rfl, known, fun r leads => ⟨on.value leads.value, ?_⟩⟩
  intro final sound kept faithful x member
  have value : final.Value r.type := (on.value leads.value).mono kept
  obtain ⟨v, found, covered⟩ := leads.arrives final sound (on.kept.trans kept) faithful x
    (on.kept.alternatives leads.value.has ▸ member)
  cases found
  exact valid.heap.sound.remove_contains sound hf kept covered
    (value.2 x (kept.alternatives (on.value leads.value).has ▸ member)).2

/-! ### Routes through what is gathered -/

theorem run_unique {m : Analysis α} {a b : α} (ran : m.run s = .ok (a, s₁))
    (ran' : m.run s = .ok (b, s₂)) : a = b ∧ s₁ = s₂ := by
  cases ran.symm.trans ran'
  exact ⟨rfl, rfl⟩

namespace Gathering

variable {ι α : Type} {G : Gathering ι α} {acc acc' : α} {xs : List ι} {r : Route}
  {target : α → Option TypeId} {Ok : State → α → Prop} {Open : α → Prop}

theorem run_gather_cons {x : ι} (ran : (G.gather acc (x :: xs)).run s = .ok (acc', s')) :
    ∃ flow s₁ mid s₂, (G.walk x).run s = .ok (flow, s₁) ∧
      (G.merge acc flow).run s₁ = .ok (mid, s₂) ∧ (G.gather mid xs).run s₂ = .ok (acc', s') := by
  rw [gather, List.foldlM_cons] at ran
  obtain ⟨mid, s₂, ran, rest⟩ := Walks.run_bind ran
  obtain ⟨flow, s₁, walked, merged⟩ := Walks.run_bind ran
  exact ⟨flow, s₁, mid, s₂, walked, merged, rest⟩

/-- A route into what has been gathered goes on into what is gathered later, and one into a flow that
is added while the gathering is open joins it. -/
structure Lawful (G : Gathering ι α) (target : α → Option TypeId) (Ok : State → α → Prop)
    (Open : α → Prop) : Prop where
  walks {s : State} (x : ι) : Walks (G.walk x) s State.Has
  onward {s s' : State} {acc : α} (on : Onward s s') (ok : Ok s acc) : Ok s' acc
  merges {s : State} {acc : α} {flow : TypeId} (ok : Ok s acc) (hf : s.Has flow) :
    Walks (G.merge acc flow) s fun s' acc' => Ok s' acc' ∧
      (G.goesOn s.types flow = true → Open acc → Open acc') ∧
      ∀ r : Route, r.Leads s (target acc) ∨ Open acc ∧ r.Leads s (some flow) →
        (r.through (G.joins s.types acc flow)).Leads s' (target acc')

theorem Lawful.walks_gather (lawful : G.Lawful target Ok Open)
    (ok : Ok s acc) : Walks (G.gather acc xs) s Ok := by
  refine .foldlM ok fun x _ _ acc _ ok => ?_
  refine (lawful.walks x).bind fun flow _ on₂ hf => ?_
  exact (lawful.merges (lawful.onward on₂ ok) hf).mono fun _ _ _ known => known.1

theorem Lawful.next {x : ι} (lawful : G.Lawful target Ok Open) (valid : s.Valid) (ok : Ok s acc)
    (walked : (G.walk x).run s = .ok (flow, s₁))
    (merged : (G.merge acc flow).run s₁ = .ok (mid, s₂))
    (ran : (G.gather acc (x :: xs)).run s = .ok (acc', s')) :
    s₂.Valid ∧ Ok s₂ mid ∧ (G.gather mid xs).run s₂ = .ok (acc', s') ∧
      (G.goesOn s₁.types flow = true → Open acc → Open mid) ∧
      ∀ r : Route, r.Leads s (target acc) ∨ Open acc ∧ r.Leads s₁ (some flow) →
        (r.through (G.joins s₁.types acc flow)).Leads s₂ (target mid) := by
  obtain ⟨_, _, _, _, walked', merged', ran⟩ := run_gather_cons ran
  obtain ⟨rfl, rfl⟩ := run_unique walked walked'
  obtain ⟨rfl, rfl⟩ := run_unique merged merged'
  obtain ⟨on₁, hf⟩ := lawful.walks x valid _ _ walked
  obtain ⟨on₂, ok, stays, joined⟩ := lawful.merges (lawful.onward on₁ ok) hf on₁.valid _ _ merged
  exact ⟨on₂.valid, ok, ran, stays, fun r leads => joined r (leads.imp_left (·.onward on₁))⟩

theorem Joins.leads {joins : List Join} (lawful : G.Lawful target Ok Open)
    (rest : G.Joins acc xs s joins) (valid : s.Valid) (ok : Ok s acc)
    (leads : r.Leads s (target acc)) (ran : (G.gather acc xs).run s = .ok (acc', s')) :
    (r.through joins).Leads s' (target acc') := by
  induction rest generalizing r with
  | nil =>
    cases ran
    rwa [r.through_nil]
  | cons walked merged rest ih =>
    obtain ⟨valid, ok, ran, _, joined⟩ := lawful.next valid ok walked merged ran
    rw [r.through_append]
    exact ih valid ok (joined r (.inl leads)) ran

theorem Returns.leads {inside : ι → State → Route → Prop} (lawful : G.Lawful target Ok Open)
    (each : ∀ {x : ι} {s s' : State} {r : Route} {flow : TypeId}, s.Valid → inside x s r →
      (G.walk x).run s = .ok (flow, s') → r.Leads s' (some flow))
    (returns : G.Returns inside acc xs s r) (valid : s.Valid) (ok : Ok s acc) (isOpen : Open acc)
    (ran : (G.gather acc xs).run s = .ok (acc', s')) : r.Leads s' (target acc') := by
  induction returns with
  | here returns rest =>
    cases rest with
    | cons walked merged rest =>
      have leads := each valid returns walked
      obtain ⟨valid, ok, ran, _, joined⟩ := lawful.next valid ok walked merged ran
      rw [Route.through_append]
      exact rest.leads lawful valid ok (joined _ (.inr ⟨isOpen, leads⟩)) ran
  | later walked goesOn merged there ih =>
    obtain ⟨valid, ok, ran, stays, _⟩ := lawful.next valid ok walked merged ran
    exact ih valid ok (stays goesOn isOpen) ran

end Gathering

end FlowTypes
