import FlowTypes.Proofs.StoreInvariant

/-! Stores that grow. New types, and what is noted about classes and functions, change no comparison
between the types that were there before. -/
namespace FlowTypes

namespace Ty

variable {t u v : Ty}

/-- The types by which a type is compared with others. -/
def parts : Ty → List TypeId
  | list d => [d.element]
  | dict d => [d.key, d.value]
  | tuple d => d.elements
  | union types => types
  | _ => []

/-- The same type, up to what is noted about classes and functions. -/
def SameShape : Ty → Ty → Prop
  | function f, function g => g.origin = f.origin ∧ g.definition = f.definition
  | classType _, classType _ => True
  | t, u => u = t

theorem SameShape.refl : t.SameShape t := by
  cases t <;> simp [SameShape]

theorem sameShape_iff : t.SameShape u ↔ u = t ∨
    (∃ f g, t = .function f ∧ u = .function g ∧ g.origin = f.origin ∧
      g.definition = f.definition) ∨ ∃ c c', t = .classType c ∧ u = .classType c' := by
  cases t <;> cases u <;> simp +contextual [SameShape]

theorem SameShape.trans (h : t.SameShape u) (h' : u.SameShape v) : t.SameShape v := by
  rcases sameShape_iff.mp h with rfl | ⟨f, g, rfl, rfl, origin, definition⟩ | ⟨c, c', rfl, rfl⟩
  · exact h'
  · cases v <;> simp_all [SameShape]
  · cases v <;> simp_all [SameShape]

end Ty

namespace TypeStore

variable {P : TypeStore → TypeId → Prop} {s s' s'' : TypeStore} {a b id : TypeId} {t : Ty}

/-- Every type of the first store is in the second with the same shape. -/
structure Grows (s s' : TypeStore) : Prop where
  has : ∀ {id}, s.Has id → s'.Has id
  shape : ∀ {id}, s.Has id → (s.get id).SameShape (s'.get id)

theorem Grows.refl : s.Grows s := ⟨fun has => has, fun _ => .refl⟩

theorem Grows.trans (h : s.Grows s') (h' : s'.Grows s'') : s.Grows s'' where
  has := fun has => h'.has (h.has has)
  shape := fun has => (h.shape has).trans (h'.shape (h.has has))

theorem grows_alloc (s : TypeStore) (t : Ty) : s.Grows (s.alloc t).2 where
  has := kept_alloc.has
  shape := fun has => by
    rw [get_alloc has]
    exact .refl

theorem Note.sameShape (h : Note P s old new) : old.SameShape new := by
  cases h with
  | ofClass => trivial
  | ofFunction _ origin definition _ => exact ⟨origin, definition⟩

theorem Addition.grows (h : Addition P s s') : s.Grows s' := by
  cases h with
  | alloc fits => exact grows_alloc _ _
  | @note id t note =>
    refine ⟨fun has => by simpa only [Has, size_set] using has, fun {a} has => ?_⟩
    by_cases same : a = id
    · subst same
      rw [get_set_self has]
      exact note.sameShape
    · rw [get_set_of_ne same]
      exact .refl

theorem Additions.grows (h : Additions P s s') : s.Grows s' := by
  induction h with
  | refl => exact .refl
  | tail _ step ih => exact ih.trans step.grows

/-! ### Comparisons between old types -/

/-- A store that comparisons do not lead out of: the parts by which a type is compared are in it, and
so is every function on the way back from a bound method, which comes to an end. -/
structure Closed (s : TypeStore) : Prop where
  parts : ∀ id, ∀ m ∈ (s.get id).parts, s.Has m
  origins : ∀ a o, s.origin? a = some o → s.Has o
  finite : s.FiniteOrigins

theorem Sound.closed [Reference P] (sound : Sound P s) : s.Closed where
  parts := fun id m member => by
    have refers := fun other => Reference.has ((sound.fits id).refers m other)
    have flat := (sound.fits id).flat
    generalize s.get id = t at member refers flat
    cases t with
    | union types => exact (flat types rfl m member).1
    | list d => exact refers (List.mem_cons.mpr (.inl (List.mem_singleton.mp member)))
    | dict | tuple => exact refers member
    | _ => cases member
  origins := fun a o origin => by
    obtain ⟨f, found, origin⟩ := Option.bind_eq_some_iff.mp origin
    obtain ⟨g, found, _⟩ := sound.origin (function?_eq_some.mp found) origin
    exact has_of_get (by simp [found])
  finite := sound.finiteOrigins

section Comparisons

variable (grows : s.Grows s')

include grows

theorem Grows.origin? (ha : s.Has a) : s'.origin? a = s.origin? a := by
  unfold TypeStore.origin? function?
  rcases Ty.sameShape_iff.mp (grows.shape ha) with same | ⟨f, g, old, new, origin, _⟩ |
    ⟨c, c', old, new⟩
  · rw [same]
  · simp [old, new, origin]
  · simp [old, new]

variable (closed : s.Closed)

include closed

theorem Leads.mono (h : s.Leads n a o) (ha : s.Has a) : s'.Leads n a o := by
  induction h with
  | @own a last => exact .own (by simpa only [grows.origin? ha] using last)
  | @bound n a o r step other _ ih =>
    refine .bound ?_ other (ih (closed.origins a o step))
    simpa only [grows.origin? ha] using step

theorem Closed.originOf (ha : s.Has a) : s'.originOf a = s.originOf a := by
  obtain ⟨n, o, leads⟩ := closed.finite a
  rw [leads.originOf, (leads.mono grows closed ha).originOf]

theorem Closed.compare (ha : s.Has a) (hb : s.Has b) : s'.compare a b = s.compare a b := by
  unfold TypeStore.compare sameFunction
  rw [closed.originOf grows ha, closed.originOf grows hb]
  rcases Ty.sameShape_iff.mp (grows.shape ha) with same | ⟨f, g, old, new, _, definition⟩ |
    ⟨c, c', old, new⟩ <;>
  rcases Ty.sameShape_iff.mp (grows.shape hb) with same' | ⟨f', g', old', new', _, definition'⟩ |
    ⟨d, d', old', new'⟩
  · rw [same, same']
  · rw [same, old', new']
    cases s.get a <;> simp [definition']
  · rw [same, old', new']
    cases s.get a <;> rfl
  · rw [same', old, new]
    cases s.get b <;> simp [definition]
  · simp [old, new, old', new', definition, definition']
  · simp [old, new, old', new']
  · rw [same', old, new]
  · simp [old, new, old', new']
  · simp [old, new, old', new']

omit grows in
theorem holds_has {R : TypeId → TypeId → Prop} (h : (s.compare a b).Holds R) :
    (s.compare a b).Holds fun x y => R x y ∧ s.Has x ∧ s.Has y := by
  have has := closed.parts a
  have has' := closed.parts b
  unfold TypeStore.compare at h ⊢
  generalize s.get a = p, s.get b = q at h has has' ⊢
  cases p <;> cases q
  case list.list l r =>
    simp only [Comparison.Holds, List.forall_mem_singleton] at h ⊢
    exact ⟨h, has _ List.mem_cons_self, has' _ List.mem_cons_self⟩
  case dict.dict l r =>
    simp only [Comparison.Holds, List.forall_mem_cons, List.not_mem_nil, false_implies,
      implies_true, and_true, Ty.parts] at h has has' ⊢
    exact ⟨⟨h.1, has.1, has'.1⟩, h.2, has.2, has'.2⟩
  case tuple.tuple l r =>
    by_cases same : l.elements.length = r.elements.length
    · simp only [if_pos same, Comparison.Holds] at h ⊢
      intro p member
      have places := List.of_mem_zip member
      exact ⟨h p member, has _ places.1, has' _ places.2⟩
    · simp only [if_neg same] at h
      cases h
  case union.union l r =>
    refine ⟨fun x hx => ?_, fun y hy => ?_⟩
    · obtain ⟨y, hy, related⟩ := h.1 x hx
      exact ⟨y, hy, related, has x hx, has' y hy⟩
    · obtain ⟨x, hx, related⟩ := h.2 y hy
      exact ⟨x, hx, related, has x hx, has' y hy⟩
  all_goals exact h

theorem Closed.equal (ha : s.Has a) (hb : s.Has b) : s'.equal a b = s.equal a b := by
  have half : ∀ u v : TypeStore,
      (∀ {x y}, s.Has x → s.Has y → u.compare x y = s.compare x y) →
      (∀ {x y}, s.Has x → s.Has y → v.compare x y = s.compare x y) →
      u.EqualUpTo (fun _ _ => False) a b → v.EqualUpTo (fun _ _ => False) a b := by
    rintro u v hu hv ⟨R, bisim, related⟩
    refine ⟨fun x y => R x y ∧ s.Has x ∧ s.Has y, ?_, related, ha, hb⟩
    rintro x y ⟨hxy, hx, hy⟩
    refine (bisim x y hxy).imp_right fun holds => ?_
    rw [hu hx hy] at holds
    rw [hv hx hy]
    refine (holds_has closed holds).mono ?_
    rintro u v ⟨huv | assumed, has⟩
    · exact .inl ⟨huv, has⟩
    · exact .inr assumed
  rw [Bool.eq_iff_iff, equal_iff_equalUpTo, equal_iff_equalUpTo]
  exact ⟨half s' s (closed.compare grows) fun _ _ => rfl,
    half s s' (fun _ _ => rfl) (closed.compare grows)⟩

end Comparisons

theorem Grows.originOf (grows : s.Grows s') (wf : s.WellFormed) (ha : s.Has a) :
    s'.originOf a = s.originOf a :=
  wf.closed.originOf grows ha

theorem Grows.equal (grows : s.Grows s') (wf : s.WellFormed) (ha : s.Has a) (hb : s.Has b) :
    s'.equal a b = s.equal a b :=
  wf.closed.equal grows ha hb

end TypeStore
end FlowTypes
