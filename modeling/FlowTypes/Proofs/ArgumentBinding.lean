import FlowTypes.Proofs.Walk.Logic

/-! What parameters are given in a call. Each of them has one type, from what those in front of it leave
of the arguments. What is left can be said of the parameters as a whole: the positional arguments go to
the normal parameters in order, and the keywords to those that have no positional argument. So no
argument is lost where there are parameters for the rest of them, and none is given twice. -/
namespace FlowTypes

namespace TypeStore

variable {s s' s'' : TypeStore}

/-- What a store knows stays as it is. -/
def Lasts (s s' : TypeStore) : Prop := ∀ id, s.get id ≠ .unknown → s'.get id = s.get id

theorem Lasts.refl : s.Lasts s := fun _ _ => rfl

theorem Lasts.trans (first : s.Lasts s') (second : s'.Lasts s'') : s.Lasts s'' := fun id known => by
  have same := first id known
  rw [second id (by rwa [same]), same]

theorem lasts_alloc (s : TypeStore) (t : Ty) : s.Lasts (s.alloc t).2 :=
  fun _ known => get_alloc (has_of_get known)

theorem lasts_unionAll (s : TypeStore) : s.Lasts (s.unionAll ids).2 := by
  have union : ∀ (s : TypeStore) a b, s.Lasts (s.union a b).2 := fun s a b => by
    have joins := s.union_joins a b
    generalize s.union a b = result at joins ⊢
    cases joins with
    | same | single | first | second => exact .refl
    | fresh => exact s.lasts_alloc _
  cases ids with
  | nil => exact .refl
  | cons a ids =>
    show s.Lasts (s.unionFrom a ids).2
    induction ids generalizing s a with
    | nil => exact .refl
    | cons b ids ih => exact (union s a b).trans (ih _ _)

end TypeStore

namespace Supply

variable {p : Parameter Expr} {ps before : List (Parameter Expr)}

/-- The normal parameters that no positional argument is left for. -/
def askers (ps : List (Parameter Expr)) (positional : List TypeId) : List (Parameter Expr) :=
  ((ps.takeWhile (·.kind ≠ .varArgs)).filter (·.kind = .normal)).drop positional.length ++
    (ps.dropWhile (·.kind ≠ .varArgs)).filter (·.kind = .normal)

theorem askers_none : askers ps [] = ps.filter (·.kind = .normal) := by
  rw [askers, List.length_nil, List.drop_zero, ← List.filter_append, List.takeWhile_append_dropWhile]

/-- What parameters leave to those behind them. Positional arguments go to the normal parameters one by
one, up the first parameter for several of them has all that are left. Keywords go to the parameters
of their names, up the first parameter for several of them has all that are left. -/
def behind (before : List (Parameter Expr)) (supply : Supply) : Supply where
  positional :=
    if before.any (·.kind = .varArgs) then []
    else supply.positional.drop (before.countP (·.kind = .normal))
  keywords :=
    if before.any (·.kind = .kwArgs) then {}
    else ⟨supply.keywords.entries.filter fun entry =>
      entry.1 ∉ (askers before supply.positional).map (·.name)⟩

/-- What one parameter leaves. -/
def next (p : Parameter Expr) (supply : Supply) : Supply :=
  match p.kind, supply.positional with
  | .normal, _ :: others => { supply with positional := others }
  | .normal, [] => { supply with keywords := supply.keywords.erase p.name }
  | .varArgs, _ => { supply with positional := [] }
  | .kwArgs, _ => { supply with keywords := {} }

theorem behind_nil {supply : Supply} : supply.behind [] = supply := by
  simp [behind, askers]

theorem behind_cons (p : Parameter Expr) (before : List (Parameter Expr)) (supply : Supply) :
    supply.behind (p :: before) = (supply.next p).behind before := by
  obtain ⟨positional, keywords⟩ := supply
  cases kind : p.kind with
  | normal =>
    cases positional with
    | nil =>
      have asks : askers (p :: before) [] = p :: askers before [] := by simp [askers_none, kind]
      simp [behind, next, kind, asks, InsertionMap.erase, List.filter_filter, Bool.and_comm]
    | cons t others => simp [behind, next, kind, askers]
  | varArgs =>
    have asks : askers (p :: before) positional = askers before [] := by
      rw [askers_none]
      simp [askers, kind]
    simp [behind, next, kind, asks]
  | kwArgs => simp [behind, next, kind, askers]

end Supply

namespace Analysis

/-- What a parameter is given of what is left for it: one argument, of the first sort that there is; all
positional arguments in a tuple; or all keywords, and what a doubly starred argument holds, in a
dictionary. -/
inductive Given (star fallback doubleStar : Option TypeId) (left : Supply) (s s' : TypeStore) :
    Parameter Expr → TypeId → Prop
  | one {p : Parameter Expr} (kind : p.kind = .normal) :
      Given star fallback doubleStar left s s' p
        (((((left.positional.head?.or (left.keywords.get? p.name)).or star).or fallback).or
          doubleStar).getD .unknown)
  | several {p : Parameter Expr} {t : TypeId} {d : TupleType} (kind : p.kind = .varArgs)
      (isTuple : s'.get t = .tuple d) (elements : d.elements = left.positional) :
      Given star fallback doubleStar left s s' p t
  | named {p : Parameter Expr} {t : TypeId} {d : DictType} {between : TypeStore}
      (kind : p.kind = .kwArgs) (isDict : s'.get t = .dict d) (key : d.key = .str)
      (earlier : s.Lasts between)
      (value : d.value = (between.unionAll (left.keywords.values ++ doubleStar.toList)).1)
      (later : (between.unionAll (left.keywords.values ++ doubleStar.toList)).2.Lasts s') :
      Given star fallback doubleStar left s s' p t

variable {star fallback doubleStar : Option TypeId} {s s' : State}

theorem Given.mono (given : Given star fallback doubleStar left r r' p type) (earlier : t.Lasts r)
    (later : r'.Lasts t') : Given star fallback doubleStar left t t' p type := by
  cases given with
  | one kind => exact .one kind
  | several kind isTuple elements =>
    exact .several kind (by rw [later _ (by simp [isTuple]), isTuple]) elements
  | named kind isDict key earlier' value later' =>
    exact .named kind (by rw [later _ (by simp [isDict]), isDict]) key (earlier.trans earlier')
      value (later'.trans later)

theorem run_new (make : ScopeId → Ty) :
    ∃ t s', (onHeap fun h => ((h.allocWithTable .plain none "" make).1,
        (h.allocWithTable .plain none "" make).2.inheritTable
          (h.allocWithTable .plain none "" make).1 base)).run s = .ok (t, s') ∧
      s.types.Lasts s'.types ∧ ∃ table, s'.types.get t = make table := by
  refine ⟨_, _, rfl, ?_, ⟨s.scopes.size⟩, ?_⟩
  · show s.types.Lasts (Heap.inheritTable _ _ _).types
    rw [Heap.types_inheritTable]
    exact s.types.lasts_alloc _
  · show (Heap.inheritTable _ _ _).types.get _ = _
    rw [Heap.types_inheritTable]
    exact s.types.get_alloc_new _

/-- One parameter is given its type, and the others have what it leaves. -/
theorem run_bindParameters_cons (star doubleStar fallback : Option TypeId) (p : Parameter Expr)
    (rest : List (Parameter Expr × Option TypeId)) (supply : Supply) (s : State) :
    ∃ t s₁, s.types.Lasts s₁.types ∧ Given star fallback doubleStar supply s.types s₁.types p t ∧
      ∀ types s', (bindParameters star doubleStar rest (supply.next p)).run s₁ = .ok (types, s') →
        (bindParameters star doubleStar ((p, fallback) :: rest) supply).run s =
          .ok (t :: types, s') := by
  obtain ⟨positional, keywords⟩ := supply
  cases kind : p.kind with
  | normal =>
    refine ⟨_, s, .refl, .one kind, fun types s' ran => ?_⟩
    cases positional with
    | cons t others =>
      simp only [Supply.next, kind] at ran
      simp only [bindParameters, kind]
      exact Walks.run_bind_eq ran
    | nil =>
      simp only [Supply.next, kind] at ran
      simp only [bindParameters, kind]
      cases found : keywords.get? p.name with
      | some t => exact Walks.run_bind_eq ran
      | none =>
        rw [InsertionMap.erase_of_get?_eq_none found] at ran
        exact Walks.run_bind_eq ran
  | varArgs =>
    obtain ⟨t, s₁, made, lasts, table, isTuple⟩ :=
      run_new (fun table => .tuple ⟨positional, table⟩)
    have made : (newTuple positional).run s = .ok (t, s₁) := made
    refine ⟨t, s₁, lasts, .several kind isTuple rfl, fun types s' ran => ?_⟩
    simp only [Supply.next, kind] at ran
    simp only [bindParameters, kind]
    exact (Walks.run_bind_eq made).trans (Walks.run_bind_eq ran)
  | kwArgs =>
    obtain ⟨s₀, united, after⟩ : ∃ s₀, (unionAll (keywords.values ++ doubleStar.toList)).run s =
        .ok ((s.types.unionAll (keywords.values ++ doubleStar.toList)).1, s₀) ∧
        s₀.types = (s.types.unionAll (keywords.values ++ doubleStar.toList)).2 := ⟨_, rfl, rfl⟩
    obtain ⟨t, s₁, made, lasts, table, isDict⟩ := run_new (fun table =>
      .dict ⟨.str, (s.types.unionAll (keywords.values ++ doubleStar.toList)).1, table⟩)
    have made : (newDict .str _).run s₀ = .ok (t, s₁) := made
    rw [after] at lasts
    refine ⟨t, s₁, s.types.lasts_unionAll.trans lasts, .named kind isDict rfl .refl rfl lasts,
      fun types s' ran => ?_⟩
    simp only [Supply.next, kind] at ran
    simp only [bindParameters, kind]
    exact (Walks.run_bind_eq united).trans ((Walks.run_bind_eq made).trans (Walks.run_bind_eq ran))

theorem run_bindParameters (star doubleStar : Option TypeId)
    (parameters : List (Parameter Expr × Option TypeId)) (supply : Supply) (s : State) :
    ∃ types s', (bindParameters star doubleStar parameters supply).run s = .ok (types, s') ∧
      s.types.Lasts s'.types ∧ types.length = parameters.length ∧
      ∀ before p fallback after, parameters = before ++ (p, fallback) :: after →
        ∃ t, types[before.length]? = some t ∧
          Given star fallback doubleStar (supply.behind (before.map (·.1))) s.types s'.types p t := by
  induction parameters generalizing supply s with
  | nil => exact ⟨[], s, rfl, .refl, rfl, fun before p fallback after same => by simp at same⟩
  | cons first rest ih =>
    obtain ⟨p, fallback⟩ := first
    obtain ⟨t, s₁, lasts, given, continues⟩ :=
      run_bindParameters_cons star doubleStar fallback p rest supply s
    obtain ⟨types, s', ran, lasts', length, others⟩ := ih (supply.next p) s₁
    refine ⟨t :: types, s', continues types s' ran, lasts.trans lasts', congrArg (· + 1) length,
      fun before q fallback' after same => ?_⟩
    cases before with
    | nil =>
      cases same
      refine ⟨t, rfl, ?_⟩
      rw [List.map_nil, Supply.behind_nil]
      exact given.mono .refl lasts'
    | cons first before =>
      cases same
      obtain ⟨t', found, given'⟩ := others before q fallback' after rfl
      refine ⟨t', found, ?_⟩
      rw [List.map_cons, Supply.behind_cons]
      exact given'.mono lasts .refl

/-- The types of the normal parameters among the first ones. -/
def normalTypes (before : List (Parameter Expr)) (types : List TypeId) : List TypeId :=
  ((before.zip types).filter (·.1.kind = .normal)).map (·.2)

/-- In front of the first parameter for several arguments, the normal parameters have the positional
arguments in order. -/
theorem take_normalTypes {s s' : TypeStore} (types : List TypeId) (supply : Supply)
    (plain : ∀ p ∈ before, p.kind ≠ .varArgs)
    (given : ∀ front p back, before = front ++ p :: back → ∃ t fallback,
      types[front.length]? = some t ∧ Given star fallback doubleStar (supply.behind front) s s' p t) :
    (normalTypes before types).take supply.positional.length =
      supply.positional.take (before.countP (·.kind = .normal)) := by
  induction before generalizing types supply with
  | nil => simp [normalTypes]
  | cons p before ih =>
    obtain ⟨t, fallback, found, first⟩ := given [] p before rfl
    obtain ⟨types, rfl⟩ : ∃ others, types = t :: others := by
      cases types with
      | nil => cases found
      | cons _ others => cases found; exact ⟨others, rfl⟩
    have others := ih types (supply.next p)
      (fun q member => plain q (List.mem_cons_of_mem p member)) fun front q back same => by
        obtain ⟨t', fallback', found', given'⟩ := given (p :: front) q back (by rw [same]; rfl)
        exact ⟨t', fallback', found', by rwa [Supply.behind_cons] at given'⟩
    rw [Supply.behind_nil] at first
    cases first with
    | several kind => exact absurd kind (plain p List.mem_cons_self)
    | named kind => simpa [normalTypes, Supply.next, kind] using others
    | one kind =>
      obtain ⟨positional, keywords⟩ := supply
      cases positional with
      | nil => simp
      | cons x positional => simpa [normalTypes, Supply.next, kind] using others

/-- The type of the values of a doubly starred argument, if it is a dictionary. -/
def doubleStarValue? (args : CallArgs) (types : TypeStore) : Option TypeId :=
  args.doubleStar.bind fun value =>
    match types.get value with
    | .dict d => some d.value
    | _ => none

/-- Every parameter is given one type, from what the parameters in front of it leave. The types that the
normal parameters have of the positional arguments are these in order, together with the elements for the
first parameter for several of them, or else the first of these. -/
theorem arguments_bound (definition : Definition) (defaults : List (Option TypeId))
    (positional : List TypeId) (args : CallArgs) (s : State) :
    ∃ types s', (parameterTypes definition defaults positional args).run s = .ok (types, s') ∧
      types.length = definition.parameters.length ∧
      (∀ before p after, definition.parameters = before ++ p :: after → ∃ t,
        types[before.length]? = some t ∧
        Given args.star defaults[before.length]?.join (doubleStarValue? args s.types)
          (Supply.behind before ⟨positional, args.keywords⟩) s.types s'.types p t) ∧
      (∀ before p after, definition.parameters = before ++ p :: after → p.kind = .varArgs →
        (∀ q ∈ before, q.kind ≠ .varArgs) → ∃ t d, types[before.length]? = some t ∧
        s'.types.get t = .tuple d ∧
        (normalTypes before types).take positional.length ++ d.elements = positional) ∧
      ((∀ p ∈ definition.parameters, p.kind ≠ .varArgs) →
        (normalTypes definition.parameters types).take positional.length <+: positional) := by
  obtain ⟨types, s', ran, -, length, given⟩ := run_bindParameters args.star
    (doubleStarValue? args s.types)
    (definition.parameters.zipIdx.map fun pair => (pair.1, defaults[pair.2]?.join))
    ⟨positional, args.keywords⟩ s
  have each : ∀ before p after, definition.parameters = before ++ p :: after → ∃ t,
      types[before.length]? = some t ∧
      Given args.star defaults[before.length]?.join (doubleStarValue? args s.types)
        (Supply.behind before ⟨positional, args.keywords⟩) s.types s'.types p t := by
    intro before p after same
    have split := congrArg (fun ps => ps.zipIdx.map fun pair => (pair.1, defaults[pair.2]?.join)) same
    simp only [List.zipIdx_append, List.zipIdx_cons, List.map_append, List.map_cons,
      Nat.zero_add] at split
    obtain ⟨t, found, given⟩ := given _ p _ _ split
    rw [List.length_map, List.length_zipIdx] at found
    have names : before.zipIdx.map ((·.1) ∘ fun pair => (pair.1, defaults[pair.2]?.join)) = before :=
      List.zipIdx_map_fst 0 before
    rw [List.map_map, names] at given
    exact ⟨t, found, given⟩
  refine ⟨types, s', ran, by simpa using length, each, ?_, ?_⟩
  · intro before p after same kind plain
    obtain ⟨t, found, given⟩ := each before p after same
    cases given with
    | one other => cases kind.symm.trans other
    | named other => cases kind.symm.trans other
    | several _ isTuple elements =>
      have taken := take_normalTypes types _ plain fun front q back same' => by
        obtain ⟨t', found', given'⟩ := each front q (back ++ p :: after) (by simp [same, same'])
        exact ⟨t', _, found', given'⟩
      have left : (before.any fun q => q.kind = .varArgs) = false := by simpa using plain
      refine ⟨t, _, found, isTuple, ?_⟩
      rw [taken, elements, Supply.behind, left]
      exact List.take_append_drop _ _
  · intro plain
    have taken := take_normalTypes types _ plain fun front q back same => by
      obtain ⟨t', found', given'⟩ := each front q back same
      exact ⟨t', _, found', given'⟩
    rw [taken]
    exact List.take_prefix _ _

end Analysis
end FlowTypes
