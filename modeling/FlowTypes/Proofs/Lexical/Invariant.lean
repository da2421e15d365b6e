import FlowTypes.Proofs.Lexical.Placement
import FlowTypes.Proofs.Watch.Quiet

/-! Functions stand where their definitions do. The value of a definition in the body of a class belongs
to that class, and its body is walked inside of that of the class, however often the definition is
walked. A bound method is a copy of a function that is not bound, and is never changed. -/
namespace FlowTypes

/-- The class that a definition belongs to, from the one in whose body it stands. A lambda belongs to
none. -/
def Definition.owner : Definition → Option NodeId → Option NodeId
  | function _, owner => owner
  | lambda _ _ _, _ => none

/-- Only parameters with a default value have a default. -/
def DefaultsFit (parameters : List (Parameter Expr)) (defaults : List (Option TypeId)) : Prop :=
  ∀ (i : Nat) (p : Parameter Expr), parameters[i]? = some p → p.fallback = none → defaults[i]?.join = none

namespace FunctionType

/-- Only what a function has returned, its defaults and the scope around its body may be different. -/
def Retouched (f f' : FunctionType) : Prop :=
  f' = { f with arrows := f'.arrows, defaults := f'.defaults, env := f'.env }

theorem Retouched.refl {f : FunctionType} : f.Retouched f := rfl

theorem Retouched.trans {f : FunctionType} (first : f.Retouched f') (second : f'.Retouched f'') :
    f.Retouched f'' := by
  unfold Retouched at *
  rw [second, first]

theorem Retouched.origin {f : FunctionType} (retouched : f.Retouched f') :
    f'.origin = f.origin := by
  rw [retouched]

theorem Retouched.definition {f : FunctionType} (retouched : f.Retouched f') :
    f'.definition = f.definition := by
  rw [retouched]

/-- What a method is bound from: all but the defaults and the scope around the body. -/
def BoundFrom (g f : FunctionType) (origin : TypeId) : Prop :=
  f = { g with
    arrows := [], origin := some origin, receiver := f.receiver, defaults := f.defaults, env := f.env }

theorem BoundFrom.retouched {g : FunctionType} {origin : TypeId} (bound : g.BoundFrom f origin)
    (retouched : g.Retouched g') : g'.BoundFrom f origin := by
  unfold BoundFrom Retouched at *
  rw [retouched]
  exact bound

end FunctionType

namespace State

variable {s s' s'' : State}

/-- The scope in which the body of the class is walked; without a class, one that is not for bodies of
classes. -/
def Fits (s : State) (scope : ScopeId) : Option NodeId → Prop
  | none => s.scopes.Has scope ∧ (s.scopes.get scope).kind ≠ .classBody
  | some k => ∃ c d, s.classes.get? k = some c ∧ s.types.get c = .classType d ∧ d.table = scope

/-- The function belongs to the class, and its body is walked inside of the body of the class. -/
def Stands (s : State) (f : FunctionType) : Option NodeId → Prop
  | none => f.classId = none
  | some k => f.classId = s.classes.get? k ∧ s.Fits f.env (some k)

/-- A method that is bound agrees with the function that it was made from. What is built in does not
change, so there it also agrees on defaults and scope. -/
structure Bound (s : State) (f : FunctionType) (origin : TypeId) : Prop where
  method : f.classId.isSome = true
  receiver : f.receiver.isSome = true
  copied : ∃ g, s.types.get origin = .function g ∧ g.origin = none ∧ g.BoundFrom f origin ∧
    (g.definition = none → f.defaults = g.defaults ∧ f.env = g.env)

structure Lexical (s : State) : Prop where
  numbered : s.Numbered
  classes : ∀ {k c}, s.classes.get? k = some c → ∃ d, s.types.get c = .classType d ∧
    (s.scopes.get d.table).kind = .classBody ∧ (s.scopes.get d.table).owner = some c
  functions : ∀ {n fn}, s.functions.get? n = some fn → ∃ f d, s.types.get fn = .function f ∧
    f.origin = none ∧ f.definition = some d ∧ d.node.id = n
  defined : ∀ {id f d}, s.types.get id = .function f → f.definition = some d →
    ∃ o, s.Locates o d.phrase.treeNode ∧ s.Stands f (d.owner o)
  defaults : ∀ {id f d}, s.types.get id = .function f → f.definition = some d →
    DefaultsFit d.parameters f.defaults
  unbound : ∀ {id f}, s.types.get id = .function f → f.origin = none → f.receiver = none
  bound : ∀ {id f o}, s.types.get id = .function f → f.origin = some o → s.Bound f o

/-- What was known of trees, classes, functions and scopes is still known, modules other than the own one
keep their names, and bound methods are as they were. -/
structure Persists (s : State) (own : ScopeId) (s' : State) : Prop where
  trees : ∀ {p m}, s.tree? p = some m → s'.tree? p = some m
  classes : ∀ {k c}, s.classes.get? k = some c → s'.classes.get? k = some c
  functions : ∀ {n fn}, s.functions.get? n = some fn → s'.functions.get? n = some fn
  table : ∀ {id c}, s.types.get id = .classType c →
    ∃ c', s'.types.get id = .classType c' ∧ c'.table = c.table
  roles : s.scopes.SameRoles s'.scopes
  names : s.scopes.KeepsNames own s'.scopes
  function : ∀ {id f}, s.types.get id = .function f → ∃ f', s'.types.get id = .function f' ∧
    f.Retouched f' ∧ (f.origin.isSome = true → f' = f)

namespace Persists

theorem refl : s.Persists own s where
  trees := fun held => held
  classes := fun known => known
  functions := fun known => known
  table := fun found => ⟨_, found, rfl⟩
  roles := .refl
  names := .refl
  function := fun found => ⟨_, found, .refl, fun _ => rfl⟩

theorem trans (first : s.Persists own s') (second : s'.Persists own s'') : s.Persists own s'' where
  trees := fun held => second.trees (first.trees held)
  classes := fun known => second.classes (first.classes known)
  functions := fun known => second.functions (first.functions known)
  table := fun found => by
    obtain ⟨c', found', same⟩ := first.table found
    obtain ⟨c'', found'', same'⟩ := second.table found'
    exact ⟨c'', found'', same'.trans same⟩
  roles := first.roles.trans second.roles
  names := first.names.trans second.names first.roles
  function := fun found => by
    obtain ⟨f', found', retouched, kept⟩ := first.function found
    obtain ⟨f'', found'', retouched', kept'⟩ := second.function found'
    refine ⟨f'', found'', retouched.trans retouched', fun bound => ?_⟩
    obtain rfl := kept bound
    exact kept' bound

variable {o : Option NodeId}

theorem locates (persists : s.Persists own s') (locates : s.Locates o u) : s'.Locates o u := by
  obtain ⟨p, m, held, inside⟩ := locates
  exact ⟨p, m, persists.trees held, inside⟩

theorem mentions (persists : s.Persists own s') (mentions : s.Mentions e) : s'.Mentions e := by
  obtain ⟨p, m, held, inside⟩ := mentions
  exact ⟨p, m, persists.trees held, inside⟩

theorem fits (persists : s.Persists own s') (fits : s.Fits scope o) : s'.Fits scope o := by
  cases o with
  | none => exact ⟨persists.roles.has fits.1, persists.roles.kind scope fits.1 ▸ fits.2⟩
  | some k =>
    obtain ⟨c, d, known, found, rfl⟩ := fits
    obtain ⟨d', found', same⟩ := persists.table found
    exact ⟨c, d', persists.classes known, found', same⟩

theorem stands (persists : s.Persists own s') (stands : s.Stands f o) : s'.Stands f o := by
  cases o with
  | none => exact stands
  | some k =>
    obtain ⟨member, c, d, known, table⟩ := stands
    exact ⟨member.trans (known.trans (persists.classes known).symm),
      persists.fits ⟨c, d, known, table⟩⟩

end Persists

/-! ### Steps that leave all this alone -/

/-- Neither functions nor classes nor files come or change. -/
structure Leaves (s : State) (own : ScopeId) (s' : State) : Prop where
  heap : s.heap.Spares own s'.heap
  trees : ∀ p, s'.tree? p = s.tree? p
  free : s.nextNode ≤ s'.nextNode
  functions : s'.functions = s.functions
  classes : s'.classes = s.classes

namespace Leaves

theorem persists (leaves : s.Leaves own s') : s.Persists own s' where
  trees := fun held => (leaves.trees _).trans held
  classes := fun known => leaves.classes ▸ known
  functions := fun known => leaves.functions ▸ known
  table := leaves.heap.table
  roles := leaves.heap.scopes
  names := leaves.heap.names
  function := fun found => ⟨_, leaves.heap.function.mpr found, .refl, fun _ => rfl⟩

theorem lexical (leaves : s.Leaves own s') (lexical : s.Lexical) : s'.Lexical where
  numbered := (Numbers.of_same leaves.trees leaves.free).numbered lexical.numbered
  classes := fun known => by
    rw [leaves.classes] at known
    obtain ⟨d, found, kind, owner⟩ := lexical.classes known
    obtain ⟨d', found', same⟩ := leaves.heap.table found
    have has := ScopeStore.inside_of_owner owner
    refine ⟨d', found', ?_, ?_⟩ <;> rw [same]
    · exact (leaves.heap.scopes.kind _ has).trans kind
    · exact (leaves.heap.scopes.owner _ has).trans owner
  functions := fun known => by
    rw [leaves.functions] at known
    obtain ⟨f, d, found, rest⟩ := lexical.functions known
    exact ⟨f, d, leaves.heap.function.mpr found, rest⟩
  defined := fun found definition => by
    obtain ⟨o, locates, stands⟩ := lexical.defined (leaves.heap.function.mp found) definition
    exact ⟨o, leaves.persists.locates locates, leaves.persists.stands stands⟩
  defaults := fun found => lexical.defaults (leaves.heap.function.mp found)
  unbound := fun found => lexical.unbound (leaves.heap.function.mp found)
  bound := fun found origin => by
    obtain ⟨method, receiver, g, root, rest⟩ := lexical.bound (leaves.heap.function.mp found) origin
    exact ⟨method, receiver, g, leaves.heap.function.mpr root, rest⟩

theorem of_spares (spares : s.Spares s') (modules : s'.modules = s.modules) : s.Leaves own s' where
  heap := spares.heap own
  trees := fun p => by rw [tree?, tree?, status?, status?, modules]
  free := Nat.le_of_eq (congrArg Register.nextNode spares.register).symm
  functions := congrArg Register.functions spares.register
  classes := congrArg Register.classes spares.register

end Leaves

/-! ### A function comes or changes -/

/-- A function comes, or one that is not bound is retouched. -/
structure Puts (s : State) (fn : TypeId) (f : FunctionType) (heap : Heap) : Prop where
  put : heap.types.get fn = .function f
  others : ∀ id, id ≠ fn → heap.types.get id = s.types.get id
  before : s.types.get fn = .unknown ∨ ∃ g, s.types.get fn = .function g ∧ g.origin = none ∧
    g.Retouched f ∧ (g.definition = none → f.defaults = g.defaults ∧ f.env = g.env)
  grows : s.scopes.Grows heap.scopes
  defined : ∀ d, f.definition = some d → ∃ o, s.Locates o d.phrase.treeNode ∧ s.Stands f (d.owner o)
  defaults : ∀ d, f.definition = some d → DefaultsFit d.parameters f.defaults
  unbound : f.origin = none → f.receiver = none
  bound : ∀ o, f.origin = some o → s.Bound f o

namespace Puts

variable {fn : TypeId} {f : FunctionType} {heap : Heap}

theorem persists (puts : s.Puts fn f heap) (own : ScopeId) : s.Persists own { s with heap } where
  trees := fun held => held
  classes := fun known => known
  functions := fun known => known
  table := fun {id c} found => by
    refine ⟨c, (puts.others id ?_).trans found, rfl⟩
    rintro rfl
    rcases puts.before with none | ⟨g, old, _⟩
    · exact nomatch found.symm.trans none
    · exact nomatch found.symm.trans old
  roles := puts.grows.toSameRoles
  names := puts.grows.keepsNames
  function := fun {id g} found => by
    by_cases own : id = fn
    · subst own
      rcases puts.before with none | ⟨g', old, free, retouched, _⟩
      · exact nomatch found.symm.trans none
      · obtain rfl : g = g' := Ty.function.inj (found.symm.trans old)
        exact ⟨f, puts.put, retouched, fun bound => by simp [free] at bound⟩
    · exact ⟨g, (puts.others id own).trans found, .refl, fun _ => rfl⟩

/-- What was made from a function that is retouched still agrees with it. -/
theorem still_bound (puts : s.Puts fn f heap) (bound : s.Bound g o) :
    Bound { s with heap } g o := by
  obtain ⟨method, receiver, g', root, free, copied, builtIn⟩ := bound
  by_cases own : o = fn
  · subst own
    rcases puts.before with none | ⟨g'', old, _, retouched, fixed⟩
    · exact nomatch root.symm.trans none
    · obtain rfl : g' = g'' := Ty.function.inj (root.symm.trans old)
      refine ⟨method, receiver, f, puts.put, ?_, copied.retouched retouched, fun none => ?_⟩
      · exact retouched.origin.trans free
      · rw [retouched.definition] at none
        obtain ⟨defaults, env⟩ := builtIn none
        obtain ⟨defaults', env'⟩ := fixed none
        exact ⟨defaults.trans defaults'.symm, env.trans env'.symm⟩
  · exact ⟨method, receiver, g', (puts.others o own).trans root, free, copied, builtIn⟩

theorem lexical (puts : s.Puts fn f heap) (lexical : s.Lexical) : { s with heap }.Lexical where
  numbered := ⟨lexical.numbered.distinct, lexical.numbered.given, lexical.numbered.apart⟩
  classes := fun known => by
    obtain ⟨d, found, kind, owner⟩ := lexical.classes known
    obtain ⟨d', found', same⟩ := (puts.persists ⟨0⟩).table found
    have has := ScopeStore.inside_of_owner owner
    refine ⟨d', found', ?_, ?_⟩ <;> rw [same]
    · exact (puts.grows.kind _ has).trans kind
    · exact (puts.grows.owner _ has).trans owner
  functions := fun known => by
    obtain ⟨g, d, found, free, definition, node⟩ := lexical.functions known
    obtain ⟨g', found', retouched, _⟩ := (puts.persists ⟨0⟩).function found
    refine ⟨g', d, found', ?_, ?_, node⟩
    · exact retouched.origin.trans free
    · exact retouched.definition.trans definition
  defined := fun {id g d} found definition => by
    by_cases own : id = fn
    · subst own
      obtain rfl : f = g := Ty.function.inj (puts.put.symm.trans found)
      obtain ⟨o, locates, stands⟩ := puts.defined d definition
      exact ⟨o, (puts.persists ⟨0⟩).locates locates, (puts.persists ⟨0⟩).stands stands⟩
    · obtain ⟨o, locates, stands⟩ := lexical.defined ((puts.others id own).symm.trans found) definition
      exact ⟨o, (puts.persists ⟨0⟩).locates locates, (puts.persists ⟨0⟩).stands stands⟩
  defaults := fun {id g d} found definition => by
    by_cases own : id = fn
    · subst own
      obtain rfl : f = g := Ty.function.inj (puts.put.symm.trans found)
      exact puts.defaults d definition
    · exact lexical.defaults ((puts.others id own).symm.trans found) definition
  unbound := fun {id g} found free => by
    by_cases own : id = fn
    · subst own
      obtain rfl : f = g := Ty.function.inj (puts.put.symm.trans found)
      exact puts.unbound free
    · exact lexical.unbound ((puts.others id own).symm.trans found) free
  bound := fun {id g o} found origin => by
    by_cases own : id = fn
    · subst own
      obtain rfl : f = g := Ty.function.inj (puts.put.symm.trans found)
      exact puts.still_bound (puts.bound o origin)
    · exact puts.still_bound (lexical.bound ((puts.others id own).symm.trans found) origin)

end Puts
end State
end FlowTypes
