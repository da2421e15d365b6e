import FlowTypes.Proofs.Lexical.Sessions

/-! Bound methods. A method is bound once for each receiver. The value is a copy of the function that
nothing changes, while a definition that is walked again gives the function new defaults. Main
statement: a bound method agrees with its function on all but the defaults, and where the defaults agree
too, to call it is to call the function with the receiver put first. -/
namespace FlowTypes

open Analysis

/-- The two functions agree on the defaults of all parameters with a default value. -/
def FunctionType.SharesDefaults (f g : FunctionType) : Prop :=
  ∀ d, g.definition = some d → ∀ (i : Nat) (p : Parameter Expr), d.parameters[i]? = some p →
    p.fallback.isSome = true → f.defaults[i]?.join = g.defaults[i]?.join

/-- A method is bound to a receiver: of the function, only the defaults may have changed since. -/
def FunctionType.IsBound (f g : FunctionType) (origin receiver : TypeId) : Prop :=
  f = { g with
    arrows := [], origin := some origin, receiver := some receiver, defaults := f.defaults }

namespace State.Lexical

variable {s : State} {b origin : TypeId} {f : FunctionType}

/-- Both are walked inside of the body of the class in which the definition stands. -/
theorem env_of_bound (lexical : s.Lexical) (found : s.types.get b = .function f)
    (method : f.classId.isSome = true) (root : s.types.get origin = .function g)
    (copied : f.definition = g.definition) (definition : g.definition = some d) :
    f.env = g.env := by
  obtain ⟨o, locates, stands⟩ := lexical.defined found (copied.trans definition)
  obtain ⟨o', locates', stands'⟩ := lexical.defined root definition
  obtain ⟨rfl, _⟩ := lexical.numbered.locates_unique locates locates' rfl
  cases owner : d.owner o with
  | none =>
    rw [owner] at stands
    rw [show f.classId = none from stands] at method
    cases method
  | some k =>
    rw [owner] at stands stands'
    exact stands.2.unique stands'.2

theorem isBound (lexical : s.Lexical) (found : s.types.get b = .function f)
    (bound : f.origin = some origin) :
    ∃ g receiver, s.types.get origin = .function g ∧ g.origin = none ∧
      f.IsBound g origin receiver ∧ (g.definition = none → f.defaults = g.defaults) := by
  obtain ⟨method, received, g, root, free, copied, builtIn⟩ := lexical.bound found bound
  obtain ⟨receiver, received⟩ := Option.isSome_iff_exists.mp received
  have env : f.env = g.env := by
    cases definition : g.definition with
    | none => exact (builtIn definition).2
    | some d => exact lexical.env_of_bound found method root (by rw [copied]) definition
  refine ⟨g, receiver, root, free, ?_, fun none => (builtIn none).1⟩
  unfold FunctionType.BoundFrom at copied
  rw [received, env] at copied
  exact copied

end State.Lexical

/-! ### Calls -/

theorem Analysis.parameterTypes_congr
    (same : ∀ (i : Nat) (p : Parameter Expr), d.parameters[i]? = some p →
      defaults[i]?.join = defaults'[i]?.join) :
    parameterTypes d defaults positional args = parameterTypes d defaults' positional args := by
  unfold parameterTypes
  congr 1
  funext s
  dsimp only
  congr 1
  refine List.map_congr_left fun place member => ?_
  have there := List.mem_zipIdx_iff_getElem?.mp member
  exact congrArg _ (same place.2 place.1 there)

namespace Walker

variable {w : Walker} {g : FunctionType} {origin receiver : TypeId}

theorem applyDefined_bound (free : g.receiver = none) {defaults : List (Option TypeId)}
    (same : ∀ (i : Nat) (p : Parameter Expr), d.parameters[i]? = some p →
      defaults[i]?.join = g.defaults[i]?.join) :
    w.applyDefined origin { g with
        arrows := [], origin := some origin, receiver := some receiver, defaults } d args =
      w.applyDefined origin g d { args with positional := receiver :: args.positional } := by
  unfold applyDefined
  dsimp only
  rw [free, parameterTypes_congr same]
  rfl

end Walker

/-- To call a method that is bound is to call the function with the receiver put first. -/
theorem State.Lexical.apply_bound (lexical : s.Lexical) (found : s.types.get b = .function f)
    (root : s.types.get origin = .function g) (free : g.origin = none)
    (bound : f.IsBound g origin receiver) (shares : f.SharesDefaults g) (w : Walker)
    (args : CallArgs) (span : Span) :
    (w.apply b args span).run s =
      (w.apply origin { args with positional := receiver :: args.positional } span).run s := by
  have own : s.types.originOf b = origin :=
    TypeStore.originOf_of_bound found (by rw [bound]) root free
  have own' : s.types.originOf origin = origin := TypeStore.originOf_of_unbound root free
  have unbound : g.receiver = none := lexical.unbound root free
  have native : f.native = g.native := by rw [bound]
  have definition : f.definition = g.definition := by rw [bound]
  have seen : (get : Analysis State).run s = .ok (s, s) := rfl
  refine (Walks.run_bind_eq seen).trans (Eq.trans ?_ (Walks.run_bind_eq seen).symm)
  rw [TypeStore.function?_eq_some.mpr found, TypeStore.function?_eq_some.mpr root]
  dsimp only
  rw [own, own', native, definition]
  cases native : g.native with
  | some op =>
    have received : f.receiver = some receiver := by rw [bound]
    rw [received, unbound]
    rfl
  | none =>
    cases definition : g.definition with
    | none => rfl
    | some d =>
      -- Without a default value there is no default on either side.
      have places : ∀ (i : Nat) (p : Parameter Expr), d.parameters[i]? = some p →
          f.defaults[i]?.join = g.defaults[i]?.join := by
        intro i p there
        cases fallback : p.fallback with
        | some e => exact shares d definition i p there (by rw [fallback]; rfl)
        | none =>
          have copied : f.definition = some d := by rw [bound, definition]
          rw [lexical.defaults found copied i p there fallback,
            lexical.defaults root definition i p there fallback]
      rw [bound]
      exact congrArg (·.run s) (Walker.applyDefined_bound unbound places)

/-- After any calls, a bound method agrees with the function that it was made from on everything but
what was returned so far and the defaults, and on the defaults too if the function is built in. Further
calls leave it as it is. To call it is to call the function with the receiver put first, if the two agree
on the defaults of those parameters that have a default value; there may be none. -/
theorem Session.bound_method_agrees {s : State} (session : Session s) {b origin : TypeId}
    {f : FunctionType} (found : s.types.get b = .function f) (bound : f.origin = some origin) :
    ∃ g receiver, s.types.get origin = .function g ∧ g.origin = none ∧ g.receiver = none ∧
      f.IsBound g origin receiver ∧ (g.definition = none → f.defaults = g.defaults) ∧
      (∀ (call : Call) (files : FileSystem) (limits : Limits) (answer : Except Error Unit) (s' : State),
        (call.run (Walker.of files limits)).run s = .ok (answer, s') →
          s'.types.get b = .function f) ∧
      (f.SharesDefaults g → ∀ (w : Walker) (args : CallArgs) (span : Span),
        (w.apply b args span).run s =
          (w.apply origin { args with positional := receiver :: args.positional } span).run s) := by
  have lexical := session.lexical
  obtain ⟨g, receiver, root, free, isBound, builtIn⟩ := lexical.isBound found bound
  refine ⟨g, receiver, root, free, lexical.unbound root free, isBound, builtIn, ?_, ?_⟩
  · intro call files limits answer s' ran
    obtain ⟨_, persists, _⟩ := call.upholds ⟨0⟩ lexical answer s' ran
    obtain ⟨f', found', _, kept⟩ := persists.function found
    rw [found', kept (by rw [bound]; rfl)]
  · exact lexical.apply_bound found root free isBound

/-- A function with a class inside is applied twice. In between, the default of one of the methods changes
and that of the other one does not. -/
def renewedDefault : FileSystem :=
  (MemoryTree.file {} "a.py" ("k=1\ndef g(x):\n class A:\n  def m(s,y=k):return y\n  def n(s,z=1):1\n" ++
    " A().m\n A().n\ng(1)\nk=''\ng('')")).fileSystem

/-- What a call gives. -/
def State.resultOf (s : State) (w : Walker) (fn : TypeId) (positional : List TypeId) : Option TypeId :=
  ((w.apply fn (.of positional) default).run s).toOption.map (·.1)

theorem renewedDefault_methods : ∃ answer s,
    ((Call.analyze (.ofString "/a.py")).run (Walker.of renewedDefault {})).run State.initial =
      .ok (answer, s) ∧
    (∃ i < s.types.size, ∃ f ∈ s.types.function? ⟨i⟩, ∃ origin ∈ f.origin, ∃ receiver ∈ f.receiver,
      (s.types.function? origin).any (·.defaults ≠ f.defaults) = true ∧
        s.resultOf (Walker.of renewedDefault {}) ⟨i⟩ [] ≠
          s.resultOf (Walker.of renewedDefault {}) origin [receiver]) ∧
    ∃ i < s.types.size, ∃ f ∈ s.types.function? ⟨i⟩, ∃ origin ∈ f.origin,
      (s.types.function? origin).any (·.defaults = f.defaults) = true ∧
        f.defaults.any Option.isSome = true :=
  Walks.exists_run (by decide +kernel)

/-- The method whose default has not changed. -/
theorem renewedDefault_bound_method_agrees : ∃ s, Session s ∧ ∃ b origin f,
    s.types.get b = .function f ∧ f.origin = some origin ∧ f.defaults.any Option.isSome = true ∧
    ∃ g receiver, s.types.get origin = .function g ∧ f.IsBound g origin receiver ∧
      ∀ (w : Walker) (args : CallArgs) (span : Span), (w.apply b args span).run s =
        (w.apply origin { args with positional := receiver :: args.positional } span).run s := by
  obtain ⟨answer, s, ran, _, i, _, f, found, origin, bound, same, default⟩ := renewedDefault_methods
  have session : Session s := .call .start ran
  have found : s.types.get ⟨i⟩ = .function f := TypeStore.function?_eq_some.mp found
  obtain ⟨g, receiver, root, _, _, isBound, _, _, calls⟩ := session.bound_method_agrees found bound
  refine ⟨s, session, ⟨i⟩, origin, f, found, bound, default, g, receiver, root, isBound, calls ?_⟩
  have known : s.types.function? origin = some g := TypeStore.function?_eq_some.mpr root
  rw [known] at same
  have same : g.defaults = f.defaults := of_decide_eq_true same
  intro d _ j p _ _
  rw [same]

/-- The method whose default has changed: the function has the new one, the method that is bound has the
old one, and to call it is not to call the function with the receiver put first. -/
theorem renewedDefault_outdated : ∃ s, Session s ∧ ∃ b origin receiver f g,
    s.types.get b = .function f ∧ f.origin = some origin ∧ f.receiver = some receiver ∧
    s.types.get origin = .function g ∧ g.defaults ≠ f.defaults ∧
    s.resultOf (Walker.of renewedDefault {}) b [] ≠
      s.resultOf (Walker.of renewedDefault {}) origin [receiver] := by
  obtain ⟨answer, s, ran, ⟨i, _, f, found, origin, bound, receiver, received, other, calls⟩, _⟩ :=
    renewedDefault_methods
  obtain ⟨g, root, other⟩ := (Option.any_eq_true _ _).mp other
  refine ⟨s, .call .start ran, ⟨i⟩, origin, receiver, f, g, ?_, bound, received, ?_, ?_, calls⟩
  · exact TypeStore.function?_eq_some.mp found
  · exact TypeStore.function?_eq_some.mp root
  · exact of_decide_eq_true other

end FlowTypes
