import FlowTypes.Grammar.Cursor

/-! What a reader returns and how far it gets. Readers decide by the tokens ahead of them only, so
`Reads` names the tokens that are left and says nothing about node identities and the token read
last. -/
namespace FlowTypes

/-- The reader succeeds here, its result has the property, and the given tokens are left. -/
def Reads {α : Type} (p : Parser α) (c : Cursor) (result : α → Prop) (after : List Token) : Prop :=
  ∃ a c', p c = .ok (a, c') ∧ result a ∧ c'.rest = after

section

variable {α β : Type} {p : Parser α} {f : α → Parser β} {c : Cursor} {token : Token}
  {more after : List Token} {result : α → Prop} {final : β → Prop}

namespace Reads

theorem pure (holds : result a) (rest : c.rest = after) : Reads (Pure.pure a) c result after :=
  ⟨a, c, rfl, holds, rest⟩

theorem bind (reads : Reads p c result more)
    (next : ∀ a c', result a → c'.rest = more → Reads (f a) c' final after) :
    Reads (p >>= f) c final after := by
  obtain ⟨a, c', run, holds, rest⟩ := reads
  obtain ⟨b, c'', run', holds', rest'⟩ := next a c' holds rest
  refine ⟨b, c'', ?_, holds', rest'⟩
  show (p c >>= fun pair => f pair.1 pair.2) = _
  rw [run]
  exact run'

end Reads

theorem Cursor.kind_eq (rest : c.rest = token :: more) : c.kind = token.kind := by
  simp [Cursor.kind, Cursor.current, rest]

namespace Parser

theorem reads_kind (rest : c.rest = token :: more) :
    Reads (kind >>= g) c final after ↔ Reads (g token.kind) c final after := by
  rw [← Cursor.kind_eq rest]
  rfl

theorem reads_get : Reads (get >>= g) c final after ↔ Reads (g c) c final after := Iff.rfl

theorem reads_atKind (rest : c.rest = token :: more) :
    Reads (atKind k >>= g) c final after ↔ Reads (g (token.kind = k)) c final after := by
  rw [← Cursor.kind_eq rest]
  rfl

theorem reads_advance (rest : c.rest = token :: more) : Reads advance c (· = token) more :=
  ⟨_, _, rfl, by simp [Cursor.current, rest], by simp [rest]⟩

theorem reads_expect (rest : c.rest = token :: more) (same : token.kind = k) :
    Reads (expect k) c (· = token) more := by
  unfold expect
  rw [reads_atKind rest]
  simpa [same] using reads_advance rest

theorem reads_expectBecause (rest : c.rest = token :: more) (same : token.kind = k) :
    Reads (expectBecause k message) c (· = token) more := by
  unfold expectBecause
  rw [reads_atKind rest]
  simpa [same] using reads_advance rest

theorem reads_accept (rest : c.rest = token :: more) (same : token.kind = k) :
    Reads (accept k) c (· = true) more := by
  unfold accept
  rw [reads_atKind rest]
  simp only [same, decide_true, ↓reduceIte]
  exact (reads_advance rest).bind fun _ _ _ rest => .pure rfl rest

theorem reads_notAt (rest : c.rest = token :: more) (other : token.kind ≠ k) :
    Reads (do if ← atKind k then there else absent) c final after ↔
      Reads absent c final after := by
  rw [reads_atKind rest]
  simp only [other, decide_false, Bool.false_eq_true, ↓reduceIte]

theorem reads_notAccepted (rest : c.rest = token :: more) (other : token.kind ≠ k) :
    Reads (do if ← accept k then there else absent) c final after ↔
      Reads absent c final after := by
  have skipped : accept k c = .ok (false, c) := by
    show (if (decide (c.kind = k) : Bool) = true then _ else _ : Parser Bool) c = _
    rw [Cursor.kind_eq rest]
    simp only [other, decide_false, Bool.false_eq_true, ↓reduceIte]
    rfl
  show (∃ b c', (accept k c >>= fun pair => _) = _ ∧ _) ↔ _
  rw [skipped]
  rfl

theorem reads_nodeAt (rest : c.rest = after) : Reads (nodeAt span) c (fun _ => True) after :=
  ⟨_, _, rfl, trivial, rest⟩

theorem reads_nodeFrom (rest : c.rest = after) : Reads (nodeFrom start) c (fun _ => True) after :=
  reads_nodeAt rest

end Parser
end

section

variable {σ ρ : Type} {step : σ → Parser (Parser.Round σ ρ)} {s : σ} {c : Cursor}
  {result : ρ → Prop} {more after : List Token}

/-- The repetition, given at least one round for each token that is left and one more, comes to the
result. -/
def Settles (step : σ → Parser (Parser.Round σ ρ)) (s : σ) (c : Cursor) (result : ρ → Prop)
    (after : List Token) : Prop :=
  ∀ n, c.rest.length < n → Reads (Parser.rounds step n s) c result after

namespace Settles

theorem done (reads : Reads (step s) c (fun round => ∃ r, round = .done r ∧ result r) after) :
    Settles step s c result after := by
  intro n enough
  obtain ⟨n, rfl⟩ := Nat.exists_eq_succ_of_ne_zero (Nat.ne_zero_of_lt enough)
  refine reads.bind ?_
  rintro _ c' ⟨r, rfl, holds⟩ rest
  exact .pure holds rest

theorem again (state : σ → Prop)
    (reads : Reads (step s) c (fun round => ∃ s', round = .again s' ∧ state s') more)
    (shorter : more.length < c.rest.length)
    (next : ∀ s' c', state s' → c'.rest = more → Settles step s' c' result after) :
    Settles step s c result after := by
  intro n enough
  obtain ⟨n, rfl⟩ := Nat.exists_eq_succ_of_ne_zero (Nat.ne_zero_of_lt enough)
  refine reads.bind ?_
  rintro _ c' ⟨s', rfl, holds⟩ rest
  exact next s' c' holds rest n (by rw [rest]; omega)

theorem repeated (settles : Settles step s c result after) :
    Reads (Parser.repeated step s) c result after :=
  settles _ (Nat.lt_succ_self _)

end Settles
end
end FlowTypes
