import FlowTypes.Grammar.Expr
import FlowTypes.Proofs.Reading
import FlowTypes.Proofs.Written

/-! The readers for single forms: what each of them makes of the parts that the reader `sub` for the
expressions inside returns. -/
namespace FlowTypes

open FlowTypes.Parser FlowTypes.Grammar

-- The term of an expression is computed where the expression is made.
attribute [local simp] Expr.term?

/-- From every place at these tokens the reader returns the term and leaves the other tokens. -/
def ReadsTerm (p : Parser Expr) (ts : List Token) (t : Term) (after : List Token) : Prop :=
  ∀ c, c.rest = ts → Reads p c (·.term? = some t) after

section

variable {sub : Power → Parser Expr} {token : Token} {ts after : List Token}

theorem head_name (isName : token.kind = .identifier ∨ token.kind = .kwPrint) :
    ReadsTerm (head sub) (token :: after) (.name token.value) after := by
  intro c rest
  have isHead : Reads name c (·.term? = some (.name token.value)) after := by
    refine (reads_advance rest).bind fun read c same rest => ?_
    exact (reads_nodeAt rest).bind fun node c _ rest => .pure (by rw [same, Expr.term?]) rest
  unfold head
  rw [reads_kind rest]
  rcases isName with same | same <;> rw [same] <;> exact isHead

theorem head_front (spelled : [token.kind] = o.operator.kinds)
    (operand : ReadsTerm (sub o.power) ts t after) :
    ReadsTerm (head sub) (token :: ts) (.front o t) after := by
  intro c rest
  have isHead : Reads (unary sub o.operator o.power) c (·.term? = some (.front o t)) after := by
    refine (reads_advance rest).bind fun read c _ rest => ?_
    refine (operand c rest).bind fun e c shape rest => ?_
    refine (reads_nodeAt rest).bind fun node c _ rest => .pure ?_ rest
    simp [o.of?_operator, shape]
  unfold head
  rw [reads_kind rest]
  generalize token.kind = k at spelled ⊢
  obtain ⟨operator, power, fixity⟩ := o
  cases operator <;> cases fixity <;> cases spelled <;> exact isHead

section

variable {first : Token} {t : Term}

theorem element_term (opens : first.kind.opensTerm)
    (value : ReadsTerm (sub power) (first :: ts) t after) :
    ReadsTerm (element sub power) (first :: ts) t after := by
  intro c rest
  unfold element
  rw [reads_notAt rest (Kind.ne_of_opensTerm opens (by decide))]
  exact value c rest

theorem head_parenthesised (isOpening : opening.kind = .openParen)
    (isClosing : closing.kind = .closeParen) (opens : first.kind.opensTerm)
    (inner : ReadsTerm (sub .lowest) (first :: ts) t (closing :: after)) :
    ReadsTerm (head sub) (opening :: first :: ts) t after := by
  intro c rest
  unfold head
  rw [reads_kind rest, isOpening]
  refine (reads_advance rest).bind fun _ c _ rest => ?_
  rw [reads_notAccepted rest (Kind.ne_of_opensTerm opens (by decide)),
    reads_notAt rest (Kind.ne_of_opensTerm opens (by decide))]
  refine (element_term opens inner c rest).bind fun e c shape rest => ?_
  have noClause : atClause c = false := by simp [atClause, Cursor.kind_eq rest, isClosing]
  rw [reads_get, noClause, if_neg Bool.false_ne_true, reads_notAt rest (by simp [isClosing])]
  exact (reads_expect rest isClosing).bind fun _ c _ rest => .pure shape rest

end

section

variable {left : Expr} {l : Term}

theorem extend_power (base : left.term? = some l) (isPower : token.kind = .doubleStar)
    (exponent : ReadsTerm (sub .unary) ts e after) :
    ReadsTerm (extend sub left power) (token :: ts) (.power l e) after := by
  intro c rest
  unfold extend
  rw [reads_kind rest, isPower]
  refine (reads_advance rest).bind fun _ c _ rest => ?_
  refine (exponent c rest).bind fun right c shape rest => ?_
  refine (reads_nodeAt rest).bind fun node c _ rest => .pure ?_ rest
  simp [base, shape]

theorem extend_conditional (body : left.term? = some l) (isIf : ifToken.kind = .kwIf)
    (isElse : elseToken.kind = .kwElse)
    (conditionRead : ReadsTerm (sub .ternary) cs condition (elseToken :: os))
    (orelseRead : ReadsTerm (sub .lambda) os orelse after) :
    ReadsTerm (extend sub left power) (ifToken :: cs) (.conditional condition l orelse) after := by
  intro c rest
  unfold extend
  rw [reads_kind rest, isIf]
  refine (reads_advance rest).bind fun _ c _ rest => ?_
  refine (conditionRead c rest).bind fun e c shape rest => ?_
  refine (reads_expectBecause rest isElse).bind fun _ c _ rest => ?_
  refine (orelseRead c rest).bind fun e' c shape' rest => ?_
  refine (reads_nodeAt rest).bind fun node c _ rest => .pure ?_ rest
  simp [body, shape, shape']

theorem extend_member (object : left.term? = some l) (isDot : dot.kind = .dot)
    (isName : property.isNameLike) :
    ReadsTerm (extend sub left power) (dot :: property :: after) (.member l property.value)
      after := by
  intro c rest
  unfold extend
  rw [reads_kind rest, isDot]
  refine (reads_advance rest).bind fun _ c _ rest => ?_
  have current : c.current = property := by simp [Cursor.current, rest]
  rw [reads_get, current, if_pos isName]
  refine (reads_advance rest).bind fun read c same rest => ?_
  refine (reads_nodeFrom rest).bind fun node c _ rest => .pure ?_ rest
  simp [object, same]

theorem extend_subscript (object : left.term? = some l) (isOpening : opening.kind = .openBracket)
    (isClosing : closing.kind = .closeBracket) (opens : first.kind.opensTerm)
    (index : ReadsTerm (sub .lowest) (first :: ts) i (closing :: after)) :
    ReadsTerm (extend sub left power) (opening :: first :: ts) (.subscript l i) after := by
  have item : ReadsTerm (subscriptItem sub) (first :: ts) i (closing :: after) := by
    intro c rest
    unfold subscriptItem
    rw [reads_get, reads_notAt rest (Kind.ne_of_opensTerm opens (by decide))]
    refine (element_term opens index c rest).bind fun e c shape rest => ?_
    rw [reads_notAt rest (by simp [isClosing])]
    exact .pure shape rest
  intro c rest
  unfold extend
  rw [reads_kind rest, isOpening]
  refine (reads_advance rest).bind fun _ c _ rest => ?_
  refine (item c rest).bind fun e c shape rest => ?_
  have noComma : closing.kind ≠ .comma := by simp [isClosing]
  rw [reads_atKind rest]
  simp only [noComma, decide_false, Bool.false_eq_true, ↓reduceIte, pure_bind]
  refine (reads_expect rest isClosing).bind fun _ c _ rest => ?_
  refine (reads_nodeFrom rest).bind fun node c _ rest => .pure ?_ rest
  simp [object, shape]

theorem extend_left (leftTerm : left.term? = some l)
    (spelled : os.map Token.kind = o.operator.kinds)
    (noNot : o.operator = .is → first.kind ≠ .kwNot)
    (right : ReadsTerm (sub o.power) (first :: ts) r after) :
    ReadsTerm (extend sub left o.power) (os ++ first :: ts) (.left o l r) after := by
  have joined : ReadsTerm (binary sub left o.operator o.power) (first :: ts) (.left o l r)
      after := by
    intro c rest
    refine (right c rest).bind fun e c shape rest => ?_
    refine (reads_nodeAt rest).bind fun node c _ rest => .pure ?_ rest
    rw [o.term?_binary, leftTerm, shape]
    rfl
  intro c rest
  unfold extend
  obtain ⟨operator, power, fixity⟩ := o
  cases operator <;> cases fixity
  case notIn =>
    obtain ⟨notToken, _, rfl, isNot, remaining⟩ := List.map_eq_cons_iff.mp spelled
    obtain ⟨inToken, rfl, isIn⟩ := List.map_eq_singleton_iff.mp remaining
    rw [reads_kind rest, isNot]
    refine (reads_advance rest).bind fun _ c _ rest => ?_
    exact (reads_expectBecause rest isIn).bind fun _ c _ rest => joined c rest
  case isNot =>
    obtain ⟨isToken, _, rfl, isIs, remaining⟩ := List.map_eq_cons_iff.mp spelled
    obtain ⟨notToken, rfl, isNot⟩ := List.map_eq_singleton_iff.mp remaining
    rw [reads_kind rest, isIs]
    refine (reads_advance rest).bind fun _ c _ rest => ?_
    refine (reads_accept rest isNot).bind fun accepted c same rest => ?_
    rw [if_pos same]
    exact joined c rest
  case is =>
    obtain ⟨isToken, rfl, isIs⟩ := List.map_eq_singleton_iff.mp spelled
    rw [reads_kind rest, isIs]
    refine (reads_advance rest).bind fun _ c _ rest => ?_
    rw [reads_notAccepted rest (noNot rfl)]
    exact joined c rest
  -- Every other operator is a single token that stands for nothing else here.
  all_goals
    obtain ⟨operatorToken, rfl, isOperator⟩ := List.map_eq_singleton_iff.mp spelled
    rw [reads_kind rest, isOperator]
    exact (reads_advance rest).bind fun _ c _ rest => joined c rest

end

section

variable {place : Position}

theorem argument_term (opens : first.kind.opensTerm)
    (noKeyword : first.kind = .identifier → second.kind ≠ .assignment)
    (ends : next.kind = .comma ∨ next.kind = .closeParen)
    (value : ReadsTerm (sub .lowest) (first :: second :: ts) t (next :: after))
    (rest : c.rest = first :: second :: ts) :
    Reads (argument sub place) c (fun a => ∃ e, a = .positional e ∧ e.term? = some t)
      (next :: after) := by
  have positional :
      (decide (c.kind = .identifier) && decide (c.peek 1 = .assignment)) = false := by
    have ahead : c.peek 1 = second.kind := by simp [Cursor.peek, rest]
    rw [Cursor.kind_eq rest, ahead]
    by_cases isName : first.kind = .identifier <;> simp [isName, noKeyword]
  unfold argument
  rw [reads_get, reads_notAccepted rest (Kind.ne_of_opensTerm opens (by decide)),
    reads_notAccepted rest (Kind.ne_of_opensTerm opens (by decide)), positional,
    if_neg Bool.false_ne_true]
  refine (value c rest).bind fun e c shape rest => ?_
  have noClause : atClause c = false := by
    rcases ends with same | same <;> simp [atClause, Cursor.kind_eq rest, same]
  rw [reads_get, noClause, if_neg Bool.false_ne_true]
  exact .pure ⟨e, rfl, shape⟩ rest

theorem settles_arguments (separated : Separated parts args)
    (isClosing : closing.kind = .closeParen)
    (nonempty : ∀ part ∈ parts, ∃ first more, part.2 = first :: more ∧ first.kind.opensTerm)
    (each : ∀ part ∈ parts, ∀ next more, next.kind = .comma ∨ next.kind = .closeParen →
      ∀ c, c.rest = part.2 ++ next :: more →
        Reads (argument sub place) c (fun a => ∃ e, a = .positional e ∧ e.term? = some part.1)
          (next :: more)) {read : Array (Argument Expr)}
    (before : Expr.terms? read.toList = some done) (rest : c.rest = args ++ closing :: after) :
    Settles (itemRound .closeParen (argument sub place)) read c
      (Expr.terms? · = some (done ++ parts.map Prod.fst)) (closing :: after) := by
  induction separated generalizing read done c with
  | none =>
    refine .done ?_
    unfold itemRound
    rw [reads_atKind rest, isClosing]
    exact .pure ⟨_, rfl, by simpa using before⟩ rest
  | one part =>
    refine .done ?_
    unfold itemRound
    obtain ⟨first, more, same, opens⟩ := nonempty part (by simp)
    have start : c.rest = first :: (more ++ closing :: after) := by rw [rest, same]; rfl
    rw [reads_notAt start (Kind.ne_of_opensTerm opens (by decide))]
    refine (each part (by simp) closing after (.inr isClosing) c rest).bind ?_
    rintro _ c ⟨e, rfl, shape⟩ rest
    rw [reads_notAccepted rest (by simp [isClosing])]
    exact .pure ⟨_, rfl, by simpa using Expr.terms?_push before shape⟩ rest
  | @more part parts comma ts isComma others ih =>
    rw [List.append_assoc, List.cons_append] at rest
    refine .again (fun read => Expr.terms? read.toList = some (done ++ [part.1])) ?_ ?_
      fun read c before (rest : c.rest = ts ++ closing :: after) => ?_
    · unfold itemRound
      obtain ⟨first, more, same, opens⟩ := nonempty part (by simp)
      have start : c.rest = first :: (more ++ comma :: (ts ++ closing :: after)) := by
        rw [rest, same]; rfl
      rw [reads_notAt start (Kind.ne_of_opensTerm opens (by decide))]
      refine (each part (by simp) comma _ (.inl isComma) c rest).bind ?_
      rintro _ c ⟨e, rfl, shape⟩ rest
      refine (reads_accept rest isComma).bind fun accepted c same rest => ?_
      rw [if_pos same]
      exact .pure ⟨_, rfl, by simpa using Expr.terms?_push before shape⟩ rest
    · simp only [rest, List.length_append, List.length_cons]
      omega
    · have settled := ih (fun part found => nonempty part (by simp [found]))
        (fun part found => each part (by simp [found])) before rest
      simpa using settled

theorem extend_call (callee : left.term? = some l) (isOpening : opening.kind = .openParen)
    (isClosing : closing.kind = .closeParen)
    (arguments : ∀ place c, c.rest = args → Reads (upTo .closeParen (argument sub place)) c
      (Expr.terms? · = some terms) (closing :: after)) :
    ReadsTerm (extend sub left power) (opening :: args) (.call l terms) after := by
  intro c rest
  unfold extend
  rw [reads_kind rest, isOpening]
  refine (reads_advance rest).bind fun _ c _ rest => ?_
  refine (arguments _ c rest).bind fun read c shape rest => ?_
  refine (reads_expect rest isClosing).bind fun _ c _ rest => ?_
  refine (reads_nodeFrom rest).bind fun node c _ rest => .pure ?_ rest
  simp [callee, shape]

end

end
end FlowTypes
