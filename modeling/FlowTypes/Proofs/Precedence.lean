import FlowTypes.Proofs.Forms

/-! Reading an expression back from its written form. The reader of operators takes every operator
stronger than asked for, so the argument keeps track of two things for each part of a term: all
operators that the part can hold are taken, and the token behind the part is left to the reader
outside. -/
namespace FlowTypes

open FlowTypes.Parser FlowTypes.Grammar

/-! The operators that a part of a term takes, and those it leaves. -/
section

variable {n m : Nat} {power q : Power} {k : Kind}

/-- A reader asked for more than `power` takes every operator at least as strong as `n`. -/
def Takes (power : Power) (n : Nat) : Prop :=
  ∀ k q, Power.ofKind? k = some q → n ≤ q.rank → power.rank < q.rank

/-- A token of this kind does not belong to a part of strength `n` before it: it is weaker, or as
strong and left-associative. Nothing is too strong to stand behind a name or a call. -/
def Leaves (n : Nat) (k : Kind) : Prop :=
  ∀ q, Power.ofKind? k = some q →
    (q.rank ≤ n ∨ Power.call.rank ≤ n) ∧ (q = .ternary ∨ q = .exponent → q.rank ≠ n)

theorem rank_ofKind? (found : Power.ofKind? k = some q) :
    q.rank ≠ Power.lowest.rank ∧ q.rank ≠ Power.logicalNot.rank ∧ q.rank ≠ Power.unary.rank := by
  cases k <;> cases found <;> decide

theorem rank_injective {b : Power} (same : a.rank = b.rank) : a = b := by
  cases a <;> cases b <;> cases same <;> rfl

namespace Takes

theorem mono (takes : Takes power n) (le : n ≤ m) : Takes power m :=
  fun k q found strong => takes k q found (Nat.le_trans le strong)

theorem of_lt (lt : power.rank < n) : Takes power n :=
  fun _ _ _ strong => Nat.lt_of_lt_of_le lt strong

theorem lowest : Takes .lowest Power.lowest.rank :=
  fun _ _ found strong => Nat.lt_of_le_of_ne strong (rank_ofKind? found).1.symm

theorem unary : Takes .unary Power.unary.rank :=
  fun _ _ found strong => Nat.lt_of_le_of_ne strong (rank_ofKind? found).2.2.symm

theorem front {o : FrontOperator} : Takes o.power o.power.rank := by
  obtain ⟨operator, power, fixity⟩ := o
  cases operator <;> cases fixity
  case not =>
    exact fun _ _ found strong => Nat.lt_of_le_of_ne strong (rank_ofKind? found).2.1.symm
  all_goals exact unary

end Takes

namespace Leaves

theorem of_none (none : Power.ofKind? k = none) : Leaves n k := by
  intro q found
  rw [none] at found
  cases found

theorem of_lt (weaker : ∀ q, Power.ofKind? k = some q → q.rank < n) : Leaves n k :=
  fun q found => ⟨.inl (Nat.le_of_lt (weaker q found)), fun _ => Nat.ne_of_lt (weaker q found)⟩

theorem call : Leaves Power.call.rank k := by
  intro q found
  refine ⟨.inr (Nat.le_refl _), ?_⟩
  rintro (rfl | rfl) <;> decide

theorem mono (leaves : Leaves n k) (le : n ≤ m) : Leaves m k := by
  intro q found
  obtain ⟨weaker, right⟩ := leaves q found
  refine ⟨weaker.imp (Nat.le_trans · le) (Nat.le_trans · le), fun isRight same => right isRight ?_⟩
  -- A right-associative operator is weaker than a call, so the first bound is the one that holds.
  have small : q.rank < Power.call.rank := by rcases isRight with rfl | rfl <;> decide
  omega

theorem outside (leaves : Leaves n k) (le : n ≤ power.rank) (noCall : power.rank < Power.call.rank)
    (q : Power) (found : Power.ofKind? k = some q) : q.rank ≤ power.rank := by
  rcases (leaves q found).1 with weaker | strong
  · exact Nat.le_trans weaker le
  · omega

/-- What is left by a right-associative operator is weaker than it. -/
theorem lt_right {r : Power} (leaves : Leaves n k) (isRight : r = .ternary ∨ r = .exponent)
    (le : n ≤ r.rank) (q : Power) (found : Power.ofKind? k = some q) : q.rank < r.rank := by
  have small : r.rank < Power.call.rank := by rcases isRight with rfl | rfl <;> decide
  have weaker := leaves.outside le small q found
  refine Nat.lt_of_le_of_ne weaker fun same => ?_
  have same : q = r := rank_injective same
  exact (leaves.mono le q found).2 (same ▸ isRight) (same ▸ rfl)

end Leaves
end

section

variable {sub : Power → Parser Expr} {power q : Power} {left : Expr} {c : Cursor} {token : Token}
  {t : Term} {more after final : List Token} {result : Expr → Prop}

theorem settles_outside (outside : ∀ q, Power.ofKind? token.kind = some q → q.rank ≤ power.rank)
    (rest : c.rest = token :: after) (holds : result left) :
    Settles (operatorRound sub power) left c result (token :: after) := by
  refine .done ?_
  unfold operatorRound
  rw [reads_kind rest]
  cases found : Power.ofKind? token.kind with
  | none => exact .pure ⟨left, rfl, holds⟩ rest
  | some q =>
    dsimp only
    rw [if_pos (outside q found)]
    exact .pure ⟨left, rfl, holds⟩ rest

theorem settles_operator (found : Power.ofKind? token.kind = some q) (taken : power.rank < q.rank)
    (rest : c.rest = token :: more) (shorter : after.length ≤ more.length)
    (extended : ReadsTerm (extend sub left q) (token :: more) t after)
    (next : ∀ e c', e.term? = some t → c'.rest = after →
      Settles (operatorRound sub power) e c' result final) :
    Settles (operatorRound sub power) left c result final := by
  refine .again (·.term? = some t) ?_ ?_ next
  · unfold operatorRound
    rw [reads_kind rest, found]
    dsimp only
    rw [if_neg (Nat.not_le_of_lt taken)]
    exact (extended c rest).bind fun e c shape rest => .pure ⟨e, rfl, shape⟩ rest
  · rw [rest]
    exact Nat.lt_succ_of_le shorter

end

/-- Reading a place that takes forms of strength `n` comes to the end of the part written there and
goes on with the operators behind it as if the part had been read already. -/
def Resumes (n : Nat) (t : Term) (ts : List Token) : Prop :=
  ∀ ⦃depth : Nat⦄ ⦃power : Power⦄ ⦃next : Token⦄ ⦃after final : List Token⦄ ⦃c : Cursor⦄
    ⦃result : Expr → Prop⦄, ts.length ≤ depth → Takes power n → Leaves n next.kind →
    c.rest = ts ++ next :: after →
    (∀ e c', e.term? = some t → c'.rest = next :: after →
      Settles (operatorRound (exprWithin depth) power) e c' result final) →
    Reads (exprWithin (depth + 1) power) c result final

namespace Resumes

variable {n m depth : Nat} {power q : Power} {t l : Term} {ts ls rs after : List Token}
  {next token : Token}

/-- A part is read as a whole where the token behind it is not stronger than asked for. -/
theorem reads (part : Resumes n t ts) (room : ts.length < depth) (takes : Takes power n)
    (leaves : Leaves n next.kind)
    (outside : ∀ q, Power.ofKind? next.kind = some q → q.rank ≤ power.rank) :
    ReadsTerm (exprWithin depth power) (ts ++ next :: after) t (next :: after) := by
  intro c rest
  obtain ⟨depth, rfl⟩ := Nat.exists_eq_succ_of_ne_zero (Nat.ne_zero_of_lt room)
  exact part (Nat.le_of_lt_succ room) takes leaves rest fun e c shape rest =>
    settles_outside outside rest shape

/-- In particular before a token that is no operator. -/
theorem reads_closed (part : Resumes n t ts) (room : ts.length < depth) (takes : Takes power n)
    (closed : Power.ofKind? next.kind = none) :
    ReadsTerm (exprWithin depth power) (ts ++ next :: after) t (next :: after) :=
  part.reads room takes (.of_none closed) fun q found => by rw [closed] at found; cases found

theorem of_head (reads : ∀ depth next after, ts.length ≤ depth → Leaves n next.kind →
      ReadsTerm (head (exprWithin depth)) (ts ++ next :: after) t (next :: after)) :
    Resumes n t ts := by
  intro depth power next after final c result room takes leaves rest resume
  refine (reads depth next after room leaves c rest).bind fun e c shape rest => ?_
  exact (resume e c shape rest).repeated

theorem of_extend (part : Resumes m l ls) (within : n ≤ m)
    (found : Power.ofKind? token.kind = some q) (strong : n ≤ q.rank)
    (leaves : Leaves m token.kind)
    (extended : ∀ depth next after left, rs.length < depth → Leaves n next.kind →
      left.term? = some l → ReadsTerm (extend (exprWithin depth) left q)
        (token :: (rs ++ next :: after)) t (next :: after)) :
    Resumes n t (ls ++ token :: rs) := by
  intro depth power next after final c result room takes leavesNext rest resume
  simp only [List.length_append, List.length_cons] at room
  rw [List.append_assoc, List.cons_append] at rest
  refine part (by omega) (takes.mono within) leaves rest fun e c shape rest => ?_
  exact settles_operator found (takes _ _ found strong) rest (by simp)
    (extended depth next after e (by omega) leavesNext shape) resume

theorem name (isName : token.kind = .identifier ∨ token.kind = .kwPrint) :
    Resumes n (.name token.value) [token] :=
  of_head fun _ _ _ _ _ => head_name isName

theorem parenthesised (opens : opening.kind = .openParen) (closes : closing.kind = .closeParen)
    (starts : first.kind.opensTerm) (inner : Resumes Power.lowest.rank t (first :: ts)) :
    Resumes n t (opening :: (first :: ts ++ [closing])) := by
  refine of_head fun depth next after room _ => ?_
  simp only [List.length_cons, List.length_append] at room
  have closed : Power.ofKind? closing.kind = none := by rw [closes]; rfl
  have value : ReadsTerm (exprWithin depth .lowest) (first :: ts ++ closing :: next :: after) t
      (closing :: next :: after) :=
    inner.reads_closed (by simp only [List.length_cons]; omega) .lowest closed
  simpa using head_parenthesised opens closes starts value

theorem front (strong : n ≤ o.power.rank) (spelled : [token.kind] = o.operator.kinds)
    (operand : Resumes o.power.rank t ts) : Resumes n (.front o t) (token :: ts) :=
  of_head fun _ _ _ room leaves => head_front spelled <|
    operand.reads room .front (leaves.mono strong) (leaves.outside strong o.rank_lt_call)

theorem left (strong : n ≤ o.power.rank) (spelled : os.map Token.kind = o.operator.kinds)
    (noNot : o.operator = .is → first.kind ≠ .kwNot) (left : Resumes o.power.rank l ls)
    (right : Resumes (o.power.rank + 1) r (first :: rs)) :
    Resumes n (.left o l r) (ls ++ (os ++ first :: rs)) := by
  obtain ⟨token, more, rfl, found⟩ := o.spelled_cons spelled
  have bounds := o.rank_bounds
  have leavesToken : Leaves o.power.rank token.kind := by
    intro q same
    cases found.symm.trans same
    refine ⟨.inl (Nat.le_refl _), ?_⟩
    rintro (same | same) <;> rw [same] at bounds <;> exact absurd bounds (by decide)
  rw [List.cons_append]
  refine left.of_extend strong found strong leavesToken
    fun depth next after e room leaves shape => ?_
  simp only [List.length_append, List.length_cons] at room
  have operand : ReadsTerm (exprWithin depth o.power) (first :: rs ++ next :: after) r
      (next :: after) :=
    right.reads (by simp only [List.length_cons]; omega) (.of_lt (Nat.lt_succ_self _))
      (leaves.mono (Nat.le_succ_of_le strong))
      (leaves.outside strong (Nat.lt_trans bounds.2 (by decide)))
  simpa using extend_left shape spelled noNot operand

theorem raised (strong : n ≤ Power.exponent.rank) (isPower : token.kind = .doubleStar)
    (base : Resumes Power.call.rank b bs) (exponent : Resumes Power.unary.rank e es) :
    Resumes n (.power b e) (bs ++ token :: es) := by
  have found : Power.ofKind? token.kind = some .exponent := by rw [isPower]; rfl
  refine base.of_extend (Nat.le_trans strong (by decide)) found strong .call
    fun depth next after left room leaves shape => ?_
  -- No operator has the strength at which the exponent is read.
  have weaker : ∀ q, Power.ofKind? next.kind = some q → q.rank < Power.unary.rank := fun q found =>
    Nat.lt_of_le_of_ne (Nat.le_of_lt_succ (leaves.lt_right (.inr rfl) strong q found))
      (rank_ofKind? found).2.2
  exact extend_power shape isPower <|
    exponent.reads room .unary (.of_lt weaker) fun q found => Nat.le_of_lt (weaker q found)

theorem conditional (strong : n ≤ Power.ternary.rank) (isIf : ifToken.kind = .kwIf)
    (isElse : elseToken.kind = .kwElse) (body : Resumes (Power.ternary.rank + 1) b bs)
    (condition : Resumes (Power.ternary.rank + 1) c cs) (orelse : Resumes Power.ternary.rank o os) :
    Resumes n (.conditional c b o) (bs ++ ifToken :: (cs ++ elseToken :: os)) := by
  have found : Power.ofKind? ifToken.kind = some .ternary := by rw [isIf]; rfl
  have closed : Power.ofKind? elseToken.kind = none := by rw [isElse]; rfl
  have leavesIf : Leaves (Power.ternary.rank + 1) ifToken.kind :=
    .of_lt fun q same => by cases found.symm.trans same; exact Nat.lt_succ_self _
  refine body.of_extend (Nat.le_succ_of_le strong) found strong leavesIf
    fun depth next after left room leaves shape => ?_
  simp only [List.length_append, List.length_cons] at room
  have weaker := leaves.lt_right (.inl rfl) strong
  rw [List.append_assoc, List.cons_append]
  refine extend_conditional shape isIf isElse
    (condition.reads_closed (by omega) (.of_lt (Nat.lt_succ_self _)) closed)
    (orelse.reads (by omega) (.of_lt (by decide)) (.of_lt weaker) fun q found =>
      Nat.le_of_lt_succ (weaker q found))

theorem member (strong : n ≤ Power.call.rank) (isDot : dot.kind = .dot)
    (isName : property.isNameLike) (object : Resumes Power.call.rank t ts) :
    Resumes n (.member t property.value) (ts ++ [dot, property]) := by
  have found : Power.ofKind? dot.kind = some .member := by rw [isDot]; rfl
  exact object.of_extend strong found (Nat.le_succ_of_le strong) .call
    fun _ _ _ _ _ _ shape => extend_member shape isDot isName

theorem subscript (strong : n ≤ Power.call.rank) (opens : opening.kind = .openBracket)
    (closes : closing.kind = .closeBracket) (starts : first.kind.opensTerm)
    (object : Resumes Power.call.rank t ts) (index : Resumes Power.lowest.rank i (first :: rs)) :
    Resumes n (.subscript t i) (ts ++ opening :: (first :: rs ++ [closing])) := by
  have found : Power.ofKind? opening.kind = some .call := by rw [opens]; rfl
  have closed : Power.ofKind? closing.kind = none := by rw [closes]; rfl
  refine object.of_extend strong found strong .call
    fun depth next after left room _ shape => ?_
  simp only [List.length_append, List.length_cons] at room
  have value : ReadsTerm (exprWithin depth .lowest) (first :: rs ++ closing :: next :: after) i
      (closing :: next :: after) :=
    index.reads_closed (by simp only [List.length_cons]; omega) .lowest closed
  simpa using extend_subscript shape opens closes starts value

end Resumes

theorem Resumes.call (strong : n ≤ Power.call.rank) (opens : opening.kind = .openParen)
    (closes : closing.kind = .closeParen) (callee : Resumes Power.call.rank t ts)
    (written : ∀ part ∈ parts, Written Power.lowest.rank part.1 part.2)
    (arguments : ∀ part ∈ parts, Resumes Power.lowest.rank part.1 part.2)
    (separated : Separated parts args) :
    Resumes n (.call t (parts.map Prod.fst)) (ts ++ opening :: (args ++ [closing])) := by
  have found : Power.ofKind? opening.kind = some .call := by rw [opens]; rfl
  refine callee.of_extend strong found strong .call fun depth next after left room _ shape => ?_
  rw [List.append_assoc]
  refine extend_call shape opens closes fun place c rest => Settles.repeated ?_
  have nonempty : ∀ part ∈ parts, ∃ first more, part.2 = first :: more ∧
      first.kind.opensTerm := by
    intro part found
    obtain ⟨first, more, same, starts, _⟩ := (written part found).first
    exact ⟨first, more, same, starts⟩
  have before : Expr.terms? (#[] : Array (Argument Expr)).toList = some [] := rfl
  refine settles_arguments separated closes nonempty ?_ before rest
  intro part found next more ends c rest
  obtain ⟨first, tail, same, starts⟩ := nonempty part found
  obtain ⟨second, tail', behind⟩ := List.exists_cons_of_ne_nil
    (show tail ++ next :: more ≠ [] by simp)
  have start : part.2 ++ next :: more = first :: second :: tail' := by
    rw [same, List.cons_append, behind]
  have closed : Power.ofKind? next.kind = none := by
    rcases ends with same | same <;> rw [same] <;> rfl
  have inside := separated.length_le part found
  simp only [List.length_append, List.length_cons] at room
  refine argument_term starts ?_ ends ?_ (rest.trans start)
  · exact (written part found).second
      (by rcases ends with same | same <;> simp [same]) start
  · rw [← start]
    exact (arguments part found).reads_closed (by omega) .lowest closed

/-- Every written form is read in one piece. -/
theorem Written.resumes (written : Written n t ts) : Resumes n t ts := by
  induction written with
  | name token isName => exact .name isName
  | parenthesised opens closes inner ih =>
    obtain ⟨first, more, rfl, starts, _⟩ := inner.first
    exact .parenthesised opens closes starts ih
  | front strong spelled _ ih => exact .front strong spelled ih
  | @left _ o _ _ _ _ _ strong spelled _ right ihLeft ihRight =>
    obtain ⟨first, more, rfl, _, weak⟩ := right.first
    refine .left strong spelled (fun isIs isNot => ?_) ihLeft ihRight
    have fixity := o.fixity
    rw [isIs] at fixity
    have relational : Power.relational = o.power := Fixity.between.inj fixity
    exact absurd (relational ▸ weak isNot) (by decide)
  | power strong isPower _ _ ihBase ihExponent => exact .raised strong isPower ihBase ihExponent
  | conditional strong isIf isElse _ _ _ ihBody ihCondition ihOrelse =>
    exact .conditional strong isIf isElse ihBody ihCondition ihOrelse
  | member property strong isDot isName _ ih => exact .member strong isDot isName ih
  | subscript strong opens closes _ index ihObject ihIndex =>
    obtain ⟨first, more, rfl, starts, _⟩ := index.first
    exact .subscript strong opens closes starts ihObject ihIndex
  | call strong opens closes _ arguments separated ihCallee ihArguments =>
    exact .call strong opens closes ihCallee arguments ihArguments separated

/-- Every term can be written, and reading any of its written forms in front of a token that is no
operator gives the term back and stops at that token. -/
theorem expr_reads_written (t : Term) : Written Power.lowest.rank t (t.tokens Power.lowest.rank) ∧
    ∀ (ts : List Token) (stop : Token) (after : List Token) (c : Cursor),
      Written Power.lowest.rank t ts → Power.ofKind? stop.kind = none →
      c.rest = ts ++ stop :: after →
      ∃ e c', expr .lowest c = .ok (e, c') ∧ e.term? = some t ∧ c'.rest = stop :: after := by
  refine ⟨t.tokens_written _, fun ts stop after c written closed rest => ?_⟩
  have room : ts.length < c.rest.length + 1 := by
    simp only [rest, List.length_append]
    omega
  exact written.resumes.reads_closed room .lowest closed c rest

/-- `not a ** -b + c.d(e, f[g]) if h is not i else j` -/
def Term.mixed : Term :=
  .conditional (.left ⟨.isNot, .relational, rfl⟩ (.name "h") (.name "i"))
    (.front ⟨.not, .logicalNot, rfl⟩
      (.left ⟨.add, .additive, rfl⟩
        (.power (.name "a") (.front ⟨.neg, .unary, rfl⟩ (.name "b")))
        (.call (.member (.name "c") "d") [.name "e", .subscript (.name "f") (.name "g")])))
    (.name "j")

theorem expr_reads_mixed : Power.ofKind? .eof = none ∧ ∃ e c',
      expr .lowest ⟨Term.mixed.tokens 0 ++ [.ofKind .eof], .ofKind .eof, .ofKind .eof, 0⟩ =
        .ok (e, c') ∧ e.term? = some .mixed ∧ c'.rest = [.ofKind .eof] :=
  ⟨rfl, (expr_reads_written .mixed).2 _ (.ofKind .eof) [] _ (expr_reads_written .mixed).1 rfl rfl⟩

end FlowTypes
