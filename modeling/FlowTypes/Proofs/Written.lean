import FlowTypes.Grammar.Power
import FlowTypes.Tree.Expr

/-! Written forms of expressions. A term is an expression tree without node identities and places.
`Written` says which token lists write a term down: parentheses may stand around any part, and they
may be left out where the strengths of the operators allow it. `Term.tokens` writes a term with as
few of them as possible. -/
namespace FlowTypes

/-- Where an operator stands and how tightly it binds there. -/
inductive Fixity
  | front (power : Power)
  | between (power : Power)
  /-- Between its operands and right-associative. -/
  | exponent

namespace Operator

def fixity : Operator → Fixity
  | or => .between .logicalOr
  | and => .between .logicalAnd
  | eq | notEq | lt | ltE | gt | gtE | is | isNot | in_ | notIn => .between .relational
  | bitOr => .between .bitwiseOr
  | bitXor => .between .bitwiseXor
  | bitAnd => .between .bitwiseAnd
  | lShift | rShift => .between .shift
  | add | sub => .between .additive
  | mul | div | floorDiv | mod | matMul => .between .multiplicative
  | pow => .exponent
  | not => .front .logicalNot
  | neg | pos | invert => .front .unary

/-- The tokens that spell an operator. -/
def kinds : Operator → List Kind
  | or => [.kwOr]
  | and => [.kwAnd]
  | eq => [.equals]
  | notEq => [.notEquals]
  | lt => [.less]
  | ltE => [.lessEquals]
  | gt => [.greater]
  | gtE => [.greaterEquals]
  | is => [.kwIs]
  | isNot => [.kwIs, .kwNot]
  | in_ => [.kwIn]
  | notIn => [.kwNot, .kwIn]
  | bitOr => [.pipe]
  | bitXor => [.caret]
  | bitAnd => [.ampersand]
  | lShift => [.shiftLeft]
  | rShift => [.shiftRight]
  | add | pos => [.plus]
  | sub | neg => [.dash]
  | mul => [.star]
  | div => [.slash]
  | floorDiv => [.doubleSlash]
  | mod => [.percent]
  | matMul => [.atSign]
  | pow => [.doubleStar]
  | not => [.kwNot]
  | invert => [.tilde]

end Operator

/-- An operator in front of its operand. -/
structure FrontOperator where
  operator : Operator
  power : Power
  fixity : operator.fixity = .front power

/-- A left-associative operator between two operands. -/
structure LeftOperator where
  operator : Operator
  power : Power
  fixity : operator.fixity = .between power

def FrontOperator.of? (operator : Operator) : Option FrontOperator :=
  match h : operator.fixity with
  | .front power => some ⟨operator, power, h⟩
  | _ => none

def LeftOperator.of? (operator : Operator) : Option LeftOperator :=
  match h : operator.fixity with
  | .between power => some ⟨operator, power, h⟩
  | _ => none

/-- Expression trees over names, without places. -/
inductive Term
  | name (text : String)
  | front (operator : FrontOperator) (operand : Term)
  | left (operator : LeftOperator) (left right : Term)
  | power (base exponent : Term)
  | conditional (condition body orelse : Term)
  | member (object : Term) (property : String)
  | subscript (object index : Term)
  | call (callee : Term) (arguments : List Term)

namespace Expr

mutual

/-- The term that an expression tree carries, if it has only the parts that terms have. -/
def term? : Expr → Option Term
  | name _ text => some (.name text)
  | unary _ operator operand => do
    return .front (← FrontOperator.of? operator) (← operand.term?)
  | binary _ .pow left right => do
    return .power (← left.term?) (← right.term?)
  | binary _ operator left right => do
    return .left (← LeftOperator.of? operator) (← left.term?) (← right.term?)
  | conditional _ condition body orelse => do
    return .conditional (← condition.term?) (← body.term?) (← orelse.term?)
  | member _ object property _ => do
    return .member (← object.term?) property
  | subscript _ object index => do
    return .subscript (← object.term?) (← index.term?)
  | call _ callee arguments => do
    return .call (← callee.term?) (← terms? arguments)
  | _ => none

def terms? : List (Argument Expr) → Option (List Term)
  | [] => some []
  | .positional value :: others => do
    return (← value.term?) :: (← terms? others)
  | _ :: _ => none

end

end Expr

namespace FrontOperator

variable (o : FrontOperator)

theorem of?_operator : of? o.operator = some o := by
  obtain ⟨operator, power, fixity⟩ := o
  cases operator <;> cases fixity <;> rfl

theorem rank_lt_call : o.power.rank < Power.call.rank := by
  obtain ⟨operator, power, fixity⟩ := o
  cases operator <;> cases fixity <;> decide

theorem kinds_eq : ∃ k, o.operator.kinds = [k] := by
  obtain ⟨operator, power, fixity⟩ := o
  cases operator <;> cases fixity <;> exact ⟨_, rfl⟩

end FrontOperator

namespace LeftOperator

variable (o : LeftOperator)

theorem of?_operator : of? o.operator = some o := by
  obtain ⟨operator, power, fixity⟩ := o
  cases operator <;> cases fixity <;> rfl

theorem term?_binary : (Expr.binary node o.operator left right).term? =
      (do return .left o (← left.term?) (← right.term?)) := by
  have notPower : o.operator ≠ .pow := fun same => by
    have fixity := o.fixity
    rw [same] at fixity
    cases fixity
  rw [Expr.term?.eq_def]
  simp [o.of?_operator]

theorem spelled_cons (spelled : os.map Token.kind = o.operator.kinds) :
    ∃ token more, os = token :: more ∧ Power.ofKind? token.kind = some o.power := by
  obtain ⟨operator, power, fixity⟩ := o
  cases operator <;> cases fixity
  all_goals
    obtain ⟨token, more, rfl, isOperator, _⟩ := List.map_eq_cons_iff.mp spelled
    exact ⟨token, more, rfl, by rw [isOperator]; rfl⟩

theorem rank_bounds : Power.ternary.rank < o.power.rank ∧ o.power.rank < Power.unary.rank := by
  obtain ⟨operator, power, fixity⟩ := o
  cases operator <;> cases fixity <;> decide

end LeftOperator

theorem Expr.terms?_push {read : List (Argument Expr)} (before : Expr.terms? read = some done)
    (shape : e.term? = some t) : Expr.terms? (read ++ [.positional e]) = some (done ++ [t]) := by
  induction read generalizing done with
  | nil =>
    cases before
    simp [Expr.terms?, shape]
  | cons a read ih =>
    cases a with
    | positional value =>
      simp only [Expr.terms?, Option.bind_eq_bind, Option.bind_eq_some_iff, Option.pure_def]
        at before
      obtain ⟨u, uShape, us, usShape, same⟩ := before
      cases same
      simp [Expr.terms?, uShape, ih usShape]
    | _ => simp [Expr.terms?] at before

/-- The written parts of a list with commas between them, and perhaps one behind the last. -/
inductive Separated : List (Term × List Token) → List Token → Prop
  | none : Separated [] []
  | one (part : Term × List Token) : Separated [part] part.2
  | more {part : Term × List Token} {parts : List (Term × List Token)} {comma : Token}
      {ts : List Token} (isComma : comma.kind = .comma) (others : Separated parts ts) :
      Separated (part :: parts) (part.2 ++ comma :: ts)

/-- `Written n t ts`: the tokens write the term in a place that takes, outside of parentheses, only
forms at least as strong as `n`. Attributes, items and calls all have the strength of a call; a name
or a term in parentheses can stand anywhere. -/
inductive Written : Nat → Term → List Token → Prop
  | name {n : Nat} (token : Token) (isName : token.kind = .identifier ∨ token.kind = .kwPrint) :
      Written n (.name token.value) [token]
  | parenthesised {n : Nat} {t : Term} {ts : List Token} {opening closing : Token}
      (opens : opening.kind = .openParen) (closes : closing.kind = .closeParen)
      (inner : Written Power.lowest.rank t ts) :
      Written n t (opening :: (ts ++ [closing]))
  | front {n : Nat} {o : FrontOperator} {t : Term} {token : Token} {ts : List Token}
      (strong : n ≤ o.power.rank) (spelled : [token.kind] = o.operator.kinds)
      (operand : Written o.power.rank t ts) :
      Written n (.front o t) (token :: ts)
  | left {n : Nat} {o : LeftOperator} {l r : Term} {ls os rs : List Token}
      (strong : n ≤ o.power.rank) (spelled : os.map Token.kind = o.operator.kinds)
      (left : Written o.power.rank l ls) (right : Written (o.power.rank + 1) r rs) :
      Written n (.left o l r) (ls ++ (os ++ rs))
  | power {n : Nat} {b e : Term} {token : Token} {bs es : List Token}
      (strong : n ≤ Power.exponent.rank) (isPower : token.kind = .doubleStar)
      (base : Written Power.call.rank b bs) (exponent : Written Power.unary.rank e es) :
      Written n (.power b e) (bs ++ token :: es)
  | conditional {n : Nat} {b c o : Term} {ifToken elseToken : Token} {bs cs os : List Token}
      (strong : n ≤ Power.ternary.rank)
      (isIf : ifToken.kind = .kwIf) (isElse : elseToken.kind = .kwElse)
      (body : Written (Power.ternary.rank + 1) b bs)
      (condition : Written (Power.ternary.rank + 1) c cs)
      (orelse : Written Power.ternary.rank o os) :
      Written n (.conditional c b o) (bs ++ ifToken :: (cs ++ elseToken :: os))
  | member {n : Nat} {t : Term} {dot : Token} {ts : List Token} (property : Token)
      (strong : n ≤ Power.call.rank) (isDot : dot.kind = .dot) (isName : property.isNameLike)
      (object : Written Power.call.rank t ts) :
      Written n (.member t property.value) (ts ++ [dot, property])
  | subscript {n : Nat} {t i : Term} {opening closing : Token} {ts is : List Token}
      (strong : n ≤ Power.call.rank)
      (opens : opening.kind = .openBracket) (closes : closing.kind = .closeBracket)
      (object : Written Power.call.rank t ts) (index : Written Power.lowest.rank i is) :
      Written n (.subscript t i) (ts ++ opening :: (is ++ [closing]))
  | call {n : Nat} {t : Term} {parts : List (Term × List Token)} {opening closing : Token}
      {ts args : List Token} (strong : n ≤ Power.call.rank)
      (opens : opening.kind = .openParen) (closes : closing.kind = .closeParen)
      (callee : Written Power.call.rank t ts)
      (arguments : ∀ part ∈ parts, Written Power.lowest.rank part.1 part.2)
      (separated : Separated parts args) :
      Written n (.call t (parts.map Prod.fst)) (ts ++ opening :: (args ++ [closing]))

theorem Separated.length_le (separated : Separated parts args) :
    ∀ part ∈ parts, part.2.length ≤ args.length := by
  induction separated with
  | none => exact fun _ found => nomatch found
  | one part => simp
  | more isComma others ih =>
    intro part found
    rcases List.mem_cons.mp found with rfl | later
    · simp
    · have := ih part later
      simp only [List.length_append, List.length_cons]
      omega

/-- The tokens that a written term starts with. -/
def Kind.opensTerm : Kind → Bool
  | identifier | kwPrint | kwNot | dash | plus | tilde | openParen => true
  | _ => false

theorem Kind.opensTerm_of_front {o : FrontOperator} (spelled : [k] = o.operator.kinds) :
    k.opensTerm ∧ (k = .kwNot → o.power = .logicalNot) := by
  obtain ⟨operator, power, fixity⟩ := o
  cases operator <;> cases fixity <;> cases spelled <;> simp [opensTerm]

theorem Kind.ne_of_opensTerm {other : Kind} (opens : k.opensTerm) (closed : ¬ other.opensTerm) :
    k ≠ other :=
  fun same => closed (same ▸ opens)

theorem Written.first (written : Written n t ts) :
    ∃ token more, ts = token :: more ∧ token.kind.opensTerm ∧
      (token.kind = .kwNot → n ≤ Power.logicalNot.rank) := by
  induction written with
  | name token isName =>
    refine ⟨token, [], rfl, ?_⟩
    rcases isName with same | same <;> simp [same, Kind.opensTerm]
  | parenthesised opens => exact ⟨_, _, rfl, by simp [opens, Kind.opensTerm]⟩
  | front strong spelled =>
    obtain ⟨opens, same⟩ := Kind.opensTerm_of_front spelled
    exact ⟨_, _, rfl, opens, fun isNot => same isNot ▸ strong⟩
  | left strong _ _ _ ih =>
    obtain ⟨token, more, rfl, opens, weak⟩ := ih
    exact ⟨token, _, rfl, opens, fun isNot => Nat.le_trans strong (weak isNot)⟩
  | power strong _ _ _ ih =>
    obtain ⟨token, more, rfl, opens, weak⟩ := ih
    exact ⟨token, _, rfl, opens, fun isNot => absurd (weak isNot) (by decide)⟩
  | conditional strong _ _ _ _ _ ih =>
    obtain ⟨token, more, rfl, opens, weak⟩ := ih
    exact ⟨token, _, rfl, opens, fun _ => Nat.le_trans strong (by decide)⟩
  | member _ _ _ _ _ ih | subscript _ _ _ _ _ ih | call _ _ _ _ _ _ ih =>
    obtain ⟨token, more, rfl, opens, weak⟩ := ih
    exact ⟨token, _, rfl, opens, fun isNot => absurd (weak isNot) (by decide)⟩

/-- Behind a name at the start of a written term stands no assignment. -/
theorem Written.second (written : Written n t ts) (notAssigned : next.kind ≠ .assignment)
    {first second : Token} (start : ts ++ next :: after = first :: second :: more)
    (isName : first.kind = .identifier) : second.kind ≠ .assignment := by
  induction written generalizing next after with
  | name token =>
    cases start
    exact notAssigned
  | parenthesised opens =>
    obtain ⟨rfl, _⟩ := List.cons.inj start
    simp [opens] at isName
  | @front _ o _ token _ _ spelled =>
    obtain ⟨rfl, _⟩ := List.cons.inj start
    obtain ⟨operator, power, fixity⟩ := o
    rw [isName] at spelled
    cases operator <;> cases fixity <;> cases spelled
  | @left _ o _ _ _ os _ _ spelled _ _ ih =>
    obtain ⟨token, more, rfl, found⟩ := o.spelled_cons spelled
    rw [List.append_assoc, List.cons_append] at start
    exact ih (fun same => by rw [same] at found; cases found) start
  | power _ isPower _ _ ih =>
    rw [List.append_assoc, List.cons_append] at start
    exact ih (by simp [isPower]) start
  | conditional _ isIf _ _ _ _ ih =>
    rw [List.append_assoc, List.cons_append] at start
    exact ih (by simp [isIf]) start
  | member _ _ isDot _ _ ih =>
    rw [List.append_assoc, List.cons_append] at start
    exact ih (by simp [isDot]) start
  | subscript _ opens _ _ _ ih =>
    rw [List.append_assoc, List.cons_append] at start
    exact ih (by simp [opens]) start
  | call _ opens _ _ _ _ ih =>
    rw [List.append_assoc, List.cons_append] at start
    exact ih (by simp [opens]) start

namespace Token

def ofKind (kind : Kind) : Token := { kind, value := "", span := default }

def ofName (name : String) : Token := { kind := .identifier, value := name, span := default }

end Token

/-- Puts tokens in parentheses where a form of their strength cannot stand bare. -/
def enclose (minimum strength : Nat) (ts : List Token) : List Token :=
  if minimum ≤ strength then ts else .ofKind .openParen :: (ts ++ [.ofKind .closeParen])

def Operator.tokens (o : Operator) : List Token := o.kinds.map Token.ofKind

namespace Term

mutual

/-- A term with as few parentheses as the strengths of its operators allow. -/
def tokens (minimum : Nat) : Term → List Token
  | name text => [.ofName text]
  | front o t =>
    enclose minimum o.power.rank (o.operator.tokens ++ t.tokens o.power.rank)
  | left o l r =>
    enclose minimum o.power.rank
      (l.tokens o.power.rank ++ (o.operator.tokens ++ r.tokens (o.power.rank + 1)))
  | power b e =>
    enclose minimum Power.exponent.rank
      (b.tokens Power.call.rank ++ .ofKind .doubleStar :: e.tokens Power.unary.rank)
  | conditional c b o =>
    enclose minimum Power.ternary.rank
      (b.tokens (Power.ternary.rank + 1) ++ .ofKind .kwIf ::
        (c.tokens (Power.ternary.rank + 1) ++ .ofKind .kwElse :: o.tokens Power.ternary.rank))
  | member t property =>
    enclose minimum Power.call.rank
      (t.tokens Power.call.rank ++ [.ofKind .dot, .ofName property])
  | subscript t i =>
    enclose minimum Power.call.rank
      (t.tokens Power.call.rank ++ .ofKind .openBracket ::
        (i.tokens Power.lowest.rank ++ [.ofKind .closeBracket]))
  | call t arguments =>
    enclose minimum Power.call.rank
      (t.tokens Power.call.rank ++ .ofKind .openParen ::
        (argumentTokens arguments ++ [.ofKind .closeParen]))

def argumentTokens : List Term → List Token
  | [] => []
  | [t] => t.tokens Power.lowest.rank
  | t :: others => t.tokens Power.lowest.rank ++ .ofKind .comma :: argumentTokens others

end

-- `(a + b) * c` needs its parentheses.
example :
    ((left ⟨.mul, .multiplicative, rfl⟩ (left ⟨.add, .additive, rfl⟩ (name "a") (name "b"))
      (name "c")).tokens Power.lowest.rank).map Token.kind =
    [.openParen, .identifier, .plus, .identifier, .closeParen, .star, .identifier] := rfl

end Term

/-- What can stand bare in a weak enough place can be enclosed for every place. -/
theorem Written.enclosed (bare : ∀ m ≤ strength, Written m t ts) :
    Written n t (enclose n strength ts) := by
  unfold enclose
  split
  · case isTrue strong => exact bare n strong
  · exact .parenthesised rfl rfl (bare _ (Nat.zero_le _))

theorem separated_argumentTokens :
    Separated (ts.map fun t => (t, t.tokens Power.lowest.rank)) (Term.argumentTokens ts) := by
  induction ts with
  | nil => exact .none
  | cons t others ih =>
    cases others with
    | nil => exact .one (t, t.tokens Power.lowest.rank)
    | cons _ _ => exact .more rfl ih

namespace Term

mutual

/-- Every term has a written form. -/
theorem tokens_written (n : Nat) : ∀ t : Term, Written n t (t.tokens n)
  | name text => .name (.ofName text) (.inl rfl)
  | front o t => by
    obtain ⟨k, kinds⟩ := o.kinds_eq
    rw [Term.tokens, Operator.tokens, kinds]
    exact .enclosed fun m strong => .front strong kinds.symm (tokens_written _ t)
  | left o l r => by
    rw [Term.tokens]
    refine .enclosed fun m strong => .left strong ?_ (tokens_written _ l) (tokens_written _ r)
    simp [Operator.tokens, Function.comp_def, Token.ofKind]
  | power b e => by
    rw [Term.tokens]
    exact .enclosed fun m strong => .power strong rfl (tokens_written _ b) (tokens_written _ e)
  | conditional c b o => by
    rw [Term.tokens]
    exact .enclosed fun m strong =>
      .conditional strong rfl rfl (tokens_written _ b) (tokens_written _ c) (tokens_written _ o)
  | member t property => by
    rw [Term.tokens]
    exact .enclosed fun m strong =>
      .member (.ofName property) strong rfl rfl (tokens_written _ t)
  | subscript t i => by
    rw [Term.tokens]
    exact .enclosed fun m strong =>
      .subscript strong rfl rfl (tokens_written _ t) (tokens_written _ i)
  | call t arguments => by
    rw [Term.tokens]
    refine .enclosed fun m strong => ?_
    have written := @Written.call m t _ (.ofKind .openParen) (.ofKind .closeParen) _ _ strong
      rfl rfl (tokens_written _ t) (by simpa using arguments_written arguments)
      separated_argumentTokens
    simpa [Function.comp_def] using written

theorem arguments_written :
    ∀ ts : List Term, ∀ t ∈ ts, Written Power.lowest.rank t (t.tokens Power.lowest.rank)
  | [], _, found => nomatch found
  | t :: others, u, found => by
    rcases List.mem_cons.mp found with same | later
    · exact same ▸ tokens_written _ t
    · exact arguments_written others u later

end

end Term
end FlowTypes
