import FlowTypes.Grammar.Expr
import FlowTypes.Proofs.Places.Logic

/-! Whether an expression is read depends on the tokens and not on their places, and so does whether
it can stand on the left of an assignment. -/
namespace FlowTypes

/-- Both expressions can be assigned to, or neither can. -/
structure Expr.Alike (e e' : Expr) : Prop where
  assignable : e'.isAssignable = e.isAssignable
  place : e'.isPlace = e.isPlace

theorem Expr.Alike.areAssignable (alike : List.Forall₂ Expr.Alike es es') :
    Expr.areAssignable es' = Expr.areAssignable es := by
  induction alike with
  | nil => rfl
  | cons first _ ih => simp only [Expr.areAssignable, first.assignable, ih]

theorem Expr.Alike.tuple (alike : List.Forall₂ Expr.Alike es es') {node node' : Node} :
    Expr.Alike (.tuple node es) (.tuple node' es') :=
  ⟨by simp only [Expr.isAssignable, areAssignable alike], rfl⟩

theorem Expr.Alike.list (alike : List.Forall₂ Expr.Alike es es') {node node' : Node} :
    Expr.Alike (.list node es) (.list node' es') :=
  ⟨by simp only [Expr.isAssignable, areAssignable alike], rfl⟩

theorem Expr.Alike.starred (alike : e.Alike e') {node node' : Node} :
    Expr.Alike (.starred node e) (.starred node' e') :=
  ⟨by simp only [Expr.isAssignable, alike.assignable], rfl⟩

/-- Nothing is asked of what is read. -/
def Parallel.Free {α β : Type} (_ : α) (_ : β) : Prop := True

namespace Grammar

open FlowTypes.Parser Parallel

theorem parallel_number : Parallel Expr.Alike number number := by
  refine .look fun c d alike => ?_
  dsimp only
  rw [alike.value]
  split
  · exact .fails (fun _ => ⟨_, rfl⟩) fun _ => ⟨_, rfl⟩
  · refine parallel_advance.bind fun _ _ _ => ?_
    exact parallel_nodeAt.bind fun _ _ _ => .pure ⟨rfl, rfl⟩

theorem parallel_name : Parallel Expr.Alike name name := by
  refine parallel_advance.bind fun _ _ _ => ?_
  exact parallel_nodeAt.bind fun _ _ _ => .pure ⟨rfl, rfl⟩

theorem parallel_strings : Parallel Expr.Alike strings strings := by
  refine .look fun c d _ => ?_
  refine (parallel_collectWhile (fun _ _ alike => by rw [alike.kind]) parallel_advance).bind
    fun _ _ _ => ?_
  exact parallel_make fun _ _ => ⟨rfl, rfl⟩

theorem parallel_constant : Parallel Expr.Alike (constant value) (constant value) := by
  refine parallel_advance.bind fun _ _ _ => ?_
  exact parallel_nodeAt.bind fun _ _ _ => .pure ⟨rfl, rfl⟩

theorem atClause_eq (alike : c.Alike d) : atClause d = atClause c := by
  unfold atClause
  rw [alike.kind, alike.peek]

section

variable {sub : Power → Parser Expr} (inner : ∀ power, Parallel Expr.Alike (sub power) (sub power))

include inner

theorem parallel_element : Parallel Expr.Alike (element sub power) (element sub power) := by
  refine .bindEq parallel_atKind fun starred => ?_
  split
  · refine parallel_advance.bind fun _ _ _ => ?_
    refine (inner _).bind fun _ _ alike => ?_
    exact parallel_make fun _ _ => alike.starred
  · exact inner power

theorem parallel_elements : Parallel Expr.Alike (elements sub power) (elements sub power) := by
  refine .look fun c d _ => ?_
  refine (parallel_element inner).bind fun _ _ alike => ?_
  refine .bindEq parallel_atKind fun _ => ?_
  split
  · refine (parallel_afterCommas (fun _ _ alike => by rw [alike.kind])
      (parallel_element inner)).bind fun _ _ alikes => ?_
    exact parallel_make fun _ _ => .tuple (.cons alike alikes)
  · exact .pure alike

theorem parallel_unary :
    Parallel Expr.Alike (unary sub operator power) (unary sub operator power) := by
  refine parallel_advance.bind fun _ _ _ => ?_
  refine (inner power).bind fun _ _ _ => ?_
  exact parallel_nodeAt.bind fun _ _ _ => .pure ⟨rfl, rfl⟩

theorem parallel_await : Parallel Expr.Alike (await sub) (await sub) := by
  refine parallel_advance.bind fun _ _ _ => ?_
  refine (inner _).bind fun _ _ _ => ?_
  exact parallel_make fun _ _ => ⟨rfl, rfl⟩

theorem parallel_yields : Parallel Expr.Alike (yields sub) (yields sub) := by
  refine parallel_advance.bind fun _ _ _ => ?_
  refine .bindEq parallel_accept fun _ => ?_
  split
  · refine (inner _).bind fun value value' _ => ?_
    exact parallel_make fun _ _ => ⟨rfl, rfl⟩
  · refine .look fun c d alike => ?_
    rw [alike.kind]
    split
    · refine (parallel_elements inner).bind fun value value' _ => ?_
      exact parallel_make fun _ _ => ⟨rfl, rfl⟩
    · exact parallel_make fun _ _ => ⟨rfl, rfl⟩

theorem parallel_behind {kind : Kind} : Parallel Free (behind sub kind) (behind sub kind) := by
  refine .bindEq parallel_accept fun _ => ?_
  split
  · exact (inner _).map fun _ _ _ => trivial
  · exact .pure trivial

theorem parallel_parameters {close : Kind} {hints : Bool} :
    Parallel Free (parameters sub close hints) (parameters sub close hints) := by
  have named : ∀ (start start' : Position) (kind : ParameterKind), Parallel Free (do
      let token ← expectBecause .identifier "expected a parameter name"
      let hint ← if hints then behind sub .colon else pure none
      let fallback ← behind sub .assignment
      return (⟨← nodeFrom start, token.value, kind, hint, fallback⟩ : Parameter Expr)) (do
      let token ← expectBecause .identifier "expected a parameter name"
      let hint ← if hints then behind sub .colon else pure none
      let fallback ← behind sub .assignment
      return (⟨← nodeFrom start', token.value, kind, hint, fallback⟩ : Parameter Expr)) := by
    intro start start' kind
    refine parallel_expectBecause.bind fun token token' _ => ?_
    refine .choose (parallel_behind inner) (.pure trivial) fun hint hint' _ => ?_
    refine (parallel_behind inner).bind fun fallback fallback' _ => ?_
    exact parallel_make fun _ _ => trivial
  refine parallel_repeated (S := Free) (fun _ _ _ => ?_) trivial
  refine .look fun c d alike => ?_
  rw [alike.kind, alike.peek]
  split
  · exact .pure (.done trivial)
  · refine .skipIf parallel_advance ?_
    split
    · exact .bindEq parallel_accept fun _ => .pure (.again trivial)
    · refine (named c.position d.position _).bind fun parameter parameter' _ => ?_
      refine .bindEq parallel_accept fun _ => ?_
      split
      · exact .pure (.again trivial)
      · exact .pure (.done trivial)

theorem parallel_lambda : Parallel Expr.Alike (lambda sub) (lambda sub) := by
  refine parallel_advance.bind fun _ _ _ => ?_
  refine (parallel_parameters inner).bind fun _ _ _ => ?_
  refine parallel_expect.bind fun _ _ _ => ?_
  refine (inner _).bind fun _ _ _ => ?_
  exact parallel_make fun _ _ => ⟨rfl, rfl⟩

theorem parallel_clause : Parallel Free (clause sub) (clause sub) := by
  refine .bindEq parallel_accept fun _ => ?_
  refine parallel_expect.bind fun _ _ _ => ?_
  refine (parallel_elements inner).bind fun _ _ _ => ?_
  refine parallel_expectBecause.bind fun _ _ _ => ?_
  refine (inner _).bind fun _ _ _ => ?_
  refine (parallel_collectWhile (fun _ _ alike => by rw [alike.kind])
    (parallel_advance.bind fun _ _ _ => inner _)).bind fun _ _ _ => ?_
  exact .pure trivial

theorem parallel_clauses : Parallel (List.Forall₂ Free) (clauses sub) (clauses sub) :=
  parallel_collectWhile (fun _ _ => atClause_eq) (parallel_clause inner)

theorem parallel_comprehension {kind : ComprehensionKind} {element : Expr} :
    Parallel Expr.Alike (comprehension sub start kind element value close)
      (comprehension sub start' kind element' value' close) := by
  refine (parallel_clauses inner).bind fun _ _ _ => ?_
  refine parallel_expect.bind fun _ _ _ => ?_
  exact parallel_make fun _ _ => ⟨rfl, rfl⟩

theorem parallel_otherElements (alike : first.Alike first') :
    Parallel (List.Forall₂ Expr.Alike) (otherElements sub first close)
      (otherElements sub first' close) := by
  refine (parallel_afterCommas (fun _ _ alike => by rw [alike.kind])
    (parallel_element inner)).bind fun _ _ alikes => ?_
  refine parallel_expect.bind fun _ _ _ => ?_
  exact .pure (.cons alike alikes)

theorem parallel_parenthesised : Parallel Expr.Alike (parenthesised sub) (parenthesised sub) := by
  refine parallel_advance.bind fun _ _ _ => ?_
  refine .bindEq parallel_accept fun _ => ?_
  split
  · exact parallel_make fun _ _ => .tuple .nil
  · refine .bindEq parallel_atKind fun _ => ?_
    split
    · refine (parallel_yields inner).bind fun _ _ alike => ?_
      exact parallel_expect.bind fun _ _ _ => .pure alike
    · refine (parallel_element inner).bind fun _ _ alike => ?_
      refine .look fun c d same => ?_
      rw [atClause_eq same]
      split
      · exact parallel_comprehension inner
      · refine .bindEq parallel_atKind fun _ => ?_
        split
        · refine (parallel_otherElements inner alike).bind fun _ _ alikes => ?_
          exact parallel_make fun _ _ => .tuple alikes
        · exact parallel_expect.bind fun _ _ _ => .pure alike

theorem parallel_list : Parallel Expr.Alike (list sub) (list sub) := by
  refine parallel_advance.bind fun _ _ _ => ?_
  refine .bindEq parallel_accept fun _ => ?_
  split
  · exact parallel_make fun _ _ => .list .nil
  · refine (parallel_element inner).bind fun _ _ alike => ?_
    refine .look fun c d same => ?_
    rw [atClause_eq same]
    split
    · exact parallel_comprehension inner
    · refine (parallel_otherElements inner alike).bind fun _ _ alikes => ?_
      exact parallel_make fun _ _ => .list alikes

theorem parallel_entry : Parallel Free (entry sub) (entry sub) := by
  refine .bindEq parallel_accept fun _ => ?_
  split
  · exact (inner _).bind fun _ _ _ => .pure trivial
  · refine (inner _).bind fun _ _ _ => ?_
    refine parallel_expect.bind fun _ _ _ => ?_
    exact (inner _).bind fun _ _ _ => .pure trivial

theorem parallel_dict (length : first'.length = first.length) :
    Parallel Expr.Alike (dict sub start first) (dict sub start' first') := by
  have empty : first'.isEmpty = first.isEmpty := by
    cases first <;> cases first' <;> simp at length ⊢
  unfold dict
  rw [empty]
  refine .choose (.pure .nil) (parallel_afterCommas (fun _ _ alike => by rw [alike.kind])
    (parallel_entry inner)) fun _ _ _ => ?_
  refine parallel_expect.bind fun _ _ _ => ?_
  exact parallel_make fun _ _ => ⟨rfl, rfl⟩

theorem parallel_braced : Parallel Expr.Alike (braced sub) (braced sub) := by
  refine parallel_advance.bind fun _ _ _ => ?_
  refine .bindEq parallel_atKind fun _ => ?_
  split
  · exact parallel_dict inner rfl
  · refine .bindEq parallel_atKind fun _ => ?_
    split
    · exact (parallel_entry inner).bind fun _ _ _ => parallel_dict inner rfl
    · refine (parallel_element inner).bind fun _ _ alike => ?_
      refine .bindEq parallel_accept fun _ => ?_
      split
      · refine (inner _).bind fun _ _ _ => ?_
        refine .look fun c d same => ?_
        rw [atClause_eq same]
        split
        · exact parallel_comprehension inner
        · exact parallel_dict inner rfl
      · refine .look fun c d same => ?_
        rw [atClause_eq same]
        split
        · exact parallel_comprehension inner
        · refine (parallel_otherElements inner alike).bind fun _ _ _ => ?_
          exact parallel_make fun _ _ => ⟨rfl, rfl⟩

theorem parallel_head : Parallel Expr.Alike (head sub) (head sub) := by
  refine .bindEq parallel_kind fun _ => ?_
  split
  · exact parallel_number
  · exact parallel_name
  · exact parallel_name
  · exact parallel_strings
  · exact parallel_constant
  · exact parallel_constant
  · exact parallel_constant
  · exact parallel_constant
  · exact parallel_unary inner
  · exact parallel_unary inner
  · exact parallel_unary inner
  · exact parallel_unary inner
  · exact parallel_await inner
  · exact parallel_lambda inner
  · exact parallel_yields inner
  · exact parallel_parenthesised inner
  · exact parallel_list inner
  · exact parallel_braced inner
  · exact parallel_fail

theorem parallel_binary :
    Parallel Expr.Alike (binary sub left operator power) (binary sub left' operator power) := by
  refine (inner _).bind fun _ _ _ => ?_
  exact parallel_nodeAt.bind fun _ _ _ => .pure ⟨rfl, rfl⟩

theorem parallel_conditional :
    Parallel Expr.Alike (conditional sub body) (conditional sub body') := by
  refine parallel_advance.bind fun _ _ _ => ?_
  refine (inner _).bind fun _ _ _ => ?_
  refine parallel_expectBecause.bind fun _ _ _ => ?_
  refine (inner _).bind fun _ _ _ => ?_
  exact parallel_nodeAt.bind fun _ _ _ => .pure ⟨rfl, rfl⟩

theorem parallel_argument : Parallel Free (argument sub opening) (argument sub opening') := by
  refine .look fun c d alike => ?_
  refine .bindEq parallel_accept fun _ => ?_
  split
  · exact (inner _).bind fun _ _ _ => .pure trivial
  · refine .bindEq parallel_accept fun _ => ?_
    split
    · exact (inner _).bind fun _ _ _ => .pure trivial
    · rw [alike.kind, alike.peek]
      split
      · refine parallel_advance.bind fun _ _ _ => ?_
        refine parallel_advance.bind fun _ _ _ => ?_
        exact (inner _).bind fun _ _ _ => .pure trivial
      · refine (inner _).bind fun _ _ _ => ?_
        refine .look fun c d same => ?_
        rw [atClause_eq same]
        split
        · refine (parallel_clauses inner).bind fun _ _ _ => ?_
          exact parallel_make fun _ _ => trivial
        · exact .pure trivial

theorem parallel_call : Parallel Expr.Alike (call sub callee) (call sub callee') := by
  refine parallel_advance.bind fun _ _ _ => ?_
  refine (parallel_upTo (parallel_argument inner)).bind
    fun _ _ _ => ?_
  refine parallel_expect.bind fun _ _ _ => ?_
  exact parallel_make fun _ _ => ⟨rfl, rfl⟩

theorem parallel_bound : Parallel Free (bound sub) (bound sub) := by
  refine .look fun c d alike => ?_
  rw [alike.kind]
  split
  · exact (inner _).map fun _ _ _ => trivial
  · exact .pure trivial

theorem parallel_slice : Parallel Expr.Alike (slice sub start lower) (slice sub start' lower') := by
  refine parallel_expect.bind fun _ _ _ => ?_
  refine (parallel_bound inner).bind fun _ _ _ => ?_
  refine .bindEq parallel_accept fun _ => ?_
  refine .choose (parallel_bound inner) (.pure trivial) fun _ _ _ => ?_
  exact parallel_make fun _ _ => ⟨rfl, rfl⟩

theorem parallel_subscriptItem : Parallel Expr.Alike (subscriptItem sub) (subscriptItem sub) := by
  refine .look fun c d _ => ?_
  refine .bindEq parallel_atKind fun colon => ?_
  split
  · exact parallel_slice inner
  · refine (parallel_element inner).bind fun _ _ alike => ?_
    refine .bindEq parallel_atKind fun colon => ?_
    split
    · exact parallel_slice inner
    · exact .pure alike

theorem parallel_subscript :
    Parallel Expr.Alike (subscript sub object) (subscript sub object') := by
  refine parallel_advance.bind fun _ _ _ => ?_
  refine (parallel_subscriptItem inner).bind fun _ _ _ => ?_
  refine .bindEq parallel_atKind fun _ => ?_
  dsimp only
  split
  · refine (parallel_afterCommas (fun _ _ alike => by rw [alike.kind])
      (parallel_subscriptItem inner)).bind fun _ _ _ => ?_
    refine parallel_nodeFrom.bind fun _ _ _ => .given ?_
    exact parallel_expect.bind fun _ _ _ => parallel_make fun _ _ => ⟨rfl, rfl⟩
  · exact .given (parallel_expect.bind fun _ _ _ => parallel_make fun _ _ => ⟨rfl, rfl⟩)

omit inner in
theorem parallel_member : Parallel Expr.Alike (member object) (member object') := by
  refine parallel_advance.bind fun _ _ _ => ?_
  refine .look fun c d alike => ?_
  rw [alike.isNameLike]
  split
  · refine parallel_advance.bind fun _ _ _ => ?_
    exact parallel_make fun _ _ => ⟨rfl, rfl⟩
  · exact parallel_failBecause

theorem parallel_extend : Parallel Expr.Alike (extend sub left power) (extend sub left' power) := by
  refine .bindEq parallel_kind fun _ => ?_
  split
  · exact parallel_conditional inner
  · exact parallel_call inner
  · exact parallel_subscript inner
  · exact parallel_member
  · exact parallel_advance.bind fun _ _ _ => parallel_binary inner
  · refine parallel_advance.bind fun _ _ _ => ?_
    exact parallel_expectBecause.bind fun _ _ _ => parallel_binary inner
  · refine parallel_advance.bind fun _ _ _ => ?_
    refine .bindEq parallel_accept fun _ => ?_
    split
    · exact parallel_binary inner
    · exact parallel_binary inner
  · split
    · exact parallel_advance.bind fun _ _ _ => parallel_binary inner
    · exact parallel_fail

theorem parallel_exprWith (power : Power) :
    Parallel Expr.Alike (exprWith sub power) (exprWith sub power) := by
  refine (parallel_head inner).bind fun _ _ alike => ?_
  refine parallel_repeated (S := Expr.Alike) (fun _ _ alike => ?_) alike
  refine .bindEq parallel_kind fun _ => ?_
  split
  · exact .pure (.done alike)
  · split
    · exact .pure (.done alike)
    · exact (parallel_extend inner).bind fun _ _ alike => .pure (.again alike)

end

theorem parallel_exprWithin (depth : Nat) (power : Power) :
    Parallel Expr.Alike (exprWithin depth power) (exprWithin depth power) := by
  induction depth generalizing power with
  | zero => exact parallel_exhausted
  | succ depth ih => exact parallel_exprWith ih power

theorem parallel_expr (power : Power) : Parallel Expr.Alike (expr power) (expr power) := by
  intro c d alike
  unfold expr
  rw [alike.length]
  exact parallel_exprWithin _ power c d alike

end Grammar
end FlowTypes
