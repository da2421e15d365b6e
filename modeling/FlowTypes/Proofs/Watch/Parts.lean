import FlowTypes.Tree.Stmt

/-! Parts of syntax trees. A phrase is an expression or a statement; a walk that has come to a phrase
goes on to its parts. -/
namespace FlowTypes

def Parameter.exprs (p : Parameter Expr) : List Expr := p.hint.toList ++ p.fallback.toList

def Clause.exprs (c : Clause Expr) : List Expr := c.target :: c.iter :: c.conditions

def WithItem.exprs (item : WithItem) : List Expr := item.context :: item.target.toList

def Expr.parts : Expr → List Expr
  | list _ es | tuple _ es | set _ es => es
  | dict _ entries => entries.flatMap fun e => e.1.toList ++ [e.2]
  | comprehension _ _ element value clauses =>
    element :: (value.toList ++ clauses.flatMap (·.exprs))
  | member _ e _ _ | unary _ _ e | await _ e | starred _ e => [e]
  | subscript _ a b | binary _ _ a b => [a, b]
  | slice _ lower upper step => lower.toList ++ (upper.toList ++ step.toList)
  | call _ callee arguments => callee :: arguments.map (·.value)
  | conditional _ a b c => [a, b, c]
  | lambda _ parameters body => body :: parameters.flatMap (·.exprs)
  | yield _ value _ => value.toList
  | number _ _ _ | string _ _ | constant _ _ | name _ _ => []

/-- The expressions of a statement that are not in one of its blocks. -/
def Stmt.exprs : Stmt → List Expr
  | expression _ e => [e]
  | assign _ targets value => value :: targets
  | augment _ target _ value => [target, value]
  | declare _ target hint value => target :: hint :: value.toList
  | function d => d.decorators ++ (d.returns.toList ++ d.parameters.flatMap (·.exprs))
  | classDef d => d.bases ++ d.decorators
  | returns _ value => value.toList
  | branch _ condition _ _ | whileLoop _ condition _ _ => [condition]
  | forLoop _ target iter _ _ _ => [target, iter]
  | tryBlock _ _ handlers _ _ => handlers.flatMap (·.exception.toList)
  | withBlock _ items _ _ => items.flatMap (·.exprs)
  | raise _ exception cause => exception.toList ++ cause.toList
  | assert _ test message => test :: message.toList
  | delete _ targets => targets
  | print _ destination values _ => destination.toList ++ values
  | pass _ | breakLoop _ | continueLoop _ | globals _ _ | nonlocals _ _ | imports _ _
  | importFrom _ _ _ _ _ => []

/-- The statements in the blocks of a statement. -/
def Stmt.stmts : Stmt → List Stmt
  | function d => d.body
  | classDef d => d.body
  | branch _ _ yes no => yes ++ no
  | whileLoop _ _ body otherwise | forLoop _ _ _ body otherwise _ => body ++ otherwise
  | tryBlock _ body handlers otherwise final =>
    body ++ (handlers.flatMap (·.body) ++ (otherwise ++ final))
  | withBlock _ _ body _ => body
  | _ => []

inductive Phrase
  | expr (e : Expr)
  | stmt (s : Stmt)

def Definition.phrase : Definition → Phrase
  | function d => .stmt (.function d)
  | lambda node parameters body => .expr (.lambda node parameters body)

namespace Phrase

def parts : Phrase → List Phrase
  | expr e => e.parts.map expr
  | stmt s => s.exprs.map expr ++ s.stmts.map stmt

/-- The definition that a phrase is, if it is one. -/
def definition? : Phrase → Option Definition
  | stmt (.function d) => some (.function d)
  | expr (.lambda node parameters body) => some (.lambda node parameters body)
  | _ => none

theorem definition?_phrase {d : Definition} : d.phrase.definition? = some d := by
  cases d <;> rfl

end Phrase

/-! ### Parts are smaller -/

section

variable {α β : Type} [SizeOf α] [SizeOf β] {n : Nat}

theorem forall_mem_lt {xs : List α} (room : sizeOf xs ≤ n) : ∀ x ∈ xs, sizeOf x < n :=
  fun _ member => Nat.lt_of_lt_of_le (List.sizeOf_lt_of_mem member) room

theorem forall_mem_toList_lt {o : Option α} (room : sizeOf o ≤ n) : ∀ x ∈ o.toList, sizeOf x < n := by
  intro x member
  obtain rfl := Option.mem_toList.mp member
  exact Nat.lt_of_lt_of_le (by simp) room

theorem forall_mem_flatMap_lt {xs : List α} {f : α → List β}
    (each : ∀ x, ∀ y ∈ f x, sizeOf y < sizeOf x) (room : sizeOf xs ≤ n) :
    ∀ y ∈ xs.flatMap f, sizeOf y < n := by
  intro y member
  obtain ⟨x, inside, member⟩ := List.mem_flatMap.mp member
  exact Nat.lt_trans (each x y member) (forall_mem_lt room x inside)

end

open List (forall_mem_append forall_mem_cons forall_mem_nil forall_mem_singleton)

theorem Parameter.sizeOf_lt (p : Parameter Expr) : ∀ e ∈ p.exprs, sizeOf e < sizeOf p := by
  cases p
  exact forall_mem_append.mpr
    ⟨forall_mem_toList_lt (by simp +arith), forall_mem_toList_lt (by simp +arith)⟩

theorem Clause.sizeOf_lt (c : Clause Expr) : ∀ e ∈ c.exprs, sizeOf e < sizeOf c := by
  cases c
  refine forall_mem_cons.mpr ⟨by simp +arith, forall_mem_cons.mpr ⟨by simp +arith, ?_⟩⟩
  exact forall_mem_lt (by simp +arith)

theorem WithItem.sizeOf_lt (item : WithItem) : ∀ e ∈ item.exprs, sizeOf e < sizeOf item := by
  cases item
  exact forall_mem_cons.mpr ⟨by simp +arith, forall_mem_toList_lt (by simp +arith)⟩

theorem Handler.sizeOf_exception_lt (h : Handler Stmt) :
    ∀ e ∈ h.exception.toList, sizeOf e < sizeOf h := by
  cases h
  exact forall_mem_toList_lt (by simp +arith)

theorem Handler.sizeOf_body_lt (h : Handler Stmt) : ∀ s ∈ h.body, sizeOf s < sizeOf h := by
  cases h
  exact forall_mem_lt (by simp +arith)

theorem Argument.sizeOf_lt (a : Argument Expr) : sizeOf a.value < sizeOf a := by
  cases a <;> simp +arith [Argument.value]

theorem Expr.sizeOf_part_lt (e : Expr) : ∀ q ∈ e.parts, sizeOf q < sizeOf e := by
  cases e with
  | number | string | constant | name => exact forall_mem_nil _
  | list | tuple | set => exact forall_mem_lt (by simp +arith [parts])
  | dict n entries =>
    refine forall_mem_flatMap_lt (fun entry => ?_) (by simp +arith)
    cases entry
    exact forall_mem_append.mpr
      ⟨forall_mem_toList_lt (by simp +arith), forall_mem_singleton.mpr (by simp +arith)⟩
  | comprehension n kind element value clauses =>
    refine forall_mem_cons.mpr ⟨by simp +arith, forall_mem_append.mpr ⟨?_, ?_⟩⟩
    · exact forall_mem_toList_lt (by simp +arith)
    · exact forall_mem_flatMap_lt Clause.sizeOf_lt (by simp +arith)
  | member | unary | await | starred | subscript | binary | conditional => simp +arith [parts]
  | slice =>
    refine forall_mem_append.mpr ⟨?_, forall_mem_append.mpr ⟨?_, ?_⟩⟩ <;>
      exact forall_mem_toList_lt (by simp +arith)
  | call n callee arguments =>
    refine forall_mem_cons.mpr ⟨by simp +arith, List.forall_mem_map.mpr fun argument member => ?_⟩
    exact Nat.lt_trans argument.sizeOf_lt (forall_mem_lt (by simp +arith) argument member)
  | lambda n parameters body =>
    refine forall_mem_cons.mpr ⟨by simp +arith, ?_⟩
    exact forall_mem_flatMap_lt Parameter.sizeOf_lt (by simp +arith)
  | yield => exact forall_mem_toList_lt (by simp +arith)

theorem Stmt.sizeOf_expr_lt (s : Stmt) : ∀ e ∈ s.exprs, sizeOf e < sizeOf s := by
  cases s with
  | pass | breakLoop | continueLoop | globals | nonlocals | imports | importFrom =>
    exact forall_mem_nil _
  | expression | branch | whileLoop | augment | forLoop => simp +arith [exprs]
  | assign => exact forall_mem_cons.mpr ⟨by simp +arith, forall_mem_lt (by simp +arith)⟩
  | declare =>
    refine forall_mem_cons.mpr ⟨by simp +arith, forall_mem_cons.mpr ⟨by simp +arith, ?_⟩⟩
    exact forall_mem_toList_lt (by simp +arith)
  | function d =>
    cases d
    refine forall_mem_append.mpr ⟨?_, forall_mem_append.mpr ⟨?_, ?_⟩⟩
    · exact forall_mem_lt (by simp +arith)
    · exact forall_mem_toList_lt (by simp +arith)
    · exact forall_mem_flatMap_lt Parameter.sizeOf_lt (by simp +arith)
  | classDef d =>
    cases d
    exact forall_mem_append.mpr ⟨forall_mem_lt (by simp +arith), forall_mem_lt (by simp +arith)⟩
  | returns => exact forall_mem_toList_lt (by simp +arith)
  | tryBlock => exact forall_mem_flatMap_lt Handler.sizeOf_exception_lt (by simp +arith)
  | withBlock => exact forall_mem_flatMap_lt WithItem.sizeOf_lt (by simp +arith)
  | raise =>
    exact forall_mem_append.mpr
      ⟨forall_mem_toList_lt (by simp +arith), forall_mem_toList_lt (by simp +arith)⟩
  | assert => exact forall_mem_cons.mpr ⟨by simp +arith, forall_mem_toList_lt (by simp +arith)⟩
  | delete => exact forall_mem_lt (by simp +arith [exprs])
  | print =>
    exact forall_mem_append.mpr ⟨forall_mem_toList_lt (by simp +arith), forall_mem_lt (by simp +arith)⟩

theorem Stmt.sizeOf_stmt_lt (s : Stmt) : ∀ t ∈ s.stmts, sizeOf t < sizeOf s := by
  cases s with
  | function d | classDef d =>
    cases d
    exact forall_mem_lt (by simp +arith [stmts])
  | branch | whileLoop | forLoop =>
    exact forall_mem_append.mpr ⟨forall_mem_lt (by simp +arith), forall_mem_lt (by simp +arith)⟩
  | tryBlock =>
    refine forall_mem_append.mpr ⟨?_, forall_mem_append.mpr ⟨?_, forall_mem_append.mpr ⟨?_, ?_⟩⟩⟩
    · exact forall_mem_lt (by simp +arith)
    · exact forall_mem_flatMap_lt Handler.sizeOf_body_lt (by simp +arith)
    · exact forall_mem_lt (by simp +arith)
    · exact forall_mem_lt (by simp +arith)
  | withBlock => exact forall_mem_lt (by simp +arith [stmts])
  | expression | assign | augment | declare | returns | raise | assert | delete | pass | breakLoop
  | continueLoop | globals | nonlocals | imports | importFrom | print => exact forall_mem_nil _

namespace Phrase

variable {p q r : Phrase}

theorem sizeOf_lt_of_mem_parts (part : q ∈ p.parts) : sizeOf q < sizeOf p := by
  cases p with
  | expr e =>
    obtain ⟨e', member, rfl⟩ := List.mem_map.mp part
    simpa using e.sizeOf_part_lt e' member
  | stmt s =>
    rcases List.mem_append.mp part with part | part
    · obtain ⟨e, member, rfl⟩ := List.mem_map.mp part
      simpa using s.sizeOf_expr_lt e member
    · obtain ⟨t, member, rfl⟩ := List.mem_map.mp part
      simpa using s.sizeOf_stmt_lt t member

/-- A phrase and everything inside of it. -/
def all (p : Phrase) : List Phrase := p :: p.parts.attach.flatMap fun ⟨q, _⟩ => q.all
termination_by sizeOf p
decreasing_by exact sizeOf_lt_of_mem_parts ‹_›

theorem mem_all_iff : q ∈ p.all ↔ q = p ∨ ∃ r ∈ p.parts, q ∈ r.all := by
  rw [all, List.mem_cons, List.mem_flatMap]
  simp

theorem mem_all_self (p : Phrase) : p ∈ p.all := mem_all_iff.mpr (.inl rfl)

theorem mem_all_of_mem_parts (inside : q ∈ p.all) (part : r ∈ q.parts) : r ∈ p.all := by
  induction p using all.induct with
  | case1 p ih =>
    rcases mem_all_iff.mp inside with rfl | ⟨p', first, inside⟩
    · exact mem_all_iff.mpr (.inr ⟨r, part, r.mem_all_self⟩)
    · exact mem_all_iff.mpr (.inr ⟨p', first, ih p' first inside⟩)

end Phrase

/-- All definitions in a module, of functions and of lambdas. -/
def Module.definitions (m : Module) : List Definition :=
  (m.body.flatMap fun s => (Phrase.stmt s).all).filterMap (·.definition?)

/-- Phrases together with all that is inside of them. -/
structure Realm where
  has : Phrase → Prop
  closed : ∀ p q, has p → q ∈ p.parts → has q

namespace Realm

/-- The realm of all phrases. -/
def full : Realm := ⟨fun _ => True, fun _ _ _ _ => trivial⟩

/-- The realm without phrases. -/
def empty : Realm := ⟨fun _ => False, fun _ _ => False.elim⟩

variable {D : Realm}

theorem expr (has : D.has (.expr e)) (part : q ∈ e.parts) : D.has (.expr q) :=
  D.closed _ _ has (List.mem_map_of_mem part)

theorem exprs (has : D.has (.stmt s)) (part : e ∈ s.exprs) : D.has (.expr e) :=
  D.closed _ _ has (List.mem_append_left _ (List.mem_map_of_mem part))

theorem stmts (has : D.has (.stmt s)) (part : t ∈ s.stmts) : D.has (.stmt t) :=
  D.closed _ _ has (List.mem_append_right _ (List.mem_map_of_mem part))

end Realm
end FlowTypes
