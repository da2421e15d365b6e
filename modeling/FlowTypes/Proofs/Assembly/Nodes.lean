import FlowTypes.Proofs.Watch.Parts

/-! The nodes of syntax trees. Besides expressions and statements, parameters, handlers and the names
of imports have nodes of their own. -/
namespace FlowTypes

inductive TreeNode
  | expr (e : Expr)
  | stmt (s : Stmt)
  | parameter (p : Parameter Expr)
  | handler (h : Handler Stmt)
  | imported (a : Alias)

/-- The nodes directly inside of an expression, in the order of the source. -/
def Expr.inside : Expr → List TreeNode
  | conditional _ condition body orelse => [.expr body, .expr condition, .expr orelse]
  | lambda _ parameters body => parameters.map .parameter ++ [.expr body]
  | e => e.parts.map .expr

/-- The nodes directly inside of a statement, in the order of the source. -/
def Stmt.inside : Stmt → List TreeNode
  | assign _ targets value => targets.map .expr ++ [.expr value]
  | function d => d.decorators.map .expr ++ (d.parameters.map .parameter ++
      (d.returns.toList.map .expr ++ d.body.map .stmt))
  | classDef d => d.decorators.map .expr ++ (d.bases.map .expr ++ d.body.map .stmt)
  | tryBlock _ body handlers otherwise final => body.map .stmt ++ (handlers.map .handler ++
      (otherwise.map .stmt ++ final.map .stmt))
  | imports _ names | importFrom _ _ _ names _ => names.map .imported
  | s => s.exprs.map .expr ++ s.stmts.map .stmt

namespace TreeNode

def node : TreeNode → Node
  | expr e => e.node
  | stmt s => s.node
  | parameter p => p.node
  | handler h => h.node
  | imported a => a.node

def parts : TreeNode → List TreeNode
  | expr e => e.inside
  | stmt s => s.inside
  | parameter p => p.exprs.map .expr
  | handler h => h.exception.toList.map .expr ++ h.body.map .stmt
  | imported _ => []

end TreeNode

/-- What the reader of a statement makes sure of: there is something to assign to, and what is tried is
followed by something that deals with failure. -/
def Stmt.Checked : Stmt → Prop
  | assign _ targets _ => ∀ target ∈ targets, target.isAssignable = true
  | augment _ target _ _ => target.isPlace = true
  | declare _ target _ _ => target.isAssignable = true
  | forLoop _ target _ _ _ _ => target.isAssignable = true
  | withBlock _ items _ _ => ∀ item ∈ items, ∀ target ∈ item.target, target.isAssignable = true
  | tryBlock _ _ handlers _ final => handlers ≠ [] ∨ final ≠ []
  | _ => True

instance : DecidablePred Stmt.Checked
  | .assign _ targets _ =>
    inferInstanceAs (Decidable (∀ target ∈ targets, target.isAssignable = true))
  | .augment _ target _ _ => inferInstanceAs (Decidable (target.isPlace = true))
  | .declare _ target _ _ | .forLoop _ target _ _ _ _ =>
    inferInstanceAs (Decidable (target.isAssignable = true))
  | .withBlock _ items _ _ => inferInstanceAs
    (Decidable (∀ item ∈ items, ∀ target ∈ item.target, target.isAssignable = true))
  | .tryBlock _ _ handlers _ final => inferInstanceAs (Decidable (handlers ≠ [] ∨ final ≠ []))
  | .expression _ _ | .function _ | .classDef _ | .returns _ _ | .branch _ _ _ _
  | .whileLoop _ _ _ _ | .raise _ _ _ | .assert _ _ _ | .delete _ _ | .pass _ | .breakLoop _
  | .continueLoop _ | .globals _ _ | .nonlocals _ _ | .imports _ _ | .importFrom _ _ _ _ _
  | .print _ _ _ _ => .isTrue trivial

/-- What holds of a node that was read whatever is around it. -/
def TreeNode.Regular : TreeNode → Prop
  /- Only a dict has values besides its keys. -/
  | expr (.comprehension _ kind _ value _) => value.isSome = true → kind = .dict
  | stmt s => s.Checked
  | _ => True

/-! ### Everything inside of a node -/

/-- The nodes directly inside of an expression that are no expressions. -/
def Expr.others : Expr → List TreeNode
  | lambda _ parameters _ => parameters.map .parameter
  | _ => []

/-- The nodes directly inside of a statement that are neither expressions nor statements. -/
def Stmt.others : Stmt → List TreeNode
  | function d => d.parameters.map .parameter
  | tryBlock _ _ handlers _ _ => handlers.map .handler
  | imports _ names | importFrom _ _ _ names _ => names.map .imported
  | _ => []

theorem Expr.mem_inside {e : Expr} (part : u ∈ e.inside) :
    (∃ q ∈ e.parts, u = .expr q) ∨ u ∈ e.others := by
  cases e with
  | conditional n condition body orelse =>
    simp only [inside, List.mem_cons, List.not_mem_nil, or_false] at part
    rcases part with rfl | rfl | rfl
    · exact .inl ⟨body, by simp [parts], rfl⟩
    · exact .inl ⟨condition, by simp [parts], rfl⟩
    · exact .inl ⟨orelse, by simp [parts], rfl⟩
  | lambda n parameters body =>
    rcases List.mem_append.mp part with part | part
    · exact .inr part
    · obtain rfl := List.mem_singleton.mp part
      exact .inl ⟨body, by simp [parts], rfl⟩
  | _ =>
    obtain ⟨q, member, rfl⟩ := List.mem_map.mp part
    exact .inl ⟨q, member, rfl⟩

theorem Stmt.mem_inside {s : Stmt} (part : u ∈ s.inside) :
    (∃ e ∈ s.exprs, u = .expr e) ∨ (∃ r ∈ s.stmts, u = .stmt r) ∨ u ∈ s.others := by
  cases s with
  | assign n targets value =>
    simp only [inside, List.mem_append, List.mem_map, List.mem_singleton] at part
    rcases part with ⟨e, member, rfl⟩ | rfl
    · exact .inl ⟨e, by simp [exprs, member], rfl⟩
    · exact .inl ⟨value, by simp [exprs], rfl⟩
  | function d =>
    simp only [inside, List.mem_append, List.mem_map] at part
    rcases part with ⟨e, member, rfl⟩ | ⟨p, member, rfl⟩ | ⟨e, member, rfl⟩ | ⟨r, member, rfl⟩
    · exact .inl ⟨e, by simp [exprs, member], rfl⟩
    · exact .inr (.inr (List.mem_map_of_mem member))
    · exact .inl ⟨e, by simp [exprs, Option.mem_toList.mp member], rfl⟩
    · exact .inr (.inl ⟨r, member, rfl⟩)
  | classDef d =>
    simp only [inside, List.mem_append, List.mem_map] at part
    rcases part with ⟨e, member, rfl⟩ | ⟨e, member, rfl⟩ | ⟨r, member, rfl⟩
    · exact .inl ⟨e, by simp [exprs, member], rfl⟩
    · exact .inl ⟨e, by simp [exprs, member], rfl⟩
    · exact .inr (.inl ⟨r, member, rfl⟩)
  | tryBlock n body handlers otherwise final =>
    simp only [inside, List.mem_append, List.mem_map] at part
    rcases part with ⟨r, member, rfl⟩ | ⟨h, member, rfl⟩ | ⟨r, member, rfl⟩ | ⟨r, member, rfl⟩
    · exact .inr (.inl ⟨r, by simp [stmts, member], rfl⟩)
    · exact .inr (.inr (List.mem_map_of_mem member))
    · exact .inr (.inl ⟨r, by simp [stmts, member], rfl⟩)
    · exact .inr (.inl ⟨r, by simp [stmts, member], rfl⟩)
  | imports | importFrom => exact .inr (.inr part)
  | _ =>
    rcases List.mem_append.mp part with part | part
    · obtain ⟨e, member, rfl⟩ := List.mem_map.mp part
      exact .inl ⟨e, member, rfl⟩
    · obtain ⟨r, member, rfl⟩ := List.mem_map.mp part
      exact .inr (.inl ⟨r, member, rfl⟩)

theorem Expr.sizeOf_other_lt {e : Expr} (other : u ∈ e.others) :
    ∃ p : Parameter Expr, u = .parameter p ∧ sizeOf p < sizeOf e := by
  cases e with
  | lambda n parameters body =>
    obtain ⟨p, member, rfl⟩ := List.mem_map.mp other
    exact ⟨p, rfl, forall_mem_lt (by simp +arith) p member⟩
  | _ => cases other

namespace TreeNode

variable {t u v : TreeNode}

theorem sizeOf_lt_of_mem_others (other : u ∈ s.others) : sizeOf u < sizeOf (TreeNode.stmt s) := by
  cases s with
  | function d =>
    obtain ⟨p, member, rfl⟩ := List.mem_map.mp other
    cases d
    have smaller := List.sizeOf_lt_of_mem member
    simp +arith at smaller ⊢
    omega
  | tryBlock n body handlers otherwise final =>
    obtain ⟨h, member, rfl⟩ := List.mem_map.mp other
    have smaller := List.sizeOf_lt_of_mem member
    simp +arith
    omega
  | imports n names | importFrom n source level names isStar =>
    obtain ⟨a, member, rfl⟩ := List.mem_map.mp other
    have smaller := List.sizeOf_lt_of_mem member
    simp +arith
    omega
  | _ => cases other

theorem sizeOf_lt_of_mem_parts (part : u ∈ t.parts) : sizeOf u < sizeOf t := by
  cases t with
  | expr e =>
    rcases Expr.mem_inside part with ⟨q, member, rfl⟩ | other
    · simpa using e.sizeOf_part_lt q member
    · obtain ⟨p, rfl, smaller⟩ := Expr.sizeOf_other_lt other
      simpa using smaller
  | stmt s =>
    rcases Stmt.mem_inside part with ⟨e, member, rfl⟩ | ⟨r, member, rfl⟩ | other
    · simpa using s.sizeOf_expr_lt e member
    · simpa using s.sizeOf_stmt_lt r member
    · exact sizeOf_lt_of_mem_others other
  | parameter p =>
    obtain ⟨e, member, rfl⟩ := List.mem_map.mp part
    simpa using p.sizeOf_lt e member
  | handler h =>
    rcases List.mem_append.mp part with part | part
    · obtain ⟨e, member, rfl⟩ := List.mem_map.mp part
      simpa using h.sizeOf_exception_lt e member
    · obtain ⟨r, member, rfl⟩ := List.mem_map.mp part
      simpa using h.sizeOf_body_lt r member
  | imported a => cases part

/-- A node and everything inside of it. -/
def all (t : TreeNode) : List TreeNode := t :: t.parts.attach.flatMap fun ⟨u, _⟩ => u.all
termination_by sizeOf t
decreasing_by exact sizeOf_lt_of_mem_parts ‹_›

theorem all_eq (t : TreeNode) : t.all = t :: t.parts.flatMap all := by
  rw [all]
  simp [List.flatMap_subtype]

theorem mem_all_self : t ∈ t.all := by
  rw [all_eq]
  exact List.mem_cons_self

theorem mem_all_of_mem_parts (part : u ∈ t.parts) (inside : v ∈ u.all) : v ∈ t.all := by
  rw [all_eq]
  exact List.mem_cons_of_mem t (List.mem_flatMap.mpr ⟨u, part, inside⟩)

end TreeNode

/-! ### Phrases -/

namespace Phrase

def treeNode : Phrase → TreeNode
  | expr e => .expr e
  | stmt s => .stmt s

end Phrase

def Module.nodes (m : Module) : List TreeNode := m.body.flatMap fun s => (TreeNode.stmt s).all

/-- The identities of all nodes of a module. -/
def Module.ids (m : Module) : List NodeId := m.node.id :: m.nodes.map (·.node.id)

/-! ### Nodes of a file -/

namespace TreeNode

variable {t u v : TreeNode}

/-- What holds of a node and is handed down to the parts holds of all that is inside. -/
theorem all_induction {P : TreeNode → Prop} (t : TreeNode) (own : P t)
    (step : ∀ u ∈ t.all, P u → ∀ v ∈ u.parts, P v) : ∀ u ∈ t.all, P u := by
  intro u inside
  rw [all_eq] at inside
  rcases List.mem_cons.mp inside with rfl | inside
  · exact own
  · obtain ⟨part, member, inside⟩ := List.mem_flatMap.mp inside
    apply all_induction part (step t mem_all_self own part member)
    · intro w within
      exact step w (mem_all_of_mem_parts member within)
    · exact inside
termination_by sizeOf t
decreasing_by exact sizeOf_lt_of_mem_parts member

theorem mem_all_trans (inside : u ∈ t.all) : ∀ v ∈ u.all, v ∈ t.all := by
  apply all_induction (P := fun u => ∀ v ∈ u.all, v ∈ t.all) t
  · exact fun _ inside => inside
  · intro u _ known v part w inside
    exact known w (mem_all_of_mem_parts part inside)
  · exact inside

theorem mem_all_of_part (part : u ∈ t.parts) : u ∈ t.all := mem_all_of_mem_parts part mem_all_self

theorem mem_all_of_part_part (part : u ∈ t.parts) (inner : v ∈ u.parts) : v ∈ t.all :=
  mem_all_of_mem_parts part (mem_all_of_part inner)

end TreeNode

theorem Expr.mem_all_of_mem_parts (part : q ∈ e.parts) :
    TreeNode.expr q ∈ (TreeNode.expr e).all := by
  cases e with
  | conditional n condition body otherwise =>
    apply TreeNode.mem_all_of_part
    simp only [parts, List.mem_cons, List.not_mem_nil, or_false] at part
    rcases part with rfl | rfl | rfl <;> simp [TreeNode.parts, inside]
  | lambda n parameters body =>
    rcases List.mem_cons.mp part with rfl | part
    · apply TreeNode.mem_all_of_part
      exact List.mem_append_right _ List.mem_cons_self
    · obtain ⟨p, member, part⟩ := List.mem_flatMap.mp part
      apply TreeNode.mem_all_of_part_part (u := .parameter p)
      · exact List.mem_append_left _ (List.mem_map_of_mem member)
      · exact List.mem_map_of_mem part
  | _ => exact TreeNode.mem_all_of_part (List.mem_map_of_mem part)

theorem Stmt.mem_all_of_mem_exprs (part : e ∈ t.exprs) :
    TreeNode.expr e ∈ (TreeNode.stmt t).all := by
  cases t with
  | assign n targets value =>
    apply TreeNode.mem_all_of_part
    rcases List.mem_cons.mp part with rfl | part <;> simp_all [TreeNode.parts, inside]
  | function d =>
    simp only [exprs, List.mem_append] at part
    rcases part with part | part | part
    · apply TreeNode.mem_all_of_part
      simp [TreeNode.parts, inside, part]
    · apply TreeNode.mem_all_of_part
      simp [TreeNode.parts, inside, Option.mem_toList.mp part]
    · obtain ⟨p, member, part⟩ := List.mem_flatMap.mp part
      apply TreeNode.mem_all_of_part_part (u := .parameter p)
      · simp [TreeNode.parts, inside, member]
      · exact List.mem_map_of_mem part
  | classDef d =>
    apply TreeNode.mem_all_of_part
    rcases List.mem_append.mp part with part | part <;> simp [TreeNode.parts, inside, part]
  | tryBlock n body handlers otherwise final =>
    obtain ⟨h, member, part⟩ := List.mem_flatMap.mp part
    apply TreeNode.mem_all_of_part_part (u := .handler h)
    · simp [TreeNode.parts, inside, member]
    · exact List.mem_append_left _ (List.mem_map_of_mem part)
  | imports | importFrom => cases part
  | _ => exact TreeNode.mem_all_of_part (List.mem_append_left _ (List.mem_map_of_mem part))

theorem Stmt.mem_all_of_mem_stmts (part : u ∈ t.stmts) :
    TreeNode.stmt u ∈ (TreeNode.stmt t).all := by
  cases t with
  | function | classDef =>
    apply TreeNode.mem_all_of_part
    simp only [stmts] at part
    simp [TreeNode.parts, inside, part]
  | tryBlock n body handlers otherwise final =>
    simp only [stmts, List.mem_append] at part
    rcases part with part | part | part | part
    · apply TreeNode.mem_all_of_part
      simp [TreeNode.parts, inside, part]
    · obtain ⟨h, member, part⟩ := List.mem_flatMap.mp part
      apply TreeNode.mem_all_of_part_part (u := .handler h)
      · simp [TreeNode.parts, inside, member]
      · exact List.mem_append_right _ (List.mem_map_of_mem part)
    · apply TreeNode.mem_all_of_part
      simp [TreeNode.parts, inside, part]
    · apply TreeNode.mem_all_of_part
      simp [TreeNode.parts, inside, part]
  | branch | whileLoop | forLoop | withBlock =>
    exact TreeNode.mem_all_of_part (List.mem_append_right _ (List.mem_map_of_mem part))
  | _ => cases part

theorem Phrase.treeNode_mem_all {p : Phrase} (inside : q ∈ p.all) :
    q.treeNode ∈ p.treeNode.all := by
  rcases Phrase.mem_all_iff.mp inside with rfl | ⟨r, part, inside⟩
  · exact TreeNode.mem_all_self
  · apply TreeNode.mem_all_trans _ _ (Phrase.treeNode_mem_all inside)
    cases p with
    | expr e =>
      obtain ⟨q, member, rfl⟩ := List.mem_map.mp part
      exact Expr.mem_all_of_mem_parts member
    | stmt t =>
      rcases List.mem_append.mp part with part | part
      · obtain ⟨e, member, rfl⟩ := List.mem_map.mp part
        exact Stmt.mem_all_of_mem_exprs member
      · obtain ⟨u, member, rfl⟩ := List.mem_map.mp part
        exact Stmt.mem_all_of_mem_stmts member
termination_by sizeOf p
decreasing_by exact sizeOf_lt_of_mem_parts part

namespace Module

variable {m : Module} {t u : TreeNode}

theorem nodes_induction {P : TreeNode → Prop} (body : ∀ t ∈ m.body, P (.stmt t))
    (step : ∀ t ∈ m.nodes, P t → ∀ u ∈ t.parts, P u) : ∀ t ∈ m.nodes, P t := by
  intro t inside
  obtain ⟨top, member, inside⟩ := List.mem_flatMap.mp inside
  apply TreeNode.all_induction _ (body top member) _ _ inside
  intro u within
  exact step u (List.mem_flatMap.mpr ⟨top, member, within⟩)

theorem mem_nodes_of_mem_all (inside : t ∈ m.nodes) (within : u ∈ t.all) : u ∈ m.nodes := by
  obtain ⟨top, member, inside⟩ := List.mem_flatMap.mp inside
  exact List.mem_flatMap.mpr ⟨top, member, TreeNode.mem_all_trans inside u within⟩

theorem mem_nodes_of_mem_body {t : Stmt} (member : t ∈ m.body) : .stmt t ∈ m.nodes :=
  List.mem_flatMap.mpr ⟨t, member, TreeNode.mem_all_self⟩

theorem mem_nodes_of_mem_exprs {t : Stmt} (inside : .stmt t ∈ m.nodes) (part : e ∈ t.exprs) :
    .expr e ∈ m.nodes :=
  mem_nodes_of_mem_all inside (Stmt.mem_all_of_mem_exprs part)

theorem mem_nodes_of_mem_parts (inside : .expr e ∈ m.nodes) (part : q ∈ e.parts) :
    .expr q ∈ m.nodes :=
  mem_nodes_of_mem_all inside (Expr.mem_all_of_mem_parts part)

end Module

theorem Definition.node_phrase (d : Definition) : d.phrase.treeNode.node = d.node := by
  cases d <;> rfl

end FlowTypes
