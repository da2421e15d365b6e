import FlowTypes.Grammar.Compound
import FlowTypes.Proofs.Places.Expressions

/-! Whether a text is a module depends on the text alone: not on the name of its file, and not on the
identities that its nodes would get. -/
namespace FlowTypes.Grammar

open FlowTypes.Parser Parallel

theorem parallel_terminator : Parallel Free terminator terminator := by
  refine .bindEq parallel_kind fun _ => ?_
  split
  · refine parallel_advance.bind fun _ _ _ => ?_
    exact .bindEq parallel_accept fun _ => .pure trivial
  · exact parallel_advance.bind fun _ _ _ => .pure trivial
  · exact .pure trivial
  · exact .pure trivial
  · exact parallel_failBecause

theorem parallel_made {α : Type} {make make' : Node → α} :
    Parallel Free (do return make (← nodeFrom start)) (do return make' (← nodeFrom start')) :=
  parallel_make fun _ _ => trivial

theorem parallel_endedStmt {make make' : Node → Stmt} :
    Parallel Free (do terminator; return make (← nodeFrom start))
      (do terminator; return make' (← nodeFrom start')) :=
  parallel_terminator.bind fun _ _ _ => parallel_made

theorem parallel_checkTarget (alike : target.Alike target') :
    Parallel Free (checkTarget target) (checkTarget target') := by
  unfold checkTarget
  rw [alike.assignable]
  split
  · exact .pure trivial
  · exact .fails (fun _ => ⟨_, rfl⟩) fun _ => ⟨_, rfl⟩

theorem parallel_checkTargets (alike : List.Forall₂ Expr.Alike targets targets') :
    Parallel Free (targets.forM checkTarget) (targets'.forM checkTarget) := by
  induction alike with
  | nil => exact .pure trivial
  | cons first _ ih => exact (parallel_checkTarget first).bind fun _ _ _ => ih

theorem parallel_assigned : Parallel Expr.Alike assigned assigned := by
  refine .bindEq parallel_atKind fun _ => ?_
  split
  · exact parallel_yields parallel_expr
  · exact parallel_elements parallel_expr

theorem parallel_assignment (alike : first.Alike first') :
    Parallel Free (assignment start first) (assignment start' first') := by
  refine (parallel_collectWhile (fun _ _ alike => by rw [alike.kind])
    (parallel_advance.bind fun _ _ _ => parallel_assigned)).bind fun others others' alikes => ?_
  have targets : List.Forall₂ Expr.Alike (first :: others).dropLast (first' :: others').dropLast := by
    have all : List.Forall₂ Expr.Alike (first :: others) (first' :: others') := .cons alike alikes
    rw [List.dropLast_eq_take, List.dropLast_eq_take, all.length_eq]
    exact List.forall₂_take _ all
  refine (parallel_checkTargets targets).bind fun _ _ _ => ?_
  exact parallel_made

theorem parallel_augmented (alike : target.Alike target') :
    Parallel Free (augmented start target operator) (augmented start' target' operator) := by
  unfold augmented
  rw [alike.place]
  split
  · refine parallel_advance.bind fun _ _ _ => ?_
    refine parallel_assigned.bind fun _ _ _ => ?_
    exact parallel_made
  · exact .fails (fun _ => ⟨_, rfl⟩) fun _ => ⟨_, rfl⟩

theorem parallel_declaration (alike : target.Alike target') :
    Parallel Free (declaration start target) (declaration start' target') := by
  refine (parallel_checkTarget alike).bind fun _ _ _ => ?_
  refine parallel_advance.bind fun _ _ _ => ?_
  refine (parallel_expr .lowest).bind fun _ _ _ => ?_
  refine .bindEq parallel_accept fun _ => ?_
  refine .choose (R := Free) (parallel_assigned.map fun _ _ _ => trivial) (.pure trivial)
    fun _ _ _ => ?_
  exact parallel_made

theorem parallel_expressionStmt : Parallel Free expressionStmt expressionStmt := by
  refine .look fun c d _ => ?_
  refine parallel_assigned.bind fun _ _ alike => ?_
  refine .bindEq parallel_kind fun _ => ?_
  have ending : ∀ stmt stmt' : Stmt, Parallel Free (do terminator; return stmt)
      (do terminator; return stmt') := fun _ _ =>
    parallel_terminator.bind fun _ _ _ => .pure trivial
  dsimp only
  split
  · exact (parallel_assignment alike).bind fun _ _ _ => ending _ _
  · split
    · exact (parallel_augmented alike).bind fun _ _ _ => ending _ _
    · split
      · exact (parallel_declaration alike).bind fun _ _ _ => ending _ _
      · exact parallel_nodeAt.bind fun _ _ _ => ending _ _

theorem parallel_returnStmt : Parallel Free returnStmt returnStmt := by
  refine parallel_advance.bind fun _ _ _ => ?_
  refine .look fun c d alike => ?_
  rw [alike.kind]
  refine .choose (R := Free) ((parallel_elements parallel_expr).map fun _ _ _ => trivial)
    (.pure trivial) fun _ _ _ => ?_
  exact parallel_endedStmt

theorem parallel_wordStmt : Parallel Free (wordStmt make) (wordStmt make) := by
  refine parallel_advance.bind fun _ _ _ => ?_
  refine parallel_terminator.bind fun _ _ _ => ?_
  exact parallel_nodeAt.bind fun _ _ _ => .pure trivial

theorem parallel_raiseCause : Parallel Free raiseCause raiseCause := by
  refine .bindEq parallel_accept fun _ => ?_
  split
  · exact (parallel_expr _).map fun _ _ _ => trivial
  · refine .bindEq parallel_accept fun _ => ?_
    split
    · exact (parallel_elements parallel_expr).map fun _ _ _ => trivial
    · exact .pure trivial

theorem parallel_raiseStmt : Parallel Free raiseStmt raiseStmt := by
  refine parallel_advance.bind fun _ _ _ => ?_
  refine .look fun c d alike => ?_
  rw [alike.kind]
  dsimp only
  split
  · refine (parallel_expr _).bind fun _ _ _ => ?_
    refine parallel_raiseCause.bind fun _ _ _ => ?_
    exact parallel_endedStmt
  · exact parallel_endedStmt

theorem parallel_assertStmt : Parallel Free assertStmt assertStmt := by
  refine parallel_advance.bind fun _ _ _ => ?_
  refine (parallel_expr _).bind fun _ _ _ => ?_
  refine (parallel_behind parallel_expr).bind fun _ _ _ => ?_
  exact parallel_endedStmt

theorem parallel_deleteStmt : Parallel Free deleteStmt deleteStmt := by
  refine parallel_advance.bind fun _ _ _ => ?_
  refine (parallel_elements parallel_expr).bind fun _ _ _ => ?_
  exact parallel_endedStmt

theorem parallel_identifier : Parallel Free identifier identifier :=
  parallel_expect.bind fun _ _ _ => .pure trivial

theorem parallel_namesStmt : Parallel Free (namesStmt make) (namesStmt make) := by
  have names : Parallel Free nameList nameList := by
    refine parallel_identifier.bind fun _ _ _ => ?_
    exact (parallel_afterCommas (fun _ _ _ => rfl) parallel_identifier).bind fun _ _ _ => .pure trivial
  refine parallel_advance.bind fun _ _ _ => ?_
  refine names.bind fun names names' _ => ?_
  exact parallel_endedStmt

theorem parallel_modulePart : Parallel Free (modulePart message) (modulePart message) := by
  refine .look fun c d alike => ?_
  rw [alike.isNameLike]
  split
  · exact parallel_advance.bind fun _ _ _ => .pure trivial
  · exact parallel_failBecause

theorem parallel_dottedName : Parallel Free dottedName dottedName := by
  refine parallel_modulePart.bind fun _ _ _ => ?_
  refine (parallel_collectWhile (fun _ _ alike => by rw [alike.kind])
    (parallel_advance.bind fun _ _ _ => parallel_modulePart)).bind fun _ _ _ => ?_
  exact .pure trivial

theorem parallel_aliasOf {name : Parser String} (names : Parallel Free name name) :
    Parallel Free (aliasOf name) (aliasOf name) := by
  refine .look fun c d _ => ?_
  refine names.bind fun name name' _ => ?_
  refine .bindEq parallel_accept fun _ => ?_
  refine .choose (R := Free) (parallel_identifier.map fun _ _ _ => trivial) (.pure trivial)
    fun _ _ _ => ?_
  exact parallel_made

theorem parallel_importStmt : Parallel Free importStmt importStmt := by
  have aliases := parallel_aliasOf parallel_dottedName
  refine parallel_advance.bind fun _ _ _ => ?_
  refine aliases.bind fun _ _ _ => ?_
  refine (parallel_afterCommas (fun _ _ _ => rfl) aliases).bind fun _ _ _ => ?_
  exact parallel_endedStmt

theorem parallel_importLevel : Parallel Free importLevel importLevel := by
  refine (parallel_collectWhile (R := Free) (fun _ _ alike => by rw [alike.kind])
    (parallel_advance.bind fun _ _ _ => .pure trivial)).bind fun _ _ _ => ?_
  exact .pure trivial

theorem parallel_importedNames : Parallel Free importedNames importedNames := by
  have aliases := parallel_aliasOf parallel_identifier
  refine .bindEq parallel_accept fun _ => ?_
  split
  · exact .pure trivial
  · refine .bindEq parallel_accept fun _ => ?_
    split
    · refine (parallel_upTo aliases).bind fun _ _ _ => ?_
      exact parallel_expect.bind fun _ _ _ => .pure trivial
    · refine aliases.bind fun _ _ _ => ?_
      exact (parallel_afterCommas (fun _ _ _ => rfl) aliases).bind fun _ _ _ => .pure trivial

theorem parallel_importFromStmt : Parallel Free importFromStmt importFromStmt := by
  refine parallel_advance.bind fun _ _ _ => ?_
  refine parallel_importLevel.bind fun _ _ _ => ?_
  refine .bindEq parallel_atKind fun _ => ?_
  refine .choose (R := Free) (.pure trivial) parallel_dottedName fun _ _ _ => ?_
  refine parallel_expectBecause.bind fun _ _ _ => ?_
  refine parallel_importedNames.bind fun _ _ _ => ?_
  exact parallel_endedStmt

theorem parallel_printedValues : Parallel Free printedValues printedValues := by
  refine parallel_repeated (S := Free) (fun _ _ _ => ?_) trivial
  refine .look fun c d alike => ?_
  rw [alike.kind]
  split
  · exact .pure (.done trivial)
  · refine (parallel_expr _).bind fun _ _ _ => ?_
    refine .bindEq parallel_accept fun _ => ?_
    split
    · exact .pure (.again trivial)
    · exact .pure (.done trivial)

theorem parallel_printStmt : Parallel Free printStmt printStmt := by
  refine .look fun c d alike => ?_
  rw [alike.peek]
  dsimp only
  split
  · exact parallel_expressionStmt
  · refine parallel_advance.bind fun _ _ _ => ?_
    refine .bindEq parallel_accept fun _ => ?_
    split
    · refine (parallel_expr _).bind fun _ _ _ => ?_
      refine .bindEq parallel_accept fun _ => .given ?_
      exact parallel_printedValues.bind fun _ _ _ => parallel_endedStmt
    · exact .given (parallel_printedValues.bind fun _ _ _ => parallel_endedStmt)

section

variable {sub : Nested} (stmts : Parallel Free sub.stmt sub.stmt)
  (branches : Parallel Free sub.branch sub.branch)

include stmts

theorem parallel_statementsUntil (settled : ∀ c d, c.Alike d → ends d = ends c) :
    Parallel (List.Forall₂ Free) (statementsUntil sub ends) (statementsUntil sub ends) := by
  refine parallel_repeated (S := RelatedItems Free) (fun _ _ related => ?_) .nil
  refine .look fun c d alike => ?_
  rw [settled c d alike]
  split
  · exact .pure (.done related)
  · refine .bindEq parallel_accept fun _ => ?_
    split
    · exact .pure (.again related)
    · exact stmts.bind fun _ _ _ => .pure (.again (related.push trivial))

theorem parallel_block : Parallel (List.Forall₂ Free) (block sub) (block sub) := by
  refine parallel_expectBecause.bind fun _ _ _ => ?_
  refine .bindEq parallel_accept fun _ => ?_
  split
  · refine parallel_expectBecause.bind fun _ _ _ => ?_
    refine (parallel_statementsUntil stmts fun _ _ alike => by rw [alike.kind]).bind
      fun _ _ related => ?_
    exact .bindEq parallel_accept fun _ => .pure related
  · refine stmts.bind fun _ _ _ => ?_
    refine (parallel_collectWhile (fun c d alike => ?_) stmts).bind fun _ _ related => ?_
    · rw [alike.kind, show d.previous.kind = c.previous.kind from congrArg Prod.fst alike.previous]
    · exact .pure (.cons trivial related)

theorem parallel_blockBehind :
    Parallel (List.Forall₂ Free) (blockBehind sub word) (blockBehind sub word) := by
  refine .bindEq parallel_accept fun _ => ?_
  split
  · exact parallel_block stmts
  · exact .pure .nil

include branches in
theorem parallel_branchStmt : Parallel Free (branchStmt sub) (branchStmt sub) := by
  refine parallel_advance.bind fun _ _ _ => ?_
  refine (parallel_expr _).bind fun _ _ _ => ?_
  refine (parallel_block stmts).bind fun _ _ _ => ?_
  refine .bindEq parallel_atKind fun _ => ?_
  dsimp only
  split
  · exact branches.bind fun _ _ _ => .given parallel_made
  · exact (parallel_blockBehind stmts).bind fun _ _ _ => parallel_made

theorem parallel_whileStmt : Parallel Free (whileStmt sub) (whileStmt sub) := by
  refine parallel_advance.bind fun _ _ _ => ?_
  refine (parallel_expr _).bind fun _ _ _ => ?_
  refine (parallel_block stmts).bind fun _ _ _ => ?_
  refine (parallel_blockBehind stmts).bind fun _ _ _ => ?_
  exact parallel_made

theorem parallel_forStmt :
    Parallel Free (forStmt sub start isAsync) (forStmt sub start' isAsync) := by
  refine parallel_expect.bind fun _ _ _ => ?_
  refine (parallel_elements parallel_expr).bind fun _ _ alike => ?_
  refine (parallel_checkTarget alike).bind fun _ _ _ => ?_
  refine parallel_expectBecause.bind fun _ _ _ => ?_
  refine (parallel_elements parallel_expr).bind fun _ _ _ => ?_
  refine (parallel_block stmts).bind fun _ _ _ => ?_
  refine (parallel_blockBehind stmts).bind fun _ _ _ => ?_
  exact parallel_made

theorem parallel_handler : Parallel Free (handler sub) (handler sub) := by
  refine parallel_advance.bind fun _ _ _ => ?_
  refine .bindEq parallel_atKind fun _ => ?_
  refine .choose (R := Free) (.pure trivial) ((parallel_expr _).map fun _ _ _ => trivial)
    fun _ _ _ => ?_
  refine .look fun c d alike => ?_
  rw [alike.kind]
  dsimp only
  split
  · refine parallel_advance.bind fun _ _ _ => ?_
    refine .bind (R := Free) (parallel_identifier.map fun _ _ _ => trivial) fun _ _ _ => ?_
    exact (parallel_block stmts).bind fun _ _ _ => parallel_made
  · exact .given ((parallel_block stmts).bind fun _ _ _ => parallel_made)

theorem parallel_tryStmt : Parallel Free (tryStmt sub) (tryStmt sub) := by
  refine parallel_advance.bind fun _ _ _ => ?_
  refine (parallel_block stmts).bind fun _ _ _ => ?_
  refine (parallel_collectWhile (fun _ _ alike => by rw [alike.kind])
    (parallel_handler stmts)).bind fun handlers handlers' caught => ?_
  refine (parallel_blockBehind stmts).bind fun _ _ _ => ?_
  refine (parallel_blockBehind stmts).bind fun finallyBody finallyBody' closed => ?_
  have noHandlers : handlers'.isEmpty = handlers.isEmpty := by cases caught <;> rfl
  have noFinally : finallyBody'.isEmpty = finallyBody.isEmpty := by cases closed <;> rfl
  rw [noHandlers, noFinally]
  split
  · exact parallel_failBecause
  · exact parallel_made

omit stmts in
theorem parallel_withItem : Parallel Free withItem withItem := by
  refine (parallel_expr _).bind fun _ _ _ => ?_
  refine .bindEq parallel_accept fun _ => ?_
  split
  · refine (parallel_expr _).bind fun _ _ alike => ?_
    exact (parallel_checkTarget alike).bind fun _ _ _ => .pure trivial
  · exact .pure trivial

theorem parallel_withStmt :
    Parallel Free (withStmt sub start isAsync) (withStmt sub start' isAsync) := by
  refine parallel_expect.bind fun _ _ _ => ?_
  refine parallel_withItem.bind fun _ _ _ => ?_
  refine (parallel_afterCommas (fun _ _ _ => rfl) parallel_withItem).bind fun _ _ _ => ?_
  refine (parallel_block stmts).bind fun _ _ _ => ?_
  exact parallel_made

theorem parallel_functionStmt : Parallel Free (functionStmt sub start decorators isAsync)
      (functionStmt sub start' decorators' isAsync) := by
  refine parallel_expect.bind fun _ _ _ => ?_
  refine parallel_expectBecause.bind fun _ _ _ => ?_
  refine parallel_expect.bind fun _ _ _ => ?_
  refine (parallel_parameters parallel_expr).bind fun _ _ _ => ?_
  refine parallel_expect.bind fun _ _ _ => ?_
  refine (parallel_behind parallel_expr).bind fun _ _ _ => ?_
  refine (parallel_block stmts).bind fun _ _ _ => ?_
  exact parallel_made

omit stmts in
theorem parallel_base : Parallel Free base base := by
  refine .look fun c d alike => ?_
  rw [alike.kind, alike.peek]
  split
  · refine parallel_advance.bind fun _ _ _ => ?_
    refine parallel_advance.bind fun _ _ _ => ?_
    exact (parallel_expr _).bind fun _ _ _ => .pure trivial
  · split
    · refine parallel_advance.bind fun _ _ _ => ?_
      exact (parallel_expr _).bind fun _ _ _ => .pure trivial
    · exact (parallel_expr _).map fun _ _ _ => trivial

theorem parallel_classStmt :
    Parallel Free (classStmt sub start decorators) (classStmt sub start' decorators') := by
  refine parallel_expect.bind fun _ _ _ => ?_
  refine parallel_expectBecause.bind fun _ _ _ => ?_
  refine .bindEq parallel_accept fun _ => ?_
  dsimp only
  split
  · refine (parallel_upTo parallel_base).bind fun _ _ _ => ?_
    refine parallel_expect.bind fun _ _ _ => .given ?_
    exact (parallel_block stmts).bind fun _ _ _ => parallel_made
  · exact .given ((parallel_block stmts).bind fun _ _ _ => parallel_made)

theorem parallel_decoratedStmt : Parallel Free (decoratedStmt sub) (decoratedStmt sub) := by
  refine .look fun c d _ => ?_
  have decorator : Parallel Free (do
      let _ ← advance
      let decorator ← expr .lowest
      let _ ← expect .newline
      return decorator) (do
      let _ ← advance
      let decorator ← expr .lowest
      let _ ← expect .newline
      return decorator) :=
    parallel_advance.bind fun _ _ _ => (parallel_expr _).bind fun _ _ _ =>
      parallel_expect.bind fun _ _ _ => .pure trivial
  refine (parallel_collectWhile (fun _ _ alike => by rw [alike.kind]) decorator).bind
    fun _ _ _ => ?_
  refine .bindEq parallel_kind fun kind => ?_
  split
  · exact parallel_functionStmt stmts
  · exact parallel_classStmt stmts
  · exact parallel_advance.bind fun _ _ _ => parallel_functionStmt stmts
  · exact parallel_failBecause

theorem parallel_asyncStmt : Parallel Free (asyncStmt sub) (asyncStmt sub) := by
  refine parallel_advance.bind fun _ _ _ => ?_
  refine .bindEq parallel_kind fun _ => ?_
  split
  · exact parallel_functionStmt stmts
  · exact parallel_forStmt stmts
  · exact parallel_withStmt stmts
  · exact parallel_failBecause

include branches in
theorem parallel_stmtWith : Parallel Free (stmtWith sub) (stmtWith sub) := by
  refine .look fun c d _ => ?_
  refine .bindEq parallel_kind fun _ => ?_
  split
  · exact parallel_returnStmt
  · exact parallel_wordStmt
  · exact parallel_wordStmt
  · exact parallel_wordStmt
  · exact parallel_raiseStmt
  · exact parallel_assertStmt
  · exact parallel_deleteStmt
  · exact parallel_namesStmt
  · exact parallel_namesStmt
  · exact parallel_importStmt
  · exact parallel_importFromStmt
  · exact parallel_printStmt
  · exact parallel_branchStmt stmts branches
  · exact parallel_whileStmt stmts
  · exact parallel_forStmt stmts
  · exact parallel_tryStmt stmts
  · exact parallel_withStmt stmts
  · exact parallel_functionStmt stmts
  · exact parallel_classStmt stmts
  · exact parallel_decoratedStmt stmts
  · exact parallel_asyncStmt stmts
  · exact parallel_expressionStmt

end

theorem parallel_nestedWithin : Parallel Free (nestedWithin depth).stmt (nestedWithin depth).stmt ∧
      Parallel Free (nestedWithin depth).branch (nestedWithin depth).branch := by
  induction depth with
  | zero => exact ⟨parallel_exhausted, parallel_exhausted⟩
  | succ depth ih => exact ⟨parallel_stmtWith ih.1 ih.2, parallel_branchStmt ih.1 ih.2⟩

theorem parallel_module : Parallel Free (module file) (module file') := by
  refine parallel_nodeAt.bind fun _ _ _ => ?_
  refine .look fun c d alike => ?_
  unfold nested
  rw [alike.length]
  refine (parallel_statementsUntil parallel_nestedWithin.1
    fun _ _ alike => by rw [alike.hasTokens]).bind fun _ _ _ => ?_
  exact .look fun _ _ _ => .pure trivial

end FlowTypes.Grammar

namespace FlowTypes.Module

/-- A text is read, or refused, whatever its file is called and whatever identities are free. -/
theorem outcome_parse (source file file' : String) (first first' : NodeId) :
    Outcome Parallel.Free (parse source file first) (parse source file' first') := by
  refine outcome_tokenize.bind fun _ _ same => ?_
  refine Outcome.bind (Grammar.parallel_module _ _
    (Cursor.alike_ofTokens same)) fun _ _ _ => ?_
  exact .read trivial

theorem isOk_parse {source file file' : String} {first first' : NodeId} :
    (parse source file first).isOk = (parse source file' first').isOk := by
  have outcome := outcome_parse source file file' first first'
  generalize parse source file first = x at outcome ⊢
  generalize parse source file' first' = y at outcome ⊢
  cases outcome <;> rfl

end FlowTypes.Module
