import FlowTypes.Grammar.Compound
import FlowTypes.Proofs.Extent.Expressions

/-! Statements and modules are put together of what is read for them, and lie over the tokens of it. -/
namespace FlowTypes.Grammar

open FlowTypes.Parser Content

-- What is inside of a statement is computed where one is made.
attribute [local simp] TreeNode.parts Stmt.inside Stmt.exprs Stmt.stmts

variable {ts : TokenList} {given : List TreeNode} {low least i k : Nat}

/-! ### Statements on one line -/

theorem delivers_terminator : Delivers ts k [] terminator fun _ k' => k ≤ k' := by
  apply Delivers.kind
  split
  · apply Delivers.shift ‹ts.kind k = .semicolon› nofun
    apply Delivers.accept .newline nofun
    intro _ k' further
    exact .pure (by omega) (.refl _)
  · apply Delivers.shift ‹ts.kind k = .newline› nofun
    exact .pure (Nat.le_succ k) (.refl _)
  · exact .pure (Nat.le_refl k) (.refl _)
  · exact .pure (Nat.le_refl k) (.refl _)
  · exact .failBecause

theorem delivers_endedStmt (same : start = (ts.get i).span.start) (held : AllLaid ts i k given)
    {make : Node → Stmt} (makes : ∀ n j, Makes ts i j given n (.stmt (make n))) (some : i < k) :
    Delivers ts k given (do
      terminator
      return make (← nodeFrom start)) (Gets ts i (i + 1)) := by
  apply delivers_terminator.skip
  intro _ k' further
  exact .stmt (places_nodeFrom same) (held.mono (Nat.le_refl i) further) (fun n _ => makes n k')
    (by omega)

section

variable {lo hi : Nat}

/-- The error about a target is put down to its first token. -/
theorem refuses_badTarget (laid : Laid ts lo hi (.expr target)) :
    ts.Refuses (badTarget target) := by
  obtain ⟨i, j, -, -, -, span, -⟩ := laid.tight
  refine ⟨ts.get i, ts.get_mem i, ?_, trivial⟩
  show target.span.start = _
  rw [show target.span = ts.span i j from span]
  rfl

theorem delivers_checkTarget (laid : Laid ts lo hi (.expr target)) :
    Delivers ts k [] (checkTarget target) fun _ k' => k = k' ∧ target.isAssignable = true := by
  unfold checkTarget
  split
  · case isTrue assignable => exact .pure ⟨rfl, assignable⟩ (.refl _)
  · exact fun _ _ => .refused (refuses_badTarget laid)

theorem delivers_checkTargets {targets : List Expr} (laid : AllLaid ts lo hi (targets.map .expr)) :
    Delivers ts k [] (targets.forM checkTarget) fun _ k' =>
      k = k' ∧ ∀ target ∈ targets, target.isAssignable = true := by
  induction targets with
  | nil => exact .pure ⟨rfl, nofun⟩ (.refl _)
  | cons target targets ih =>
    apply (delivers_checkTarget laid.head).skip
    rintro _ _ ⟨rfl, own⟩
    apply (ih (laid.of_sublist (List.sublist_cons_self _ _))).mono
    exact fun _ _ others => ⟨others.1, List.forall_mem_cons.mpr ⟨own, others.2⟩⟩

end

theorem lays_assigned : Lays ts 0 1 assigned := by
  intro k reached
  apply Delivers.ifAt
  · intro yielding
    exact (starts_yields lays_expr).start .kwYield nofun yielding (by omega)
  · intro _
    exact lays_elements lays_expr k reached

theorem targets_value (first : Expr) (others : List Expr) :
    (first :: others).dropLast ++ [others.getLast?.getD first] = first :: others := by
  rcases List.eq_nil_or_concat others with rfl | ⟨init, last, rfl⟩
  · rfl
  · rw [List.concat_eq_append, ← List.cons_append, List.dropLast_concat]
    simp

theorem delivers_assignment (same : start = (ts.get i).span.start)
    (held : AllLaid ts i k (nodes first)) (some : i < k) :
    Delivers ts k (nodes first) (assignment start first) (Gets ts i k) := by
  have more : Lays ts 0 0 (collectWhile (·.kind = .assignment) do
      let _ ← advance
      assigned) := by
    apply lays_collectWhile_kind
    intro k' _ there
    exact .shift there nofun (lays_assigned.widen (by omega))
  apply more.read (Nat.zero_le k) held
  intro others k' further held
  have split : nodes first ++ nodes others = (first :: others).dropLast.map .expr ++
      [.expr (others.getLast?.getD first)] := by
    have split := congrArg (List.map TreeNode.expr) (targets_value first others)
    rw [List.map_append] at split
    simpa using split.symm
  rw [split] at held ⊢
  apply (delivers_checkTargets (held.of_sublist (List.sublist_append_left _ _))).skip
  rintro _ _ ⟨rfl, assignable⟩
  exact .stmt (places_nodeFrom same) held (fun _ _ => ⟨rfl, .refl _, assignable, trivial⟩)
    (by omega)

theorem delivers_augmented (same : start = (ts.get i).span.start)
    (held : AllLaid ts i k (nodes target)) (some : i < k) (inside : k < ts.length) :
    Delivers ts k (nodes target) (augmented start target operator) (Gets ts i k) := by
  unfold augmented
  split
  · case isTrue isPlace =>
    apply Delivers.advance inside
    apply lays_assigned.read (Nat.zero_le _) held.shift
    intro value k' further held
    exact .stmt (places_nodeFrom same) held (fun _ _ => ⟨rfl, .refl _, isPlace, trivial⟩)
      (by omega)
  · exact fun _ _ => .refused (refuses_badTarget held.head)

theorem delivers_declaration (same : start = (ts.get i).span.start)
    (held : AllLaid ts i k (nodes target)) (some : i < k) (there : ts.kind k = .colon) :
    Delivers ts k (nodes target) (declaration start target) (Gets ts i k) := by
  apply (delivers_checkTarget held.head).skip
  rintro _ _ ⟨rfl, assignable⟩
  apply Delivers.shift there nofun
  apply (lays_expr _).read (Nat.zero_le _) held.shift
  intro hint k₁ further held
  apply Delivers.option .assignment nofun held
    (fun _ => .some (lays_assigned.widen (by omega))) (.result .here (.refl _) (by omega))
  intro value k₂ further' held
  exact .stmt (places_nodeFrom same) held (fun _ _ => ⟨rfl, by simp, assignable, trivial⟩)
    (by omega)

theorem lays_expressionStmt : Lays ts 0 1 expressionStmt := by
  intro k reached
  apply Delivers.get_bind
  intro c here
  apply lays_assigned.read reached .here
  intro first k₁ further held
  have ended : ∀ (stmt : Stmt) (k' : Nat), k₁ ≤ k' → AllLaid ts k k' (nodes stmt) →
      Delivers ts k' (nodes stmt) (do
        terminator
        return stmt) (Gets ts k (k + 1)) := by
    intro stmt k' further' held
    apply delivers_terminator.skip
    intro _ k'' further''
    exact .result (held.mono (Nat.le_refl k) further'') (.refl _) (by omega)
  have some : k < k₁ := further
  apply Delivers.kind
  dsimp only
  split
  · exact (delivers_assignment here.position held some).pass ended
  · split
    · case h_1 operator found =>
      have notEnd : ts.kind k₁ ≠ .eof := by
        intro isEnd
        rw [isEnd] at found
        cases found
      exact (delivers_augmented here.position held some (ts.inside rfl notEnd)).pass ended
    · split
      · exact (delivers_declaration here.position held some ‹_›).pass ended
      · obtain ⟨i, j, lower, some, upper, span, laid⟩ := held.head.tight
        apply Delivers.node [] (fun n => .stmt (.expression n first)) (places_nodeAt span)
          (.singleton laid) (fun _ _ => ⟨rfl, .refl _, trivial, trivial⟩) some
        intro n laid
        exact ended (.expression n first) k₁ (Nat.le_refl k₁) (.singleton (laid.mono lower upper))

theorem starts_returnStmt : Starts ts low returnStmt := by
  apply Starts.advance
  intro k _
  apply Delivers.get_bind
  intro c here
  apply Delivers.either .next (.some ((lays_elements lays_expr).widen (by omega)))
    (.result .here (.refl _) (by omega))
  intro value k' further held
  exact delivers_endedStmt rfl held (fun _ _ => ⟨rfl, by simp, trivial, trivial⟩) (by omega)

theorem starts_wordStmt (make : Node → Stmt)
    (makes : ∀ n i j, Makes ts i j [] n (.stmt (make n))) : Starts ts low (wordStmt make) := by
  apply Starts.advance
  intro k _
  apply delivers_terminator.skip
  intro _ k' further
  exact .stmt places_token (.nil k (by omega)) (fun n _ => makes n k (k + 1)) (by omega)

theorem lays_raiseCause : Lays ts 0 0 raiseCause := by
  intro k _
  apply Delivers.ifAccepted .kwFrom nofun
  · intro _
    exact .some ((lays_expr _).widen (by omega))
  · intro _
    apply Delivers.ifAccepted .comma nofun
    · intro _
      exact .some ((lays_elements lays_expr).widen (by omega))
    · intro _
      exact .result .here (.refl _) (by omega)

theorem starts_raiseStmt : Starts ts low raiseStmt := by
  apply Starts.advance
  intro k _
  apply Delivers.get_bind
  intro c here
  dsimp only
  split
  · apply (lays_expr _).read (Nat.zero_le _) .next
    intro exception k₁ further held
    apply lays_raiseCause.read (Nat.zero_le _) held
    intro cause k₂ further' held
    exact delivers_endedStmt rfl held (fun _ _ => ⟨rfl, by simp, trivial, trivial⟩) (by omega)
  · exact delivers_endedStmt rfl .next (fun _ _ => ⟨rfl, .refl _, trivial, trivial⟩) (by omega)

theorem starts_assertStmt : Starts ts low assertStmt := by
  apply Starts.advance
  intro k _
  apply (lays_expr _).read (Nat.zero_le _) .next
  intro test k₁ further held
  apply (lays_behind lays_expr .comma nofun).read (Nat.zero_le _) held
  intro message k₂ further' held
  exact delivers_endedStmt rfl held (fun _ _ => ⟨rfl, by simp, trivial, trivial⟩) (by omega)

/-- What a tuple of targets is made of lies inside of the tuple. -/
theorem starts_deleteStmt : Starts ts low deleteStmt := by
  apply Starts.advance
  intro k _
  apply (lays_elements lays_expr).read (Nat.zero_le _) .next
  intro target k₁ further held
  cases target with
  | tuple n targets =>
    apply Delivers.dissolve
    exact delivers_endedStmt rfl held.head.parts
      (fun _ _ => ⟨rfl, by simp [Expr.inside, Expr.parts], trivial, trivial⟩) (by omega)
  | _ => exact delivers_endedStmt rfl held (fun _ _ => ⟨rfl, .refl _, trivial, trivial⟩) (by omega)

/-! ### Names -/

theorem lays_identifier : Lays ts 0 1 identifier := by
  intro k _
  apply Delivers.expect .identifier nofun
  intro _
  exact .result .next (.refl _) (by omega)

theorem lays_nameList : Lays ts 0 1 nameList := by
  intro k reached
  apply lays_identifier.read reached .here
  intro first k₁ further held
  apply (lays_afterCommas lays_identifier).read (Nat.zero_le _) held
  intro others k₂ further' held
  exact .result held (by simp) (by omega)

theorem starts_namesStmt (make : Node → List String → Stmt)
    (makes : ∀ n names i j, Makes ts i j [] n (.stmt (make n names))) :
    Starts ts low (namesStmt make) := by
  apply Starts.advance
  intro k _
  apply (lays_nameList (k + 1) (Nat.zero_le _)).skip
  rintro names k₁ ⟨further, -⟩
  exact delivers_endedStmt rfl (.nil k (by omega)) (fun n j => makes n names k j) (by omega)

theorem delivers_modulePart (inside : k < ts.length) :
    Delivers ts k [] (modulePart message) fun part k' =>
      Gets ts k (k + 1) part k' ∧ (ts.get k).isNameLike = true ∧ part = (ts.get k).value := by
  apply Delivers.get_bind
  intro c here
  split
  · case isTrue nameLike =>
    rw [here.current] at nameLike
    apply Delivers.advance inside
    exact .pure ⟨⟨Nat.le_refl _, .next⟩, nameLike, rfl⟩ (.refl _)
  · exact .failBecause

/-- A name with dots starts with the first of its parts. -/
theorem delivers_moduleName (inside : k < ts.length) :
    Delivers ts k [] dottedName fun name k' => Gets ts k (k + 1) name k' ∧
      (ts.get k).isNameLike = true ∧ (ts.get k).value.toList <+: name.toList := by
  apply (delivers_modulePart inside).skip
  rintro _ k₁ ⟨⟨further, -⟩, nameLike, rfl⟩
  have others : Lays ts 0 0 (collectWhile (·.kind = .dot) do
      let _ ← advance
      modulePart "expected a module name after `.`") := by
    apply lays_collectWhile_kind
    intro k' _ there
    apply Delivers.shift there nofun
    have part : Delivers ts (k' + 1) [] (modulePart "expected a module name after `.`")
        (Gets ts (k' + 1) (k' + 1 + 1)) :=
      (delivers_modulePart (ts.lt_length there nofun)).mono fun _ _ got => got.1
    exact part.widen (by omega)
  apply (others k₁ (Nat.zero_le _)).skip
  rintro others k₂ ⟨further', -⟩
  refine .pure ⟨⟨by omega, .nil k (by omega)⟩, nameLike, ?_⟩ (.refl _)
  rw [String.toList_intercalate]
  cases others <;> simp

theorem delivers_dottedName (inside : k < ts.length) :
    Delivers ts k [] dottedName (Gets ts k (k + 1)) :=
  (delivers_moduleName inside).mono fun _ _ got => got.1

theorem delivers_aliasOf {name : Parser String}
    (named : Delivers ts k [] name (Gets ts k (k + 1))) :
    Delivers ts k [] (aliasOf name) (Gets ts k (k + 1)) := by
  apply Delivers.get_bind
  intro c here
  apply named.pass
  intro name k₁ further held
  apply Delivers.option .kwAs nofun held
    (fun _ => .some (lays_identifier.widen (by omega))) (.result .here (.refl _) (by omega))
  intro newName k₂ further' held
  exact .reduce (places_nodeFrom here.position) held (fun _ => rfl)
    (fun _ _ => ⟨rfl, List.nil_sublist _, trivial, trivial⟩) (by omega)

theorem delivers_importStmt (there : ts.kind k = .kwImport) :
    Delivers ts k [] importStmt (Gets ts k (k + 1)) := by
  apply Delivers.shift there nofun
  apply (delivers_aliasOf (delivers_dottedName (ts.lt_length there nofun))).read .next
  intro first k₁ further held
  have others : Delivers ts k₁ [] (afterCommas (fun _ => true) (aliasOf dottedName)) fun xs k' =>
      Gets ts k₁ (k₁ + 0) xs k' ∧ ∀ a ∈ xs, True := by
    apply delivers_afterCommas
    intro k' _ inside
    apply (delivers_aliasOf (delivers_dottedName inside)).mono
    exact fun _ _ got => ⟨⟨Nat.le_of_succ_le got.reached, got.laid⟩, trivial⟩
  apply (others.mono fun _ _ got => got.1).read held
  intro others k₂ further' held
  exact delivers_endedStmt rfl held (fun _ _ => ⟨rfl, by simp, trivial, trivial⟩) (by omega)

/-- The dots in front of a module name are not the last token, and each of them leads up. -/
theorem delivers_importLevel (inside : k < ts.length) :
    Delivers ts k [] importLevel fun level k' => k ≤ k' ∧ k' < ts.length ∧
      (level = 0 ∧ k' = k ∨ level ≠ 0 ∧ ts.kind k ≠ .kwImport) := by
  have dots : Delivers ts k [] (collectWhile (fun c => c.kind = .dot || c.kind = .ellipsis) do
      let token ← advance
      return if token.kind = .dot then 1 else 3) fun dots k' => k ≤ k' ∧ k' < ts.length ∧
        (dots.foldl Nat.add 0 = 0 ∧ k' = k ∨ dots.foldl Nat.add 0 ≠ 0 ∧ ts.kind k ≠ .kwImport) := by
    unfold collectWhile collect
    apply delivers_repeated (I := fun (read : Array Nat) k' => k ≤ k' ∧ k' < ts.length ∧
      (read.toList.foldl Nat.add 0 = 0 ∧ k' = k ∨
        read.toList.foldl Nat.add 0 ≠ 0 ∧ ts.kind k ≠ .kwImport)) (s := #[])
    · rintro read k' ⟨further, inside', level⟩
      have item : Delivers ts k' [] (do
          if (fun c : Cursor => c.kind = .dot || c.kind = .ellipsis) (← get) then
            some <$> do
              let token ← advance
              return if token.kind = .dot then 1 else 3
          else return none) fun (found : Option Nat) k'' => k'' < ts.length ∧
            (found = none ∧ k'' = k' ∨
              ∃ n, found = some n ∧ n ≠ 0 ∧ k'' = k' + 1 ∧ ts.kind k' ≠ .kwImport) := by
        apply Delivers.get_bind
        intro c here
        split
        · case isTrue dot =>
          have notEnd : ts.kind k' ≠ .eof := by
            intro isEnd
            simp [here.kind, isEnd] at dot
          have notImport : ts.kind k' ≠ .kwImport := by
            intro isImport
            simp [here.kind, isImport] at dot
          refine .map (.shift rfl notEnd (.pure ?_ (.refl _))) fun _ => rfl
          refine ⟨ts.lt_length rfl notEnd, .inr ⟨_, rfl, ?_, rfl, notImport⟩⟩
          split <;> decide
        · exact .pure ⟨inside', .inl ⟨rfl, rfl⟩⟩ (.refl _)
      apply item.skip
      rintro _ k'' ⟨inside'', ⟨rfl, rfl⟩ | ⟨n, rfl, positive, rfl, notImport⟩⟩
      · exact .pure ⟨further, inside'', level⟩ (by simp)
      · refine .pure ⟨Nat.lt_succ_self k', by omega, inside'', .inr ⟨?_, ?_⟩⟩ (by simp)
        · rw [Array.toList_push, List.foldl_append]
          show _ + n ≠ 0
          omega
        · rcases level with ⟨-, rfl⟩ | ⟨-, notImport⟩ <;> exact notImport
    · exact ⟨Nat.le_refl k, inside, .inl ⟨rfl, rfl⟩⟩
  apply dots.skip
  intro dots k' counted
  exact .pure counted (.refl _)

theorem lays_importedNames : Lays ts 0 1 importedNames := by
  have name : Lays ts 0 1 (aliasOf identifier) :=
    fun k reached => delivers_aliasOf (lays_identifier k reached)
  intro k reached
  apply Delivers.ifAccepted .star nofun
  · intro _
    exact .result .next (.refl _) (by omega)
  · intro _
    apply Delivers.ifAccepted .openParen nofun
    · intro _
      apply (lays_upTo name).read (Nat.zero_le _) .next
      intro names k₁ further held
      apply Delivers.expect .closeParen nofun
      intro _
      exact .result held.shift (by simp) (by omega)
    · intro _
      apply name.read reached .here
      intro first k₁ further held
      apply (lays_afterCommas name).read (Nat.zero_le _) held
      intro others k₂ further' held
      exact .result held (by simp) (by omega)

theorem delivers_importFromStmt (there : ts.kind k = .kwFrom) :
    Delivers ts k [] importFromStmt (Gets ts k (k + 1)) := by
  apply Delivers.shift there nofun
  apply (delivers_importLevel (ts.lt_length there nofun)).skip
  rintro level k₁ ⟨further, inside, counted⟩
  have ended : ∀ (source : String) (k' : Nat), k₁ ≤ k' → ts.NamesModule k source level →
      Delivers ts k' [] (do
        let _ ← expectBecause .kwImport "expected `import`"
        let imported ← importedNames
        terminator
        return Stmt.importFrom (← nodeFrom (ts.get k).span.start) source level imported.1 imported.2)
        (Gets ts k (k + 1)) := by
    intro source k' further' namesModule
    apply Delivers.expectBecause .kwImport nofun
    intro _
    apply lays_importedNames.read (Nat.zero_le _) (.nil k (by omega))
    intro imported k₂ further'' held
    exact delivers_endedStmt rfl held
      (fun _ _ => ⟨rfl, by simp, trivial, there, namesModule⟩) (by omega)
  dsimp only
  apply Delivers.ifAt
  · intro isImport
    apply ended "" k₁ (Nat.le_refl k₁)
    unfold TokenList.NamesModule
    rcases counted with ⟨rfl, rfl⟩ | ⟨above, notImport⟩
    · rw [if_pos isImport]
      exact ⟨rfl, rfl⟩
    · rw [if_neg notImport]
      exact fun same => absurd same above
  · intro notImport
    apply (delivers_moduleName inside).skip
    rintro source k₂ ⟨⟨further', -⟩, nameLike, starts⟩
    apply ended source k₂ (by omega)
    unfold TokenList.NamesModule
    rcases counted with ⟨rfl, rfl⟩ | ⟨above, notImport⟩
    · rw [if_neg notImport]
      exact fun _ => ⟨nameLike, starts⟩
    · rw [if_neg notImport]
      exact fun same => absurd same above

theorem lays_printedValues : Lays ts 0 0 printedValues := by
  intro k₀ _
  apply delivers_repeated (I := fun (read : Array Expr × Bool) k => Gets ts k₀ k₀ read k)
    (s := (#[], false))
  · intro read k got
    have behind := got.reached
    apply Delivers.get_bind
    intro c here
    split
    · exact .pure ⟨behind, by simpa using got.laid⟩ (by simp)
    · apply (lays_expr _).read (Nat.zero_le _) got.laid
      intro value k' further held
      apply Delivers.ifAccepted .comma nofun
      · intro _
        exact .pure ⟨by omega, by omega, by simpa using held.shift⟩ (by simp)
      · intro _
        exact .pure ⟨by omega, by simpa using held⟩ (by simp)
  · exact ⟨Nat.le_refl k₀, .here⟩

theorem delivers_printStmt (there : ts.kind k = .kwPrint) :
    Delivers ts k [] printStmt (Gets ts k (k + 1)) := by
  apply Delivers.get_bind
  intro c here
  dsimp only
  split
  · exact lays_expressionStmt k (Nat.zero_le _)
  · apply Delivers.shift there nofun
    have rest : ∀ (destination : Option Expr) (k' : Nat), k + 1 ≤ k' →
        AllLaid ts k k' (nodes destination) → Delivers ts k' (nodes destination) (do
          let printed ← printedValues
          terminator
          return Stmt.print (← nodeFrom (ts.get k).span.start) destination printed.1 printed.2)
          (Gets ts k (k + 1)) := by
      intro destination k' further held
      apply lays_printedValues.read (Nat.zero_le _) held
      intro printed k₂ further' held
      exact delivers_endedStmt rfl held (fun _ _ => ⟨rfl, by simp, trivial, trivial⟩) (by omega)
    apply Delivers.ifAccepted .shiftRight nofun
    · intro _
      apply (lays_expr _).read (Nat.zero_le _) (.nil k (by omega))
      intro value k₁ further held
      apply Delivers.accept .comma nofun
      intro _ k₂ further'
      exact rest (some value) k₂ (by omega) (held.mono (Nat.le_refl k) further')
    · intro _
      exact rest none (k + 1) (Nat.le_refl _) .next

/-! ### Statements with blocks -/

/-- Readers of nested statements that lay them over their tokens, from place `low` on. -/
structure Nested.Lays (ts : TokenList) (low : Nat) (sub : Nested) : Prop where
  stmt : FlowTypes.Lays ts low 1 sub.stmt
  branch : ∀ k, low ≤ k → k < ts.length → Delivers ts k [] sub.branch (Gets ts k (k + 1))

section

variable {sub : Nested} (inner : sub.Lays ts low)

include inner

theorem lays_lineBlock : Lays ts low 1 (lineBlock sub) := by
  intro k reached
  apply inner.stmt.read reached .here
  intro first k₁ further held
  have others : ∀ more, Lays ts low 0 (collectWhile more sub.stmt) :=
    fun _ => lays_collectWhile fun k reached _ _ _ => inner.stmt k reached
  apply (others _).read (by omega) held
  intro others k₂ further' held
  exact .result held (by simp) (by omega)

/-- Every round of a block takes a line end or a statement. -/
theorem delivers_statementsUntil (ends : Cursor → Bool) (reached : low ≤ k) :
    Delivers ts k [] (statementsUntil sub ends) fun body k' =>
      Gets ts k k body k' ∧ ∃ c : Cursor, c.At ts k' ∧ ends c = true := by
  apply delivers_repeated (I := fun (read : Array Stmt) k' => Gets ts k k read k') (s := #[])
  · intro read k' got
    have behind := got.reached
    apply Delivers.get_bind
    intro c here
    split
    · case isTrue ended =>
      exact .pure ⟨⟨behind, by simpa using got.laid⟩, c, here, ended⟩ (by simp)
    · apply Delivers.ifAccepted .newline nofun
      · intro _
        exact .pure ⟨Nat.lt_succ_self k', by omega, got.laid.shift⟩ (.refl _)
      · intro _
        apply inner.stmt.read (by omega) got.laid
        intro stmt k'' further held
        exact .pure ⟨further, by omega, by simpa using held⟩ (by simp)
  · exact ⟨Nat.le_refl k, .here⟩

theorem delivers_block (reached : low ≤ k + 1) :
    Delivers ts k [] (block sub) (Gets ts k (k + 1)) := by
  apply Delivers.expectBecause .colon nofun
  intro _
  apply Delivers.ifAccepted .newline nofun
  · intro _
    apply Delivers.expectBecause .indent nofun
    intro _
    apply (delivers_statementsUntil inner _ (by omega)).bind
    rintro body k' ⟨⟨further, laid⟩, -⟩
    apply Delivers.accept .dedent nofun
    intro _ k'' further'
    exact .result (laid.mono (Nat.le_refl _) further') (.refl _) (by omega)
  · intro _
    exact (lays_lineBlock inner).widen (by omega)

theorem lays_block : Lays ts low 1 (block sub) :=
  fun _ reached => delivers_block inner (Nat.le_succ_of_le reached)

theorem lays_blockBehind (word : Kind) (notEnd : word ≠ .eof) :
    Lays ts low 0 (blockBehind sub word) := by
  intro k reached
  apply Delivers.ifAccepted word notEnd
  · intro _
    exact (lays_block inner).widen (by omega)
  · intro _
    exact .result .here (.refl _) (by omega)

theorem starts_branchStmt : Starts ts low (branchStmt sub) := by
  apply Starts.advance
  intro k reached
  apply (lays_expr _).read (Nat.zero_le _) .next
  intro condition k₁ further₁ held
  apply (lays_block inner).read (by omega) held
  intro thenBody k₂ further₂ held
  apply Delivers.ifAt
  · intro chained
    apply (inner.branch k₂ (by omega) (ts.inside chained nofun)).read held
    intro next k₃ further₃ held
    rw [pure_bind]
    exact .stmt (places_nodeFrom rfl) held (fun _ _ => ⟨rfl, by simp, trivial, trivial⟩) (by omega)
  · intro _
    apply (lays_blockBehind inner .kwElse nofun).read (by omega) held
    intro elseBody k₃ further₃ held
    exact .stmt (places_nodeFrom rfl) held (fun _ _ => ⟨rfl, by simp, trivial, trivial⟩) (by omega)

theorem starts_whileStmt : Starts ts low (whileStmt sub) := by
  apply Starts.advance
  intro k reached
  apply (lays_expr _).read (Nat.zero_le _) .next
  intro condition k₁ further₁ held
  apply (lays_block inner).read (by omega) held
  intro body k₂ further₂ held
  apply (lays_blockBehind inner .kwElse nofun).read (by omega) held
  intro elseBody k₃ further₃ held
  exact .stmt (places_nodeFrom rfl) held (fun _ _ => ⟨rfl, by simp, trivial, trivial⟩) (by omega)

/-- A loop starts at its first word, at place `i`, which may be in front of `for`. -/
theorem delivers_forStmt (same : start = (ts.get i).span.start)
    (room : i ≤ k ∧ low ≤ k + 1 ∧ least ≤ k + 1) :
    Delivers ts k [] (forStmt sub start isAsync) (Gets ts i least) := by
  apply Delivers.expect .kwFor nofun
  intro _
  apply (lays_elements lays_expr).read (Nat.zero_le _) (.nil i (by omega))
  intro target k₁ further₁ held
  apply (delivers_checkTarget held.head).skip
  rintro _ _ ⟨rfl, assignable⟩
  apply Delivers.expectBecause .kwIn nofun
  intro _
  apply (lays_elements lays_expr).read (Nat.zero_le _) held.shift
  intro iter k₂ further₂ held
  apply (lays_block inner).read (by omega) held
  intro body k₃ further₃ held
  apply (lays_blockBehind inner .kwElse nofun).read (by omega) held
  intro elseBody k₄ further₄ held
  exact .stmt (places_nodeFrom same) held (fun _ _ => ⟨rfl, by simp, assignable, trivial⟩)
    (by omega)

theorem starts_handler : Starts ts low (handler sub) := by
  apply Starts.advance
  intro k reached
  have ended : ∀ (exception : Option Expr) (name : Option String) (k' : Nat), k + 1 ≤ k' →
      AllLaid ts k k' (nodes exception) → Delivers ts k' (nodes exception) (do
        let body ← block sub
        return (⟨← nodeFrom (ts.get k).span.start, exception, name, body⟩ : Handler Stmt))
        (Gets ts k (k + 1)) := by
    intro exception name k' further held
    apply (lays_block inner).read (by omega) held
    intro body k'' further' held
    exact .reduce (places_nodeFrom rfl) held (fun _ => rfl)
      (fun _ _ => ⟨rfl, by simp, trivial, trivial⟩) (by omega)
  have named : ∀ (exception : Option Expr) (k' : Nat), k + 1 ≤ k' →
      AllLaid ts k k' (nodes exception) → Delivers ts k' (nodes exception) (do
        let c ← get
        let name ←
          if c.kind = .kwAs || c.kind = .comma then do
            let _ ← advance
            some <$> identifier
          else pure none
        let body ← block sub
        return (⟨← nodeFrom (ts.get k).span.start, exception, name, body⟩ : Handler Stmt))
        (Gets ts k (k + 1)) := by
    intro exception k' further held
    apply Delivers.get_bind
    intro c here
    dsimp only
    split
    · case isTrue word =>
      have notEnd : ts.kind k' ≠ .eof := by
        intro isEnd
        simp [here.kind, isEnd] at word
      apply Delivers.shift rfl notEnd
      apply (lays_identifier (k' + 1) (Nat.zero_le _)).some.skip
      rintro name k'' ⟨further', -⟩
      exact ended exception name k'' (by omega) (held.mono (Nat.le_refl k) (by omega))
    · exact ended exception none k' further held
  dsimp only
  apply Delivers.ifAt
  · intro _
    exact named none (k + 1) (Nat.le_refl _) .next
  · intro _
    apply (lays_expr _ (k + 1) (Nat.zero_le _)).some.bind
    rintro exception k₁ ⟨further, held⟩
    exact named exception k₁ (by omega) (held.mono (Nat.le_succ k) (Nat.le_refl k₁))

theorem starts_tryStmt : Starts ts low (tryStmt sub) := by
  apply Starts.advance
  intro k reached
  apply (lays_block inner).read reached .next
  intro body k₁ further₁ held
  have handlers : Lays ts low 0 (collectWhile (·.kind = .kwExcept) (handler sub)) := by
    apply lays_collectWhile_kind
    intro k' reached there
    exact (starts_handler inner).start .kwExcept nofun there (by omega)
  apply handlers.read (by omega) held
  intro handlers k₂ further₂ held
  apply (lays_blockBehind inner .kwElse nofun).read (by omega) held
  intro elseBody k₃ further₃ held
  apply (lays_blockBehind inner .kwFinally nofun).read (by omega) held
  intro finallyBody k₄ further₄ held
  split
  · exact .failBecause
  · case isFalse dealt =>
    have dealt : handlers ≠ [] ∨ finallyBody ≠ [] := by
      simpa only [Bool.and_eq_true, List.isEmpty_iff, Classical.not_and_iff_not_or_not] using dealt
    exact .stmt (places_nodeFrom rfl) held (fun _ _ => ⟨rfl, by simp, dealt, trivial⟩) (by omega)

omit inner in
theorem delivers_withItem : Delivers ts k [] withItem fun item k' => Gets ts k (k + 1) item k' ∧
      ∀ target ∈ item.target, target.isAssignable = true := by
  apply (lays_expr _).read (Nat.zero_le _) .here
  intro context k₁ further held
  apply Delivers.ifAccepted .kwAs nofun
  · intro _
    apply (lays_expr _ (k₁ + 1) (Nat.zero_le _)).bind
    rintro target k₂ ⟨further', next⟩
    apply (delivers_checkTarget next.head).skip
    rintro _ _ ⟨rfl, assignable⟩
    have both := (held.mono (Nat.le_refl k) (by omega)).append
      (next.mono (by omega) (Nat.le_refl k₂))
    refine .pure ⟨⟨by omega, by simpa [WithItem.exprs] using both⟩, ?_⟩ (by simp [WithItem.exprs])
    rintro _ ⟨⟩
    exact assignable
  · intro _
    exact .pure ⟨⟨by omega, by simpa [WithItem.exprs] using held⟩, nofun⟩ (by simp [WithItem.exprs])

theorem delivers_withStmt (same : start = (ts.get i).span.start)
    (room : i ≤ k ∧ low ≤ k + 1 ∧ least ≤ k + 1) :
    Delivers ts k [] (withStmt sub start isAsync) (Gets ts i least) := by
  apply Delivers.expect .kwWith nofun
  intro _
  apply delivers_withItem.bind
  rintro first k₁ ⟨⟨further₁, held⟩, own⟩
  have others : Delivers ts k₁ [] (afterCommas (fun _ => true) withItem) fun items k' =>
      Gets ts k₁ k₁ items k' ∧ ∀ item ∈ items, ∀ target ∈ item.target,
        target.isAssignable = true := by
    apply delivers_afterCommas
    intro k' _ _
    apply delivers_withItem.mono
    exact fun _ _ got => ⟨⟨Nat.le_of_succ_le got.1.reached, got.1.laid⟩, got.2⟩
  apply others.bind
  rintro others k₂ ⟨⟨further₂, held'⟩, each⟩
  have both : AllLaid ts i k₂ (nodes first ++ nodes others) :=
    (held.mono (by omega) further₂).append (held'.mono (by omega) (Nat.le_refl k₂))
  apply (lays_block inner).read (by omega) both
  intro body k₃ further₃ held
  exact .stmt (places_nodeFrom same) held
    (fun _ _ => ⟨rfl, by simp, List.forall_mem_cons.mpr ⟨own, each⟩, trivial⟩) (by omega)

/-- A definition starts at its first decorator, at place `i`, if it has any. Its name is the token
behind the first word. -/
theorem delivers_functionStmt (same : start = (ts.get i).span.start)
    (held : AllLaid ts i k given) (known : (nodes decorators).Sublist given)
    (room : low ≤ k + 1 ∧ least ≤ k + 1) :
    Delivers ts k given (functionStmt sub start decorators isAsync) (Gets ts i least) := by
  have ordered := held.ordered
  apply Delivers.drop known
  apply Delivers.expect .kwDef nofun
  intro _
  apply Delivers.expectBecause .identifier nofun
  intro isName
  apply Delivers.expect .openParen nofun
  intro _
  have held := (held.of_sublist known).shift.shift.shift
  apply (lays_parameters lays_expr).read (Nat.zero_le _) held
  intro parameters k₁ further₁ held
  apply Delivers.expect .closeParen nofun
  intro _
  apply (lays_behind lays_expr .arrow nofun).read (Nat.zero_le _) held.shift
  intro returns k₂ further₂ held
  apply (lays_block inner).read (by omega) held
  intro body k₃ further₃ held
  exact .stmt (places_nodeFrom same) held (fun _ _ => ⟨rfl, by simp, trivial,
    k + 1, by omega, by omega, isName, rfl, rfl⟩) (by omega)

omit inner in
theorem lays_base : Lays ts 0 1 base := by
  intro k reached
  apply Delivers.get_bind
  intro c here
  split
  · case isTrue keyword =>
    have there : ts.kind k = .identifier := by simp_all [here.kind]
    apply Delivers.shift there nofun
    apply Delivers.advance (ts.lt_length there nofun)
    apply (lays_expr _).read (Nat.zero_le _) (.nil k (by omega))
    intro value k₁ further held
    exact .result held (by simp) (by omega)
  · split
    · case isTrue starred =>
      have notEnd : ts.kind k ≠ .eof := by
        intro isEnd
        simp [here.kind, isEnd] at starred
      apply Delivers.shift rfl notEnd
      apply (lays_expr _).read (Nat.zero_le _) .next
      intro value k₁ further held
      exact .result held (by simp) (by omega)
    · exact (lays_expr _ k reached).some

omit inner in
theorem nodes_bases {bases : List (Option Expr)} :
    nodes (bases.filterMap fun b => b) = nodes bases := by
  induction bases with
  | nil => rfl
  | cons b bases ih => cases b <;> simp_all

theorem delivers_classStmt (same : start = (ts.get i).span.start) (held : AllLaid ts i k given)
    (known : (nodes decorators).Sublist given) (room : low ≤ k + 1 ∧ least ≤ k + 1) :
    Delivers ts k given (classStmt sub start decorators) (Gets ts i least) := by
  have ordered := held.ordered
  apply Delivers.drop known
  apply Delivers.expect .kwClass nofun
  intro _
  apply Delivers.expectBecause .identifier nofun
  intro isName
  have ended : ∀ (bases : List Expr) (k' : Nat), k + 1 + 1 ≤ k' →
      AllLaid ts i k' (nodes decorators ++ nodes bases) →
      Delivers ts k' (nodes decorators ++ nodes bases) (do
        let body ← block sub
        return Stmt.classDef ⟨← nodeFrom start, (ts.get (k + 1)).value, (ts.get (k + 1)).span,
          decorators, bases, body⟩) (Gets ts i least) := by
    intro bases k' further held
    apply (lays_block inner).read (by omega) held
    intro body k'' further' held
    exact .stmt (places_nodeFrom same) held (fun _ _ => ⟨rfl, by simp, trivial,
      k + 1, by omega, by omega, isName, rfl, rfl⟩) (by omega)
  have held := (held.of_sublist known).shift.shift
  dsimp only
  apply Delivers.ifAccepted .openParen nofun
  · intro _
    apply (lays_upTo lays_base).read (Nat.zero_le _) held.shift
    intro bases k₁ further held
    apply Delivers.expect .closeParen nofun
    intro _
    rw [← nodes_bases] at held ⊢
    exact ended _ (k₁ + 1) (by omega) held.shift
  · intro _
    exact .drop (by simp) (ended [] (k + 1 + 1) (Nat.le_refl _) (by simpa using held))

theorem delivers_decoratedStmt (reached : low ≤ k + 1) :
    Delivers ts k [] (decoratedStmt sub) (Gets ts k (k + 1)) := by
  apply Delivers.get_bind
  intro c here
  have decorators : Lays ts 0 0 (collectWhile (·.kind = .atSign) do
      let _ ← advance
      let decorator ← expr .lowest
      let _ ← expect .newline
      return decorator) := by
    apply lays_collectWhile_kind
    intro k' _ there
    apply Delivers.shift there nofun
    apply (lays_expr _).read (Nat.zero_le _) .next
    intro decorator k₁ further held
    apply Delivers.expect .newline nofun
    intro _
    exact .result held.shift (.refl _) (by omega)
  apply decorators.read (Nat.zero_le k) .here
  intro decorators k₁ further held
  apply Delivers.kind
  split
  · exact delivers_functionStmt inner here.position held (.refl _) (by omega)
  · exact delivers_classStmt inner here.position held (.refl _) (by omega)
  · apply Delivers.shift ‹ts.kind k₁ = .kwAsync› nofun
    exact delivers_functionStmt inner here.position held.shift (.refl _) (by omega)
  · exact .failBecause

theorem starts_asyncStmt : Starts ts low (asyncStmt sub) := by
  apply Starts.advance
  intro k reached
  apply Delivers.kind
  split
  · exact delivers_functionStmt inner rfl .next (.refl _) (by omega)
  · exact delivers_forStmt inner rfl (by omega)
  · exact delivers_withStmt inner rfl (by omega)
  · exact .failBecause

/-- Whatever a statement starts with takes a token before it reads a statement inside. -/
theorem delivers_stmtWith (reached : low ≤ k + 1) :
    Delivers ts k [] (stmtWith sub) (Gets ts k (k + 1)) := by
  apply Delivers.get_bind
  intro c here
  apply Delivers.kind
  split
  · exact starts_returnStmt.start .kwReturn nofun ‹_› reached
  · exact (starts_wordStmt .pass fun _ _ _ => ⟨rfl, .refl _, trivial, trivial⟩).start
      .kwPass nofun ‹_› reached
  · exact (starts_wordStmt .breakLoop fun _ _ _ => ⟨rfl, .refl _, trivial, trivial⟩).start
      .kwBreak nofun ‹_› reached
  · exact (starts_wordStmt .continueLoop fun _ _ _ => ⟨rfl, .refl _, trivial, trivial⟩).start
      .kwContinue nofun ‹_› reached
  · exact starts_raiseStmt.start .kwRaise nofun ‹_› reached
  · exact starts_assertStmt.start .kwAssert nofun ‹_› reached
  · exact starts_deleteStmt.start .kwDel nofun ‹_› reached
  · exact (starts_namesStmt .globals fun _ _ _ _ => ⟨rfl, .refl _, trivial, trivial⟩).start
      .kwGlobal nofun ‹_› reached
  · exact (starts_namesStmt .nonlocals fun _ _ _ _ => ⟨rfl, .refl _, trivial, trivial⟩).start
      .kwNonlocal nofun ‹_› reached
  · exact delivers_importStmt ‹_›
  · exact delivers_importFromStmt ‹_›
  · exact delivers_printStmt ‹_›
  · exact (starts_branchStmt inner).start .kwIf nofun ‹_› reached
  · exact (starts_whileStmt inner).start .kwWhile nofun ‹_› reached
  · exact delivers_forStmt inner here.position (by omega)
  · exact (starts_tryStmt inner).start .kwTry nofun ‹_› reached
  · exact delivers_withStmt inner here.position (by omega)
  · exact delivers_functionStmt inner here.position .here (.refl _) (by omega)
  · exact delivers_classStmt inner here.position .here (.refl _) (by omega)
  · exact delivers_decoratedStmt inner reached
  · exact (starts_asyncStmt inner).start .kwAsync nofun ‹_› reached
  · exact lays_expressionStmt k (Nat.zero_le _)

end

/-- Room for as many levels as there are tokens left is enough. -/
theorem lays_nestedWithin (depth : Nat) : (nestedWithin depth).Lays ts (ts.length + 1 - depth) := by
  induction depth with
  | zero =>
    constructor
    · intro k reached c here
      have := here.bound
      omega
    · intro k reached inside
      omega
  | succ depth ih =>
    constructor
    · intro k reached
      exact delivers_stmtWith ih (by omega)
    · intro k reached inside
      exact starts_branchStmt ih k (by omega) inside

/-- A module ends at a mark for the end, and its statements lie in front of it. They are put together
after the identity of the module is given away. -/
theorem module_reads (here : c.At ts 0) (file : String) :
    Settled ts (fun m k => ts.kind k = .eof ∧ m.node.span = ⟨⟨0, file⟩, (ts.get k).span.start⟩ ∧
      AllLaid ts 0 k (m.body.map .stmt)) (module file c) ∧
    ∀ m c', module file c = .ok (m, c') →
      m.node.id = c.nextId ∧ Assembles ([], c.number) (m.body.map .stmt, c') := by
  have room := here.number.length
  have arrives := delivers_statementsUntil (lays_nestedWithin (c.number.rest.length + 1))
    (fun c => !c.hasTokens) (by omega) c.number here.number
  have ran : module file c = (statementsUntil (nested c.number) (fun c => !c.hasTokens)
      c.number).bind fun r => .ok (⟨⟨c.nextId, ⟨⟨0, file⟩, r.2.position⟩⟩, file, r.1⟩, r.2) := rfl
  rw [ran]
  unfold nested
  generalize statementsUntil _ _ c.number = outcome at arrives ⊢
  cases arrives with
  | refused refuses =>
    refine ⟨.refused refuses, ?_⟩
    rintro _ _ ⟨⟩
  | @read body c' k there holds path =>
    obtain ⟨got, c₁, there', ended⟩ := holds
    constructor
    · refine .read there ⟨?_, by rw [there.position], by simpa using got.laid⟩
      have left := there'.length
      simp only [Cursor.hasTokens, Bool.not_eq_true', Bool.and_eq_false_iff,
        decide_eq_false_iff_not, Nat.not_lt, there'.kind] at ended
      rcases ended with short | isEnd
      · exact ts.kind_of_length_le (by omega)
      · simpa using isEnd
    · rintro _ _ ⟨⟩
      exact ⟨rfl, by simpa using path []⟩

end FlowTypes.Grammar

namespace FlowTypes.Module

variable {source file : String}

theorem parse_eq_ok (read : parse source file firstId = .ok (m, next)) :
    ∃ tokens c, tokenize source file = .ok tokens ∧ c.nextId = next ∧
      Grammar.module file (.ofTokens tokens.toList file firstId) = .ok (m, c) := by
  unfold parse at read
  cases lexed : tokenize source file with
  | error e =>
    rw [lexed] at read
    cases read
  | ok tokens =>
    rw [lexed] at read
    replace read : ofTokens tokens.toList file firstId = .ok (m, next) := read
    unfold ofTokens at read
    cases ended : Grammar.module file (.ofTokens tokens.toList file firstId) with
    | error e =>
      rw [ended] at read
      cases read
    | ok result =>
      rw [ended] at read
      cases read
      exact ⟨tokens, result.2, rfl, rfl, ended⟩

theorem exists_of_parse {α : Type} {f : Module × NodeId → α} {a : α}
    (computed : (parse source file firstId).toOption.map f = some a) :
    ∃ m next, parse source file firstId = .ok (m, next) ∧ f (m, next) = a := by
  cases read : parse source file firstId with
  | error e =>
    rw [read] at computed
    cases computed
  | ok result =>
    rw [read] at computed
    exact ⟨result.1, result.2, rfl, Option.some.inj computed⟩

end FlowTypes.Module
