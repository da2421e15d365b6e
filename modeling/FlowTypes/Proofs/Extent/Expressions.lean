import FlowTypes.Grammar.Expr
import FlowTypes.Proofs.Extent.Logic

/-! Expressions are put together of what is read for them, and lie over the tokens of it. -/
namespace FlowTypes.Grammar

open FlowTypes.Parser Content

-- What is inside of an expression is computed where one is made.
attribute [local simp] TreeNode.parts Expr.inside Expr.parts

variable {ts : TokenList} {given : List TreeNode} {low least i k : Nat}

theorem delivers_number (there : ts.kind k = .number) :
    Delivers ts k [] number (Gets ts k (k + 1)) := by
  apply Delivers.get_bind
  intro c here
  dsimp only
  split
  · exact fun c here' => .refused (here'.refuses (by rw [here.current, here'.current]; rfl))
  · apply Delivers.shift there nofun
    rw [here.current]
    exact .expr places_token .next (fun n span => ⟨rfl, .refl _, trivial,
      k, Nat.le_refl k, Nat.lt_succ_self k, there, rfl, span.symm⟩) (by omega)

theorem delivers_name (there : ts.kind k = .identifier ∨ ts.kind k = .kwPrint) :
    Delivers ts k [] name (Gets ts k (k + 1)) := by
  have inside : k < ts.length := by
    rcases there with there | there
    · exact ts.inside there nofun
    · exact ts.inside there nofun
  apply Delivers.advance inside
  exact .expr places_token .next (fun n span => ⟨rfl, .refl _, trivial,
    k, Nat.le_refl k, Nat.lt_succ_self k, there, rfl, span.symm⟩) (by omega)

theorem delivers_strings (there : ts.kind k = .string) :
    Delivers ts k [] strings (Gets ts k (k + 1)) := by
  apply Delivers.get_bind
  intro c here
  have parts : Delivers ts k [] (collectWhile (·.kind = .string) Parser.advance) fun xs k' =>
      Gets ts k k xs k' ∧ ∃ c : Cursor, c.At ts k' ∧ decide (c.kind = .string) = false := by
    apply delivers_collectWhile
    intro k' _ c here more
    have isString : ts.kind k' = .string := by simpa [here.kind] using more
    intro c here
    exact .read (here.shift (ts.inside isString nofun)) ⟨Nat.le_refl _, .next⟩ fun stack =>
      .single (.shift _ c)
  apply parts.skip
  rintro parts k' ⟨got, c', there', ended⟩
  have further : k < k' := by
    apply Nat.lt_of_le_of_ne got.reached
    rintro rfl
    simp [there'.kind, there] at ended
  exact .expr (places_nodeFrom here.position) (.nil k (by omega))
    (fun _ _ => ⟨rfl, .refl _, trivial, trivial⟩) (by omega)

theorem starts_constant : Starts ts low (constant value) := by
  apply Starts.advance
  intro k _
  exact .expr places_token .next (fun _ _ => ⟨rfl, .refl _, trivial, trivial⟩) (by omega)

/-- The start of an expression is where the first of its tokens starts. -/
theorem places_nodeFrom_expr {e : Expr} (span : e.span = ts.span i j) :
    Places ts k i k (nodeFrom e.span.start) :=
  places_nodeFrom (by rw [span]; rfl)

section

variable {sub : Power → Parser Expr} (inner : ∀ power, Lays ts low 1 (sub power))

include inner

theorem lays_element : Lays ts low 1 (element sub power) := by
  intro k reached
  apply Delivers.ifAt
  · intro star
    apply Delivers.shift star nofun
    apply (inner _).read (by omega) .next
    intro value k' further held
    exact .expr (places_nodeFrom rfl) held (fun _ _ => ⟨rfl, .refl _, trivial, trivial⟩) (by omega)
  · intro _
    exact inner power k reached

theorem lays_elements : Lays ts low 1 (elements sub power) := by
  intro k reached
  apply Delivers.get_bind
  intro c here
  apply (lays_element inner).read reached .here
  intro first k₁ further held
  apply Delivers.ifAt
  · intro _
    apply (lays_afterCommas (lays_element inner)).read (by omega) held
    intro others k₂ further' held
    exact .expr (places_nodeFrom here.position) held
      (fun _ _ => ⟨rfl, by simp, trivial, trivial⟩) (by omega)
  · intro _
    exact .result held (.refl _) (by omega)

theorem starts_unary : Starts ts low (unary sub operator power) := by
  apply Starts.advance
  intro k reached
  apply (inner power (k + 1) reached).pass
  intro operand k' further held
  obtain ⟨i, j, lower, some, upper, span, laid⟩ := held.head.tight
  have join : (ts.get k).span.join operand.span = ts.span k j := by
    rw [show operand.span = ts.span i j from span]
    rfl
  exact .expr (places_nodeAt join) (.singleton (laid.mono (by omega) (Nat.le_refl j)))
    (fun _ _ => ⟨rfl, .refl _, trivial, trivial⟩) (by omega)

theorem starts_await : Starts ts low (await sub) := by
  apply Starts.advance
  intro k reached
  apply (inner _).read reached .next
  intro value k' further held
  exact .expr (places_nodeFrom rfl) held (fun _ _ => ⟨rfl, .refl _, trivial, trivial⟩) (by omega)

theorem starts_yields : Starts ts low (yields sub) := by
  apply Starts.advance
  intro k reached
  apply Delivers.ifAccepted .kwFrom nofun
  · intro _
    apply (inner _).read (by omega) (.nil k (by omega))
    intro value k' further held
    exact .expr (places_nodeFrom rfl) held (fun _ _ => ⟨rfl, .refl _, trivial, trivial⟩) (by omega)
  · intro _
    apply Delivers.get_bind
    intro c here
    split
    · apply (lays_elements inner).read reached .next
      intro value k' further held
      exact .expr (places_nodeFrom rfl) held (fun _ _ => ⟨rfl, .refl _, trivial, trivial⟩)
        (by omega)
    · exact .expr (places_nodeFrom rfl) .next (fun _ _ => ⟨rfl, .refl _, trivial, trivial⟩)
        (by omega)

theorem lays_behind (kind : Kind) (notEnd : kind ≠ .eof) : Lays ts low 0 (behind sub kind) := by
  intro k reached
  apply Delivers.ifAccepted kind notEnd
  · intro _
    exact .some ((inner _).widen (by omega))
  · intro _
    exact .result .here (.refl _) (by omega)

theorem lays_parameters : Lays ts low 0 (parameters sub close hints) := by
  -- A parameter starts at place `i`, in front of its star if it has one.
  have named : ∀ (start : Position) (kind : ParameterKind) (i k : Nat),
      start = (ts.get i).span.start → i ≤ k → low ≤ k → Delivers ts k [] (do
        let token ← expectBecause .identifier "expected a parameter name"
        let hint ← if hints then behind sub .colon else pure none
        let fallback ← behind sub .assignment
        return (⟨← nodeFrom start, token.value, kind, hint, fallback⟩ : Parameter Expr))
        (Gets ts i (k + 1)) := by
    intro start kind i k same behind reached
    apply Delivers.expectBecause .identifier nofun
    intro _
    apply Delivers.either (.nil i (by omega)) ((lays_behind inner .colon nofun).widen (by omega))
      (.result .here (.refl _) (by omega))
    intro hint k₁ further held
    apply (lays_behind inner .assignment nofun).read (by omega) held
    intro fallback k₂ further' held
    exact .reduce (places_nodeFrom same) held (fun _ => rfl)
      (fun _ _ => ⟨rfl, by simp [Parameter.exprs], trivial, trivial⟩) (by omega)
  intro k₀ reached
  apply delivers_repeated (I := fun (read : Array (Parameter Expr)) k => Gets ts k₀ k₀ read k)
    (s := #[])
  · intro read k got
    have behind := got.reached
    apply Delivers.get_bind
    intro c here
    have item : ∀ (q : Parser (Parameter Expr)) (k' : Nat), k ≤ k' →
        Delivers ts k' [] q (Gets ts k (k' + 1)) → Delivers ts k' (nodes read) (do
          let parameter ← q
          if ← accept .comma then return Round.again (read.push parameter)
          return Round.done (read.push parameter).toList)
          (Round.Goes (fun read k => Gets ts k₀ k₀ read k) (Gets ts k₀ (k₀ + 0)) k) := by
      intro q k' further reads
      apply reads.bind
      rintro parameter k'' ⟨further', laid⟩
      have held : AllLaid ts k₀ k'' (nodes read ++ nodes parameter) :=
        (got.laid.mono (Nat.le_refl k₀) (by omega)).append (laid.mono behind (Nat.le_refl k''))
      apply Delivers.ifAccepted .comma nofun
      · intro _
        exact .pure ⟨by omega, by omega, by simpa using held.shift⟩ (by simp)
      · intro _
        exact .pure ⟨by omega, by simpa using held⟩ (by simp)
    split
    · exact .pure ⟨by omega, by simpa using got.laid⟩ (by simp)
    · dsimp only
      split
      · case isTrue marked =>
        have notEnd : ts.kind k ≠ .eof := by
          intro ended
          simp [here.kind, ended] at marked
        apply Delivers.shift rfl notEnd
        split
        · apply Delivers.accept .comma nofun
          intro _ k' further
          exact .pure ⟨further, by omega, got.laid.mono (Nat.le_refl k₀) (by omega)⟩ (.refl _)
        · exact item _ (k + 1) (Nat.le_succ k)
            (named _ _ k (k + 1) here.position (Nat.le_succ k) (by omega))
      · case isFalse plain =>
        split
        · case isTrue dropped =>
          -- Only a star or a slash is dropped.
          simp_all
        · exact item _ k (Nat.le_refl k) (named _ _ k k here.position (Nat.le_refl k) (by omega))
  · exact ⟨Nat.le_refl k₀, .here⟩

theorem starts_lambda : Starts ts low (lambda sub) := by
  apply Starts.advance
  intro k reached
  apply (lays_parameters inner).read reached .next
  intro parameters k₁ further held
  apply Delivers.expect .colon nofun
  intro _
  apply (inner _).read (by omega) held.shift
  intro body k₂ further' held
  exact .expr (places_nodeFrom rfl) held (fun _ _ => ⟨rfl, by simp, trivial, trivial⟩) (by omega)

theorem lays_clause : Lays ts low 1 (clause sub) := by
  intro k reached
  apply Delivers.accept .kwAsync nofun
  intro isAsync k₁ further₁
  apply Delivers.expect .kwFor nofun
  intro _
  apply (lays_elements inner).read (by omega) (.nil k (by omega))
  intro target k₂ further₂ held
  apply Delivers.expectBecause .kwIn nofun
  intro _
  apply (inner _).read (by omega) held.shift
  intro iter k₃ further₃ held
  have conditions : Lays ts low 0 (collectWhile (·.kind = .kwIf) do
      let _ ← advance
      sub .ternary) := by
    apply lays_collectWhile_kind
    intro k' reached there
    exact .shift there nofun ((inner _).widen (by omega))
  apply conditions.read (by omega) held
  intro conditions k₄ further₄ held
  exact .result held (by simp [Clause.exprs]) (by omega)

theorem lays_clauses : Lays ts low 0 (clauses sub) :=
  lays_collectWhile fun k reached _ _ _ => lays_clause inner k reached

theorem delivers_comprehension (same : start = (ts.get i).span.start) {kind : ComprehensionKind}
    {element : Expr} (notEnd : close ≠ .eof) (regular : value.isSome = true → kind = .dict)
    (held : AllLaid ts i k given) (known : (nodes element ++ nodes value).Sublist given)
    (room : low ≤ k ∧ i < k ∧ least ≤ k + 1) :
    Delivers ts k given (comprehension sub start kind element value close) (Gets ts i least) := by
  apply Delivers.drop known
  apply (lays_clauses inner).read (by omega) (held.of_sublist known)
  intro clauses k' further held
  apply Delivers.expect close notEnd
  intro _
  exact .expr (places_nodeFrom same) held.shift (fun _ _ => ⟨rfl, by simp, regular, trivial⟩)
    (by omega)

theorem delivers_otherElements (close : Kind) (notEnd : close ≠ .eof)
    (held : AllLaid ts i k (nodes first)) (reached : low ≤ k) :
    Delivers ts k (nodes first) (otherElements sub first close) (Gets ts i (k + 1)) := by
  apply (lays_afterCommas (lays_element inner)).read (by omega) held
  intro others k' further held
  apply Delivers.expect close notEnd
  intro _
  exact .result held.shift (by simp) (by omega)

theorem starts_parenthesised : Starts ts low (parenthesised sub) := by
  apply Starts.advance
  intro k reached
  apply Delivers.ifAccepted .closeParen nofun
  · intro _
    exact .expr (places_nodeFrom rfl) (.nil k (by omega))
      (fun _ _ => ⟨rfl, .refl _, trivial, trivial⟩) (by omega)
  · intro _
    apply Delivers.ifAt
    · intro yielding
      apply ((starts_yields inner).start .kwYield nofun yielding (by omega)).pass
      intro value k₁ further held
      apply Delivers.expect .closeParen nofun
      intro _
      exact .result held.shift (.refl _) (by omega)
    · intro _
      apply (lays_element inner).read reached .next
      intro first k₁ further held
      apply Delivers.get_bind
      intro c here
      split
      · exact delivers_comprehension inner rfl nofun nofun held (.refl _) (by omega)
      · apply Delivers.ifAt
        · intro _
          apply (delivers_otherElements inner .closeParen nofun held (by omega)).pass
          intro all k₂ further' held
          exact .expr (places_nodeFrom rfl) held (fun _ _ => ⟨rfl, by simp, trivial, trivial⟩)
            (by omega)
        · intro _
          apply Delivers.expect .closeParen nofun
          intro _
          exact .result held.shift (.refl _) (by omega)

theorem starts_list : Starts ts low (list sub) := by
  apply Starts.advance
  intro k reached
  apply Delivers.ifAccepted .closeBracket nofun
  · intro _
    exact .expr (places_nodeFrom rfl) (.nil k (by omega))
      (fun _ _ => ⟨rfl, .refl _, trivial, trivial⟩) (by omega)
  · intro _
    apply (lays_element inner).read reached .next
    intro first k₁ further held
    apply Delivers.get_bind
    intro c here
    split
    · exact delivers_comprehension inner rfl nofun nofun held (.refl _) (by omega)
    · apply (delivers_otherElements inner .closeBracket nofun held (by omega)).pass
      intro all k₂ further' held
      exact .expr (places_nodeFrom rfl) held (fun _ _ => ⟨rfl, by simp, trivial, trivial⟩)
        (by omega)

theorem lays_entry : Lays ts low 1 (entry sub) := by
  intro k reached
  apply Delivers.ifAccepted .doubleStar nofun
  · intro _
    apply (inner _).read (by omega) .next
    intro value k₁ further held
    exact .result held (.refl _) (by omega)
  · intro _
    apply (inner _).read reached .here
    intro key k₁ further held
    apply Delivers.expect .colon nofun
    intro _
    apply (inner _).read (by omega) held.shift
    intro value k₂ further' held
    exact .result held (.refl _) (by omega)

theorem delivers_dict (same : start = (ts.get i).span.start) (held : AllLaid ts i k given)
    (known : (nodes first).Sublist given) (room : low ≤ k ∧ i < k ∧ least ≤ k + 1) :
    Delivers ts k given (dict sub start first) (Gets ts i least) := by
  apply Delivers.drop known
  apply Delivers.either (held.of_sublist known) (.result .here (.refl _) (by omega))
    ((lays_afterCommas (lays_entry inner)).widen (by omega))
  intro others k' further held
  apply Delivers.expect .closeCurly nofun
  intro _
  exact .expr (places_nodeFrom same) held.shift (fun _ _ => ⟨rfl, by simp, trivial, trivial⟩)
    (by omega)

theorem starts_braced : Starts ts low (braced sub) := by
  apply Starts.advance
  intro k reached
  apply Delivers.ifAt
  · intro _
    exact delivers_dict inner rfl .next (.refl _) (by omega)
  · intro _
    apply Delivers.ifAt
    · intro _
      apply (lays_entry inner).read reached .next
      intro first k₁ further held
      exact delivers_dict inner rfl held (by simp) (by omega)
    · intro _
      apply (lays_element inner).read reached .next
      intro first k₁ further held
      apply Delivers.ifAccepted .colon nofun
      · intro _
        apply (inner _).read (by omega) held.shift
        intro value k₂ further' held
        apply Delivers.get_bind
        intro c here
        split
        · exact delivers_comprehension inner rfl nofun (fun _ => rfl) held (.refl _) (by omega)
        · exact delivers_dict inner rfl held (.refl _) (by omega)
      · intro _
        apply Delivers.get_bind
        intro c here
        split
        · exact delivers_comprehension inner rfl nofun nofun held (.refl _) (by omega)
        · apply (delivers_otherElements inner .closeCurly nofun held (by omega)).pass
          intro all k₂ further' held
          exact .expr (places_nodeFrom rfl) held (fun _ _ => ⟨rfl, by simp, trivial, trivial⟩)
            (by omega)

/-- Whatever an expression starts with takes a token before it reads an expression inside. -/
theorem delivers_head (reached : low ≤ k + 1) :
    Delivers ts k [] (head sub) (Gets ts k (k + 1)) := by
  apply Delivers.kind
  split
  · exact delivers_number ‹_›
  · exact delivers_name (.inl ‹_›)
  · exact delivers_name (.inr ‹_›)
  · exact delivers_strings ‹_›
  · exact starts_constant.start .kwTrue nofun ‹_› reached
  · exact starts_constant.start .kwFalse nofun ‹_› reached
  · exact starts_constant.start .kwNone nofun ‹_› reached
  · exact starts_constant.start .ellipsis nofun ‹_› reached
  · exact (starts_unary inner).start .kwNot nofun ‹_› reached
  · exact (starts_unary inner).start .plus nofun ‹_› reached
  · exact (starts_unary inner).start .dash nofun ‹_› reached
  · exact (starts_unary inner).start .tilde nofun ‹_› reached
  · exact (starts_await inner).start .kwAwait nofun ‹_› reached
  · exact (starts_lambda inner).start .kwLambda nofun ‹_› reached
  · exact (starts_yields inner).start .kwYield nofun ‹_› reached
  · exact (starts_parenthesised inner).start .openParen nofun ‹_› reached
  · exact (starts_list inner).start .openBracket nofun ‹_› reached
  · exact (starts_braced inner).start .openCurly nofun ‹_› reached
  · exact .fail

/-! ### Behind an expression -/

theorem delivers_binary (laid : Laid ts i k (.expr left))
    (room : low ≤ k ∧ least ≤ k + 1) :
    Delivers ts k (nodes left) (binary sub left operator power) (Gets ts i least) := by
  apply (inner power k room.1).bind
  rintro right k' ⟨further, held⟩
  obtain ⟨i₁, j₁, lower₁, some₁, upper₁, span₁, laid₁⟩ := laid.tight
  obtain ⟨i₂, j₂, lower₂, some₂, upper₂, span₂, laid₂⟩ := held.head.tight
  have join : left.span.join right.span = ts.span i₁ j₂ := by
    rw [show left.span = ts.span i₁ j₁ from span₁, show right.span = ts.span i₂ j₂ from span₂]
    rfl
  have both : AllLaid ts i₁ j₂ (nodes left ++ nodes right) :=
    .append (.singleton (laid₁.mono (Nat.le_refl i₁) (by omega)))
      (.singleton (laid₂.mono (by omega) (Nat.le_refl j₂)))
  exact .expr (places_nodeAt join) both (fun _ _ => ⟨rfl, .refl _, trivial, trivial⟩) (by omega)

theorem delivers_conditional (laid : Laid ts i k (.expr body)) (reached : low ≤ k)
    (there : ts.kind k = .kwIf) :
    Delivers ts k (nodes body) (conditional sub body) (Gets ts i (k + 1)) := by
  apply Delivers.shift there nofun
  apply (inner _ (k + 1) (by omega)).bind
  rintro condition k₁ ⟨further₁, held₁⟩
  apply Delivers.expectBecause .kwElse nofun
  intro _
  apply (inner _ (k₁ + 1) (by omega)).bind
  rintro orelse k₂ ⟨further₂, held₂⟩
  obtain ⟨i₁, j₁, lower₁, some₁, upper₁, span₁, laid₁⟩ := laid.tight
  obtain ⟨i₂, j₂, lower₂, some₂, upper₂, span₂, laid₂⟩ := held₂.head.tight
  have join : body.span.join orelse.span = ts.span i₁ j₂ := by
    rw [show body.span = ts.span i₁ j₁ from span₁, show orelse.span = ts.span i₂ j₂ from span₂]
    rfl
  have all : AllLaid ts i₁ j₂ (nodes body ++ nodes condition ++ nodes orelse) := by
    apply AllLaid.append
    · apply AllLaid.append
      · exact .singleton (laid₁.mono (Nat.le_refl i₁) (by omega))
      · exact held₁.mono (by omega) (by omega)
    · exact .singleton (laid₂.mono (by omega) (Nat.le_refl j₂))
  exact .expr (places_nodeAt join) all (fun _ _ => ⟨rfl, .refl _, trivial, trivial⟩) (by omega)

/-- A bare generator starts at the parenthesis of the call, at place `i`. -/
theorem delivers_argument (same : opening = (ts.get i).span.start) (behind : i < k)
    (reached : low ≤ k) : Delivers ts k [] (argument sub opening) (Gets ts i k) := by
  apply Delivers.get_bind
  intro c here
  apply Delivers.ifAccepted .star nofun
  · intro _
    apply (inner _).read (by omega) (.nil i (by omega))
    intro value k₁ further held
    exact .result held (.refl _) (by omega)
  · intro _
    apply Delivers.ifAccepted .doubleStar nofun
    · intro _
      apply (inner _).read (by omega) (.nil i (by omega))
      intro value k₁ further held
      exact .result held (.refl _) (by omega)
    · intro _
      split
      · case isTrue keyword =>
        have there : ts.kind k = .identifier := by simp_all [here.kind]
        apply Delivers.shift there nofun
        apply Delivers.advance (ts.lt_length there nofun)
        apply (inner _).read (by omega) (.nil i (by omega))
        intro value k₁ further held
        exact .result held (.refl _) (by omega)
      · apply (inner _).read reached (.nil i (by omega))
        intro value k₁ further held
        apply Delivers.get_bind
        intro c' here'
        split
        · apply (lays_clauses inner).read (by omega) held
          intro clauses k₂ further' held
          exact .reduce (places_nodeFrom same) held (fun _ => rfl)
            (fun _ _ => ⟨rfl, by simp [Argument.value], nofun, trivial⟩) (by omega)
        · exact .result held (.refl _) (by omega)

theorem delivers_call (laid : Laid ts i k (.expr callee)) (reached : low ≤ k)
    (there : ts.kind k = .openParen) :
    Delivers ts k (nodes callee) (call sub callee) (Gets ts i (k + 1)) := by
  obtain ⟨i₁, j₁, lower, some, upper, span, laid⟩ := laid.tight
  apply Delivers.shift there nofun
  have arguments : Delivers ts (k + 1) [] (upTo .closeParen (argument sub (ts.get k).span.start))
      (Gets ts k (k + 1)) :=
    delivers_upTo (Nat.le_succ k) fun k' behind => delivers_argument inner rfl behind (by omega)
  apply arguments.bind
  rintro arguments k₁ ⟨further, held⟩
  have all : AllLaid ts i₁ k₁ (nodes callee ++ nodes arguments) :=
    .append (.singleton (laid.mono (Nat.le_refl i₁) (by omega)))
      (held.mono (by omega) (Nat.le_refl k₁))
  apply Delivers.expect .closeParen nofun
  intro _
  exact .expr (places_nodeFrom_expr span) all.shift (fun _ _ => ⟨rfl, by simp, trivial, trivial⟩)
    (by omega)

theorem lays_bound : Lays ts low 0 (bound sub) := by
  intro k reached
  apply Delivers.get_bind
  intro c here
  split
  · exact .some ((inner _).widen (by omega))
  · exact .result .here (.refl _) (by omega)

/-- A slice starts at its lower bound or its first colon, at place `i`. -/
theorem delivers_slice (same : start = (ts.get i).span.start) (held : AllLaid ts i k given)
    (known : (nodes lower).Sublist given) (room : low ≤ k ∧ least ≤ k + 1) :
    Delivers ts k given (slice sub start lower) (Gets ts i least) := by
  have ordered := held.ordered
  apply Delivers.drop known
  apply Delivers.expect .colon nofun
  intro _
  apply (lays_bound inner).read (by omega) (held.of_sublist known).shift
  intro upper k₁ further held
  apply Delivers.option .colon nofun held (fun _ => (lays_bound inner).widen (by omega))
    (.result .here (.refl _) (by omega))
  intro step k₂ further' held
  exact .expr (places_nodeFrom same) held (fun _ _ => ⟨rfl, by simp, trivial, trivial⟩) (by omega)

theorem lays_subscriptItem : Lays ts low 1 (subscriptItem sub) := by
  intro k reached
  apply Delivers.get_bind
  intro c here
  apply Delivers.ifAt
  · intro _
    exact delivers_slice inner here.position .here (.refl _) (by omega)
  · intro _
    apply (lays_element inner).read reached .here
    intro value k₁ further held
    apply Delivers.ifAt
    · intro _
      exact delivers_slice inner here.position held (.refl _) (by omega)
    · intro _
      exact .result held (.refl _) (by omega)

theorem delivers_subscript (laid : Laid ts i k (.expr object)) (reached : low ≤ k)
    (there : ts.kind k = .openBracket) :
    Delivers ts k (nodes object) (subscript sub object) (Gets ts i (k + 1)) := by
  obtain ⟨i₁, j₁, lower, some, upper, span, laid⟩ := laid.tight
  apply Delivers.shift there nofun
  apply (lays_subscriptItem inner (k + 1) (by omega)).bind
  rintro first k₁ ⟨further, held⟩
  have closed : ∀ (index : Expr) (k' : Nat), k < k' → Laid ts k k' (.expr index) →
      Delivers ts k' (nodes object ++ nodes index) (do
        let _ ← expect .closeBracket
        return Expr.subscript (← nodeFrom object.span.start) object index) (Gets ts i (k + 1)) := by
    intro index k' further' last
    have both : AllLaid ts i₁ k' (nodes object ++ nodes index) :=
      .append (.singleton (laid.mono (Nat.le_refl i₁) (by omega)))
        (.singleton (last.mono (by omega) (Nat.le_refl k')))
    apply Delivers.expect .closeBracket nofun
    intro _
    exact .expr (places_nodeFrom_expr span) both.shift
      (fun _ _ => ⟨rfl, .refl _, trivial, trivial⟩) (by omega)
  replace held := held.mono (Nat.le_succ k) (Nat.le_refl k₁)
  dsimp only
  apply Delivers.ifAt
  · intro _
    apply (lays_afterCommas (lays_subscriptItem inner) k₁ (by omega)).bind
    rintro others k₂ ⟨further', held'⟩
    have both := (held.mono (Nat.le_refl k) further').append
      (held'.mono (by omega) (Nat.le_refl k₂))
    rw [List.append_assoc]
    apply Delivers.node _ (fun n => .expr (.tuple n (first :: others))) (places_nodeFrom rfl) both
      (fun _ _ => ⟨rfl, by simp, trivial, trivial⟩) (by omega)
    intro n index
    exact closed (.tuple n (first :: others)) k₂ (by omega) index
  · intro _
    exact closed first k₁ (by omega) held.head

omit inner in
theorem delivers_member {object : Expr} (laid : Laid ts i k (.expr object))
    (there : ts.kind k = .dot) :
    Delivers ts k (nodes object) (member object) (Gets ts i (k + 1)) := by
  obtain ⟨i₁, j₁, lower, some, upper, span, laid⟩ := laid.tight
  apply Delivers.shift there nofun
  apply Delivers.get_bind
  intro c here
  split
  · case isTrue nameLike =>
    rw [here.current] at nameLike
    apply Delivers.advance (ts.lt_length there nofun)
    exact .expr (places_nodeFrom_expr span) (.singleton (laid.mono (Nat.le_refl i₁) (by omega)))
      (fun _ _ => ⟨rfl, .refl _, trivial,
        k + 1, by omega, Nat.lt_succ_self _, nameLike, rfl, rfl⟩) (by omega)
  · exact .failBecause

theorem delivers_extend (laid : Laid ts i k (.expr left)) (reached : low ≤ k) :
    Delivers ts k (nodes left) (extend sub left power) (Gets ts i (k + 1)) := by
  -- The place moves on over the operator.
  have next : ∀ k', k ≤ k' → Laid ts i k' (.expr left) :=
    fun k' further => laid.mono (Nat.le_refl i) further
  apply Delivers.kind
  split
  · exact delivers_conditional inner laid reached ‹_›
  · exact delivers_call inner laid reached ‹_›
  · exact delivers_subscript inner laid reached ‹_›
  · exact delivers_member laid ‹_›
  · apply Delivers.shift ‹ts.kind k = .doubleStar› nofun
    exact delivers_binary inner (next _ (by omega)) (by omega)
  · apply Delivers.shift ‹ts.kind k = .kwNot› nofun
    apply Delivers.expectBecause .kwIn nofun
    intro _
    exact delivers_binary inner (next _ (by omega)) (by omega)
  · apply Delivers.shift ‹ts.kind k = .kwIs› nofun
    apply Delivers.ifAccepted .kwNot nofun
    · intro _
      exact delivers_binary inner (next _ (by omega)) (by omega)
    · intro _
      exact delivers_binary inner (next _ (by omega)) (by omega)
  · split
    · case h_1 operator found =>
      have notEnd : ts.kind k ≠ .eof := by
        intro ended
        rw [ended] at found
        cases found
      apply Delivers.shift rfl notEnd
      exact delivers_binary inner (next _ (by omega)) (by omega)
    · exact .fail

theorem delivers_operatorRound (laid : Laid ts i k (.expr left)) (reached : low ≤ k) :
    Delivers ts k (nodes left) (operatorRound sub power left)
      (Round.Goes (fun left k' => Laid ts i k' (.expr left)) (Gets ts i k) k) := by
  apply Delivers.kind
  split
  · exact .pure ⟨Nat.le_refl k, .singleton laid⟩ (.refl _)
  · split
    · exact .pure ⟨Nat.le_refl k, .singleton laid⟩ (.refl _)
    · apply (delivers_extend inner laid reached).pass
      intro e k' further held
      exact .pure ⟨further, held.head⟩ (.refl _)

/-- Whatever comes before an inner expression takes a token, so that the inner reader may be one for
later places only. -/
theorem delivers_exprWith (power : Power) (reached : low ≤ k + 1) :
    Delivers ts k [] (exprWith sub power) (Gets ts k (k + 1)) := by
  apply (delivers_head inner reached).pass
  intro first k₁ further held
  apply delivers_repeated (I := fun left k' => k + 1 ≤ k' ∧ Laid ts k k' (.expr left))
  · rintro left k' ⟨further', laid⟩
    apply (delivers_operatorRound inner laid (by omega)).mono
    intro round k'' goes
    cases round with
    | again left' => exact ⟨goes.1, Nat.le_trans further' (Nat.le_of_lt goes.1), goes.2⟩
    | done e => exact ⟨Nat.le_trans further' goes.reached, goes.laid⟩
  · exact ⟨further, held.head⟩

end

/-- Room for as many levels as there are tokens left is enough. -/
theorem lays_exprWithin (depth : Nat) (power : Power) :
    Lays ts (ts.length + 1 - depth) 1 (exprWithin depth power) := by
  induction depth generalizing power with
  | zero =>
    intro k reached c here
    have := here.bound
    omega
  | succ depth ih =>
    intro k reached
    exact delivers_exprWith ih power (by omega)

theorem lays_expr (power : Power) : Lays ts 0 1 (expr power) := by
  intro k _ c here
  have room := here.length
  have bound := here.bound
  exact lays_exprWithin (c.rest.length + 1) power k (by omega) c here

end FlowTypes.Grammar
