import FlowTypes.Proofs.ErrorLines

/-! Where a literal in three quotes ends. It ends at the first three quotes behind the opening ones,
with a backslash in front of them or not; where there are none, the first two quotes are read as an
empty literal. So it ends at the first three quotes that are not escaped exactly if the first three
quotes are such. -/
namespace FlowTypes

namespace Literal

variable {q : Char} {body content shorter marks : List Char} {n : Nat}

/-- A backslash escapes the character behind the text. -/
def Escapes (text : List Char) : Prop := (text.reverse.takeWhile (· = '\\')).length % 2 = 1

instance : DecidablePred Escapes := fun _ => inferInstanceAs (Decidable (_ = 1))

/-- Three quotes stand behind the content of a body. -/
def ClosesBehind (q : Char) (body content : List Char) : Prop := content ++ [q, q, q] <+: body

instance : DecidablePred (ClosesBehind q body) := fun content =>
  inferInstanceAs (Decidable (content ++ [q, q, q] <+: body))

/-- The first three quotes of those that count. -/
structure FirstClose (Counts : List Char → Prop) (q : Char) (body content : List Char) : Prop where
  closes : ClosesBehind q body content
  counts : Counts content
  first : ∀ shorter, ClosesBehind q body shorter → Counts shorter → content.length ≤ shorter.length

theorem ClosesBehind.eq_of_length (closes : ClosesBehind q body content)
    (closes' : ClosesBehind q body shorter) (same : content.length = shorter.length) :
    content = shorter := by
  have start := (List.prefix_append content [q, q, q]).trans closes
  have start' := (List.prefix_append shorter [q, q, q]).trans closes'
  rw [List.prefix_iff_eq_take.mp start, List.prefix_iff_eq_take.mp start', same]

/-- Among quotes that count there are first ones. -/
theorem exists_firstClose (Counts : List Char → Prop) (closes : ClosesBehind q body content)
    (counts : Counts content) : ∃ first, FirstClose Counts q body first := by
  induction size : content.length using Nat.strong_induction_on generalizing content with
  | _ n ih =>
    by_cases least : ∀ shorter, ClosesBehind q body shorter → Counts shorter →
        content.length ≤ shorter.length
    · exact ⟨content, closes, counts, least⟩
    · push Not at least
      obtain ⟨shorter, closes', counts', less⟩ := least
      exact ih _ (size ▸ less) closes' counts' rfl

theorem firstClose_take (n : Nat) (closes : ClosesBehind q body (body.take n))
    (counts : Counts (body.take n))
    (earlier : ∀ k < n, ClosesBehind q body (body.take k) → ¬ Counts (body.take k)) :
    FirstClose Counts q body (body.take n) := by
  refine ⟨closes, counts, fun shorter closes' counts' => ?_⟩
  by_contra less
  have start := List.prefix_iff_eq_take.mp ((List.prefix_append shorter [q, q, q]).trans closes')
  refine earlier shorter.length ?_ (start ▸ closes') (start ▸ counts')
  exact Nat.lt_of_lt_of_le (Nat.not_le.mp less) (List.length_take_le n body)

theorem closeTriple_of_firstClose (close : FirstClose (fun _ => True) q body content) :
    closeTriple q n body = some (n + content.length + 3) := by
  induction content generalizing n body with
  | nil =>
    obtain ⟨rest, rfl⟩ := close.closes
    simp [closeTriple]
  | cons c content ih =>
    obtain ⟨rest, rfl⟩ := close.closes
    have later : ¬ (c = q && (content ++ [q, q, q] ++ rest).take 2 = [q, q]) = true := by
      simp only [Bool.and_eq_true, decide_eq_true_eq]
      rintro ⟨rfl, two⟩
      have here : ClosesBehind c (c :: content ++ [c, c, c] ++ rest) [] := by
        refine List.cons_prefix_cons.mpr ⟨rfl, List.prefix_iff_eq_take.mpr ?_⟩
        exact two.symm
      exact absurd (close.first [] here trivial) (by simp)
    have inner : FirstClose (fun _ => True) q (content ++ [q, q, q] ++ rest) content := by
      refine ⟨⟨rest, rfl⟩, trivial, fun shorter closes _ => Nat.le_of_succ_le_succ ?_⟩
      exact close.first (c :: shorter) (List.cons_prefix_cons.mpr ⟨rfl, closes⟩) trivial
    rw [List.cons_append, List.cons_append, closeTriple, if_neg later, ih inner, List.length_cons]
    congr 1
    omega

theorem closeTriple_eq_none (open_ : ∀ content, ¬ ClosesBehind q body content) :
    closeTriple q n body = none := by
  cases found : closeTriple q n body with
  | none => rfl
  | some k =>
    obtain ⟨content, rest, rfl, -⟩ := closeTriple_eq_some found
    exact absurd ⟨rest, by simp⟩ (open_ content)

theorem opening?_append (few : marks.length ≤ 2) (areMarks : ∀ c ∈ marks, isMark c)
    (isQuote : isQuote q) : opening? (marks ++ q :: body) = some (marks.length, q) := by
  have noMark : isMark q = false := by
    cases mark : isMark q with
    | false => rfl
    | true => exact absurd isQuote (by simp [not_isQuote_of_isMark mark])
  have leading : ((marks ++ q :: body).take 2).takeWhile isMark = marks := by
    rw [List.take_append, List.take_of_length_le few, List.takeWhile_append_of_pos areMarks]
    cases size : 2 - marks.length with
    | zero => simp
    | succ n => simp [noMark]
  simp only [opening?, leading, List.drop_left, isQuote, if_true]

end Literal

namespace Lexer

open Literal

variable {s t : Lexer} {q : Char} {marks body content : List Char}

/-- A literal in three quotes starts here: marks, the quotes, and all that follows them. -/
structure AtTriple (s : Lexer) (marks : List Char) (q : Char) (body : List Char) : Prop where
  inside : ¬ s.AtLine
  rest : s.rest = marks ++ ([q, q, q] ++ body)
  few : marks.length ≤ 2
  areMarks : ∀ c ∈ marks, isMark c
  isQuote : isQuote q

/-- The token for a literal with these marks, quotes and content, which starts here. -/
def takeLiteral (s : Lexer) (marks quote content : List Char) : Lexer :=
  s.take .string (if 'r' ∈ marks ∨ 'R' ∈ marks then content else unescape content)
    (marks ++ (quote ++ (content ++ quote))).length

theorem AtTriple.readHead (triple : s.AtTriple marks q body) (after : List Char)
    (shape : quote = [q, q, q] ∨ quote = [q] ∧ ¬ [q, q, q] <+: quote ++ (content ++ quote))
    (whole : [q, q, q] ++ body = quote ++ (content ++ quote) ++ after)
    (length : bodyLength? q ([q, q, q] ++ body) = some (quote ++ (content ++ quote)).length) :
    s.readHead = .ok (s.takeLiteral marks quote content) := by
  have opens : opening? s.rest = some (marks.length, q) :=
    triple.rest ▸ opening?_append triple.few triple.areMarks triple.isQuote
  have size : Literal.length s.rest = (marks ++ (quote ++ (content ++ quote))).length := by
    have dropped : s.rest.drop marks.length = [q, q, q] ++ body := by
      rw [triple.rest, List.drop_left]
    simp only [Literal.length, opens, dropped, length, List.length_append]
  have positive : Literal.length s.rest ≠ 0 := by
    rw [size]
    rcases shape with rfl | ⟨rfl, -⟩ <;> simp
  have quoted : Quoted (s.rest.take (Literal.length s.rest)) marks quote content := by
    refine ⟨?_, triple.few, triple.areMarks, q, triple.isQuote, shape⟩
    rw [size, triple.rest, whole, ← List.append_assoc marks (quote ++ (content ++ quote)),
      List.take_left]
  rw [readHead_literal positive, quoted.value_eq, size]
  rfl

theorem AtTriple.readHead_of_firstClose (triple : s.AtTriple marks q body)
    (close : FirstClose (fun _ => True) q body content) :
    s.readHead = .ok (s.takeLiteral marks [q, q, q] content) := by
  obtain ⟨after, whole⟩ := close.closes
  refine triple.readHead after (.inl rfl) (by simp [← whole]) ?_
  simp [bodyLength?, closeTriple_of_firstClose close]
  omega

/-- Without an end, the first two quotes are an empty literal. -/
theorem AtTriple.readHead_of_open (triple : s.AtTriple marks q body)
    (unclosed : ∀ content, ¬ ClosesBehind q body content) :
    s.readHead = .ok (s.takeLiteral marks [q] []) := by
  refine triple.readHead (q :: body) (.inr ⟨rfl, ?_⟩) (by simp) ?_
  · exact fun starts => absurd starts.length_le (by simp)
  · simp [bodyLength?, closeTriple_eq_none unclosed, closeSingle_quote triple.isQuote]

/-- What a literal in three quotes would be if escaped quotes did not close it: it ends at the first
three quotes that are not escaped, and is refused where it starts if there are none. -/
def EndsUnescaped (source file : String) (s : Lexer) (marks : List Char) (q : Char)
    (body : List Char) : Prop :=
  (∀ content, FirstClose (¬ Escapes ·) q body content →
    s.readHead = .ok (s.takeLiteral marks [q, q, q] content)) ∧
  ((∀ content, ClosesBehind q body content → Escapes content) →
    tokenize source file = .error ⟨.unterminatedString, s.position⟩)

theorem Rejects.offset_le (rejects : s.Rejects e) : s.offset ≤ e.position.offset := by
  cases rejects with
  | reads _ _ failed => exact (congrArg Position.offset (error_of_readHead failed).2).ge
  | opens _ _ failed =>
    simp only [openLine] at failed
    split at failed
    · cases failed
    · split at failed
      · cases failed
      · split at failed
        · cases failed
          exact Nat.le_add_right _ _
        · cases failed

theorem Reaches.offset_le (path : Reaches s t) : s.offset ≤ t.offset := by
  obtain ⟨taken, -, offset⟩ := path.pieces.moves
  omega

theorem tokenize_ne_error {file : String} (path : Reaches { file, rest := source.toList } s)
    (move : Move s t) (moved : s.offset < t.offset) (here : e.position = s.position) :
    tokenize source file ≠ .error e := by
  rw [ne_eq, tokenize_eq_error_iff, ← run_eq_error_iff, run_of_reaches path, run_of_move move,
    run_eq_error_iff]
  rintro ⟨u, further, rejects⟩
  have ahead := further.offset_le.trans rejects.offset_le
  rw [here] at ahead
  exact absurd moved (Nat.not_lt.mpr ahead)

theorem AtTriple.tokenize_ne_error (triple : s.AtTriple marks q body) {file : String}
    (path : Reaches { file, rest := source.toList } s) (here : e.position = s.position) :
    tokenize source file ≠ .error e := by
  have more : s.rest ≠ [] := by simp [triple.rest]
  obtain ⟨t, read⟩ : ∃ t, s.readHead = .ok t := by
    by_cases closed : ∃ content, ClosesBehind q body content
    · obtain ⟨content, closes⟩ := closed
      obtain ⟨first, close⟩ := exists_firstClose (fun _ => True) closes trivial
      exact ⟨_, triple.readHead_of_firstClose close⟩
    · exact ⟨_, triple.readHead_of_open (not_exists.mp closed)⟩
  refine Lexer.tokenize_ne_error path (.reads more triple.inside read) ?_ here
  exact offset_step_lt more ((step_of_not_atLine triple.inside).trans read)

/-- Where a literal ends tells its content. -/
theorem AtTriple.content_eq (triple : s.AtTriple marks q body)
    (closes : ClosesBehind q body content) (closes' : ClosesBehind q body other)
    (same : s.takeLiteral marks [q, q, q] content = s.takeLiteral marks [q, q, q] other) :
    content = other := by
  have left : ∀ text, ClosesBehind q body text → (s.takeLiteral marks [q, q, q] text).rest.length +
      (marks.length + (text.length + 6)) = s.rest.length := by
    rintro text ⟨after, rfl⟩
    simp only [takeLiteral, rest_take, triple.rest, List.length_drop, List.length_append,
      List.length_cons, List.length_nil]
    omega
  refine closes.eq_of_length closes' ?_
  have size := left content closes
  have size' := left other closes'
  rw [same] at size
  omega

end Lexer

open Lexer Literal

/-- A literal in three quotes ends at the first three quotes behind them, and without any the first two
quotes are an empty literal. It is read as if escaped quotes did not close it exactly if the first three
quotes are there and are not escaped. -/
theorem triple_quotes_end {source file : String} {s : Lexer} {marks body : List Char} {q : Char}
    (path : Reaches { file, rest := source.toList } s) (triple : s.AtTriple marks q body) :
    (∀ content, FirstClose (fun _ => True) q body content →
      s.readHead = .ok (s.takeLiteral marks [q, q, q] content)) ∧
    ((∀ content, ¬ ClosesBehind q body content) →
      s.readHead = .ok (s.takeLiteral marks [q] [])) ∧
    (EndsUnescaped source file s marks q body ↔
      ∃ content, FirstClose (fun _ => True) q body content ∧ ¬ Escapes content) := by
  refine ⟨fun content => triple.readHead_of_firstClose, triple.readHead_of_open, ?_, ?_⟩
  · rintro ⟨ends, refused⟩
    have closed : ∃ content, ClosesBehind q body content ∧ ¬ Escapes content := by
      by_contra none
      push Not at none
      exact triple.tokenize_ne_error path rfl (refused none)
    obtain ⟨some, closes, unescaped⟩ := closed
    obtain ⟨content, close⟩ := exists_firstClose (fun _ => True) closes trivial
    obtain ⟨content', close'⟩ := exists_firstClose (¬ Escapes ·) closes unescaped
    have read := (triple.readHead_of_firstClose close).symm.trans (ends content' close')
    have same := triple.content_eq close.closes close'.closes (Except.ok.inj read)
    exact ⟨content, close, same ▸ close'.counts⟩
  · rintro ⟨content, close, unescaped⟩
    refine ⟨fun content' close' => ?_, fun escaped => ?_⟩
    · have least := close.first _ close'.closes trivial
      have least' := close'.first _ close.closes unescaped
      rw [close'.closes.eq_of_length close.closes (Nat.le_antisymm least' least)]
      exact triple.readHead_of_firstClose close
    · exact absurd (escaped content close.closes) unescaped

/-- The reader in front of the first token of a text. -/
def Lexer.atStart (source : String) : Lexer := { file := "m", rest := source.toList, atLineStart := false }

/-- A raw literal with two quotes in a row, an escaped quote and a quote inside. -/
def Text.rawTriple : String := "r\"\"\"a\"\"\\\"b\"\"\" + c"

theorem rawTriple_end : ∃ body,
    Reaches { file := "m", rest := Text.rawTriple.toList } (atStart Text.rawTriple) ∧
    (atStart Text.rawTriple).AtTriple ['r'] '"' body ∧
    EndsUnescaped Text.rawTriple "m" (atStart Text.rawTriple) ['r'] '"' body := by
  have path : Reaches { file := "m", rest := Text.rawTriple.toList } (atStart Text.rawTriple) :=
    .single (.opens (by decide) ⟨rfl, rfl⟩ rfl)
  have triple : (atStart Text.rawTriple).AtTriple ['r'] '"' "a\"\"\\\"b\"\"\" + c".toList :=
    ⟨by simp [AtLine, atStart], by decide, by decide, by simp [isMark], rfl⟩
  have close : FirstClose (fun _ => True) '"' "a\"\"\\\"b\"\"\" + c".toList _ :=
    firstClose_take 6 (by decide) trivial (by decide)
  exact ⟨_, path, triple, (triple_quotes_end path triple).2.2.mpr ⟨_, close, by decide⟩⟩

/-- A literal with three quotes inside, of which the first is escaped. -/
def Text.escapedTriple : String := "\x27\x27\x27a\\\x27\x27\x27b\x27\x27\x27"

/-- A literal without an end. -/
def Text.openTriple : String := "\"\"\"a\""

/-- The escaped quotes close the one literal. The other is read as two literals, without an error. -/
theorem triple_quotes_misread :
    (∃ body, Reaches { file := "m", rest := Text.escapedTriple.toList } (atStart Text.escapedTriple) ∧
      (atStart Text.escapedTriple).AtTriple [] '\x27' body ∧
      ¬ EndsUnescaped Text.escapedTriple "m" (atStart Text.escapedTriple) [] '\x27' body) ∧
    ∃ body, Reaches { file := "m", rest := Text.openTriple.toList } (atStart Text.openTriple) ∧
      (atStart Text.openTriple).AtTriple [] '"' body ∧
      ¬ EndsUnescaped Text.openTriple "m" (atStart Text.openTriple) [] '"' body := by
  constructor
  · have triple : (atStart Text.escapedTriple).AtTriple [] '\x27'
        "a\\\x27\x27\x27b\x27\x27\x27".toList :=
      ⟨by simp [AtLine, atStart], by decide, by decide, nofun, rfl⟩
    refine ⟨_, .single (.opens (by decide) ⟨rfl, rfl⟩ rfl), triple, fun ends => ?_⟩
    have close : FirstClose (fun _ => True) '\x27' "a\\\x27\x27\x27b\x27\x27\x27".toList _ :=
      firstClose_take 2 (by decide) trivial (by decide)
    have close' : FirstClose (¬ Escapes ·) '\x27' "a\\\x27\x27\x27b\x27\x27\x27".toList _ :=
      firstClose_take 6 (by decide) (by decide) (by decide)
    have read := (triple.readHead_of_firstClose close).symm.trans (ends.1 _ close')
    exact absurd (triple.content_eq close.closes close'.closes (Except.ok.inj read)) (by decide)
  · have triple : (atStart Text.openTriple).AtTriple [] '"' "a\"".toList :=
      ⟨by simp [AtLine, atStart], by decide, by decide, nofun, rfl⟩
    refine ⟨_, .single (.opens (by decide) ⟨rfl, rfl⟩ rfl), triple, fun ends => ?_⟩
    have unclosed : ∀ content, ¬ ClosesBehind '"' "a\"".toList content := by
      intro content closes
      have := closes.length_le
      simp at this
    have failed := ends.2 fun content closes => absurd closes (unclosed content)
    have isOk : (tokenize Text.openTriple "m").isOk = true := by decide +kernel
    rw [failed] at isOk
    cases isOk

end FlowTypes
