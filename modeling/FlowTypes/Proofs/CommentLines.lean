import FlowTypes.Proofs.Lossless
import FlowTypes.Proofs.Respelling

/-! Lines with nothing but blanks and a comment are not seen. Such a line may be put wherever a line
starts outside of brackets. In front of it the readers of the two texts move in step, since no search
that starts there ends differently for a line without quotes; the line itself is left behind with
nothing but its place changed; and behind it both have the same text left. -/
namespace FlowTypes

namespace Literal

variable {q : Char} {a b r r' : List Char} {n k : Nat}

theorem closeTriple_append (isQuote : isQuote q) : closeTriple q n (b ++ '\n' :: r) =
    (closeTriple q n b).or (closeTriple q (n + b.length + 1) r) := by
  have other : '\n' ≠ q := by rintro rfl; cases isQuote
  induction b generalizing n with
  | nil => simp [closeTriple, other]
  | cons c b ih =>
    have two : (b ++ '\n' :: r).take 2 = [q, q] ↔ b.take 2 = [q, q] :=
      Shape.take_eq_quotes b isQuote .feed
    simp only [List.cons_append, closeTriple, two, List.length_cons]
    split
    · rfl
    · rw [ih, show n + 1 + b.length + 1 = n + (b.length + 1) + 1 by omega]

theorem closeTriple_none (unclosed : closeTriple q n cs = none) (k : Nat) :
    closeTriple q k cs = none := by
  induction cs generalizing n k with
  | nil => rfl
  | cons c cs ih =>
    rw [closeTriple] at unclosed ⊢
    split at unclosed
    · cases unclosed
    · next other =>
      rw [if_neg other]
      exact ih unclosed _

theorem closeTriple_quiet (quiet : q ∉ b) : closeTriple q n b = none := by
  cases found : closeTriple q n b with
  | none => rfl
  | some k =>
    obtain ⟨content, rest, rfl, -⟩ := closeTriple_eq_some found
    simp at quiet

theorem closeSingle_append (isQuote : isQuote q) (found : closeSingle q n (a ++ r) = some k)
    (inside : k ≤ n + a.length) : closeSingle q n (a ++ r') = some k := by
  fun_induction closeSingle q n a with
  | case1 n =>
    have := lt_of_closeSingle found
    simp only [List.length_nil] at inside
    omega
  | case2 n c a ih =>
    simp only [List.cons_append, closeSingle, List.length_cons] at found inside ⊢
    exact ih found (by omega)
  | case3 n a =>
    rw [List.cons_append, closeSingle_quote isQuote] at found ⊢
    exact found
  | case4 n c a lone other ends =>
    by_cases escape : c = '\\'
    · subst escape
      have none : a = [] := by
        cases a with
        | nil => rfl
        | cons d a => exact absurd rfl (lone d a rfl)
      subst none
      cases r with
      | nil => simp [closeSingle, other] at found
      | cons d r =>
        have := lt_of_closeSingle (n := n + 2) found
        simp only [List.length_cons, List.length_nil] at inside
        omega
    · rw [List.cons_append, closeSingle_cons escape, if_neg other] at found
      simp [escape] at ends
      simp [ends] at found
  | case5 n c a _ other plain ih =>
    simp only [Bool.or_eq_true, decide_eq_true_eq, not_or] at plain
    rw [List.cons_append, closeSingle_cons plain.1.1, if_neg other, if_neg (by simp [plain])] at found ⊢
    rw [List.length_cons] at inside
    exact ih found (by omega)

theorem bodyLength?_insert (isQuote : Literal.isQuote q) (quiet : q ∉ l)
    (found : bodyLength? q (q :: (b ++ '\n' :: r)) = some k) (inside : k ≤ b.length + 2) :
    bodyLength? q (q :: (b ++ '\n' :: (l ++ '\n' :: r))) = some k := by
  have three : ∀ r, (q :: (b ++ '\n' :: r)).take 3 = [q, q, q] ↔ (q :: b).take 3 = [q, q, q] :=
    fun r => Shape.take_eq_quotes (q :: b) isQuote .feed
  simp only [bodyLength?, three, List.drop_one, List.tail_cons] at found ⊢
  split at found
  · next triple =>
    obtain ⟨b, rfl⟩ := exists_of_take_three triple
    simp only [List.cons_append, List.drop_succ_cons, List.drop_zero, closeTriple_append isQuote,
      closeTriple_quiet quiet, closeSingle_quote isQuote, Option.none_or] at found ⊢
    rw [if_pos triple]
    cases here : closeTriple q 3 b with
    | some j => simpa [here] using found
    | none =>
      cases later : closeTriple q (3 + b.length + 1) r with
      | some j =>
        obtain ⟨content, rest, -, rfl⟩ := closeTriple_eq_some later
        simp only [here, later, Option.none_or, Option.some_or, Option.some.injEq,
          List.length_cons] at found inside
        omega
      | none => simpa [here, later, closeTriple_none later] using found
  · next single =>
    rw [if_neg single]
    have split : ∀ x, b ++ '\n' :: x = (b ++ ['\n']) ++ x := by simp
    rw [split] at found ⊢
    exact closeSingle_append isQuote found (by simp; omega)

theorem length_insert (quiet : ∀ c ∈ l, isQuote c = false)
    (inside : length (b ++ '\n' :: r) ≤ b.length + 1) (found : length (b ++ '\n' :: r) ≠ 0) :
    length (b ++ '\n' :: (l ++ '\n' :: r)) = length (b ++ '\n' :: r) := by
  simp only [length, Shape.opening?_append .feed] at found inside ⊢
  cases opens : opening? b with
  | none => rfl
  | some start =>
    obtain ⟨marks, q⟩ := start
    obtain ⟨isQuote, ⟨tail, body⟩, -⟩ := opening?_eq_some opens
    have size := congrArg List.length body
    rw [List.length_drop, List.length_cons] at size
    have dropped : ∀ x, (b ++ '\n' :: x).drop marks = q :: (tail ++ '\n' :: x) := fun x => by
      rw [List.drop_append_of_le_length (by omega), body, List.cons_append]
    simp only [opens, dropped] at found inside ⊢
    cases closes : bodyLength? q (q :: (tail ++ '\n' :: r)) with
    | none => simp [closes] at found
    | some k =>
      simp only [closes] at inside
      have other : q ∉ l := fun member => by simp [quiet q member] at isQuote
      rw [bodyLength?_insert isQuote other closes (by omega)]

end Literal

namespace Shape

variable {b l r : List Char}

theorem lineBreakLength_append :
    lineBreakLength (b ++ '\n' :: r) = lineBreakLength (b ++ ['\n']) := by
  rcases b with _ | ⟨c, b⟩
  · rfl
  · by_cases feed : c = '\n'
    · subst feed
      rfl
    · by_cases ret : c = '\r'
      · subst ret
        rcases b with _ | ⟨d, b⟩
        · rfl
        · by_cases feed : d = '\n' <;> simp [lineBreakLength, feed]
      · simp [lineBreakLength, feed, ret]

theorem gapLength_append : gapLength (b ++ '\n' :: r) = gapLength (b ++ ['\n']) := by
  have run : ∀ (p : Char → Bool) (cs : List Char), p '\r' = false ∧ p '\n' = false →
      runLength p (cs ++ '\n' :: r) = runLength p (cs ++ ['\n']) := fun p cs ends => by
    rw [runLength_append .feed ends, runLength_append .feed ends]
  cases b with
  | nil => rfl
  | cons c b =>
    by_cases comment : c = '#'
    · subst comment
      simp only [List.cons_append, gapLength]
      rw [run _ b (by decide)]
    · by_cases joins : c = '\\'
      · subst joins
        simp only [List.cons_append, gapLength, lineBreakLength_append]
      · have own := run isSpace (c :: b) (by decide)
        simp only [List.cons_append] at own ⊢
        simp [gapLength, comment, joins, own]

end Shape

/-- A line with nothing but blanks, or with a comment behind them in which there are no quotes. -/
inductive IdleLine : List Char → Prop
  | blank {blank : List Char} (blanks : ∀ c ∈ blank, Shape.isSpace c) : IdleLine (blank ++ ['\n'])
  | comment {blank text : List Char} (blanks : ∀ c ∈ blank, Shape.isSpace c)
      (plain : ∀ c ∈ text, ¬ Shape.isBreak c ∧ ¬ Literal.isQuote c) :
      IdleLine (blank ++ '#' :: (text ++ ['\n']))

theorem IdleLine.quiet (idle : IdleLine line) :
    ∃ l, line = l ++ ['\n'] ∧ ∀ c ∈ l, Literal.isQuote c = false := by
  have spaces : ∀ c, Shape.isSpace c → Literal.isQuote c = false := by
    intro c isSpace
    simp only [Shape.isSpace, Bool.or_eq_true, decide_eq_true_eq] at isSpace
    rcases isSpace with (rfl | rfl) | rfl <;> rfl
  cases idle with
  | blank blanks => exact ⟨_, rfl, fun c member => spaces c (blanks c member)⟩
  | @comment blank text blanks plain =>
    refine ⟨blank ++ '#' :: text, by simp, fun c member => ?_⟩
    simp only [List.mem_append, List.mem_cons] at member
    rcases member with inBlank | rfl | inText
    · exact spaces c (blanks c inBlank)
    · rfl
    · simpa using (plain c inText).2

namespace Lexer

variable {shown : Kind → String → String} {s t u : Lexer} {l r : List Char}

/-- Behind the same text up to the end of a line, the second text has one line more. -/
def Inserted (l r cs cs' : List Char) : Prop :=
  ∃ a, cs = a ++ r ∧ cs' = a ++ (l ++ '\n' :: r) ∧ (a = [] ∨ ∃ b, a = b ++ ['\n'])

theorem Inserted.drop (inside : n ≤ b.length + 1) :
    Inserted l r ((b ++ '\n' :: r).drop n) ((b ++ '\n' :: (l ++ '\n' :: r)).drop n) := by
  have split : ∀ x, (b ++ '\n' :: x).drop n = (b ++ ['\n']).drop n ++ x := fun x => by
    rw [← List.drop_append_of_le_length (by simpa using inside)]
    simp
  refine ⟨(b ++ ['\n']).drop n, split _, split _, ?_⟩
  by_cases whole : n = b.length + 1
  · exact .inl (by simp [whole])
  · exact .inr ⟨b.drop n, List.drop_append_of_le_length (by omega)⟩

theorem isIdleLine_append : isIdleLine (b ++ '\n' :: r) = isIdleLine (b ++ ['\n']) := by
  cases b with
  | nil => rfl
  | cons c b =>
    have ending : Shape.lineBreakLength (c :: (b ++ '\n' :: r)) =
        Shape.lineBreakLength (c :: (b ++ ['\n'])) := Shape.lineBreakLength_append (b := c :: b)
    simp [isIdleLine, ending]

theorem first?_insert (quiet : ∀ c ∈ l, Literal.isQuote c = false)
    (found : Shape.first? (b ++ '\n' :: r) = some (shape, n)) (closed : shape ≠ .openString)
    (inside : n ≤ b.length + 1) :
    Shape.first? (b ++ '\n' :: (l ++ '\n' :: r)) = some (shape, n) := by
  suffices same : ∀ other ∈ Shape.all, other.length (b ++ '\n' :: (l ++ '\n' :: r)) =
      other.length (b ++ '\n' :: r) by
    rw [Shape.first?_congr id (fun _ _ => .rfl) same, found]
    rfl
  intro other listed
  cases inLine : other.isInLine with
  | true =>
    have inFirst := Shape.inLine_length listed inLine
    rw [inFirst.append .feed, inFirst.append .feed]
  | false =>
    cases other with
    | gap => exact Shape.gapLength_append.trans Shape.gapLength_append.symm
    | lineBreak => exact Shape.lineBreakLength_append.trans Shape.lineBreakLength_append.symm
    | string =>
      by_cases literal : Literal.length (b ++ '\n' :: r) = 0
      · cases opens : Literal.opening? b with
        | none => simp [Shape.length, Literal.length, Shape.opening?_append .feed, opens]
        | some start =>
          rw [← Shape.opening?_append (.feed : Shape.Stops ('\n' :: r))] at opens
          cases found.symm.trans (Shape.first?_openString opens literal)
          contradiction
      · cases found.symm.trans (Shape.first?_literal literal)
        exact Literal.length_insert quiet inside literal
    | _ => cases inLine

theorem InStep.move_inserted (quiet : ∀ c ∈ l, Literal.isQuote c = false)
    (inStep : InStep (Inserted l r) shown s t) (move : Move s u) (before : r.length < s.rest.length)
    (later : r.length ≤ u.rest.length) : ∃ v, Move t v ∧ InStep (Inserted l r) shown u v := by
  obtain ⟨b, here, there⟩ : ∃ b, s.rest = b ++ '\n' :: r ∧ t.rest = b ++ '\n' :: (l ++ '\n' :: r) := by
    obtain ⟨a, here, there, rfl | ⟨b, rfl⟩⟩ := inStep.rest
    · rw [here, List.nil_append] at before
      exact absurd before (Nat.lt_irrefl _)
    · exact ⟨b, by simpa using here, by simpa using there⟩
  refine inStep.move (by simp [there]) (fun _ => ?_) (fun _ {shape n} found read => ⟨n, ?_⟩) move
  · rw [here, there]
    have blank : ∀ x, (b ++ '\n' :: x).takeWhile Shape.isSpace = b.takeWhile Shape.isSpace := fun x =>
      Shape.takeWhile_append .feed (by decide)
    have few : (b.takeWhile Shape.isSpace).length ≤ b.length := (List.takeWhile_prefix _).length_le
    refine ⟨by rw [blank, blank], ?_, ?_⟩
    · rw [blank]
      exact .drop (by omega)
    · rw [blank, List.drop_append_of_le_length few, List.drop_append_of_le_length few]
      exact isIdleLine_append.trans isIdleLine_append.symm
  · have inside : n ≤ b.length + 1 := by
      obtain ⟨member, rfl, -⟩ := Shape.first?_eq_some found
      have bound := Shape.length_le s.rest member
      rw [rest_readShape read, List.length_drop] at later
      have size : s.rest.length = b.length + (r.length + 1) := by simp [here]
      omega
    have same : ∀ x, (b ++ '\n' :: x).take n = (b ++ ['\n']).take n := fun x => by
      have split : b ++ '\n' :: x = (b ++ ['\n']) ++ x := by simp
      rw [split, List.take_append_of_le_length (by simpa using inside)]
    rw [here] at found
    rw [here, there]
    refine ⟨first?_insert quiet found ?_ inside, .drop inside, fun _ => ?_, fun _ => ?_⟩
    · rintro rfl
      cases read
    · rw [same, same r]
    · rw [same, same r]

theorem Reaches.length_le (path : Reaches s u) : u.rest.length ≤ s.rest.length := by
  obtain ⟨taken, rest, -⟩ := path.pieces.moves
  rw [rest, List.length_append]
  omega

/-- At the start of a line the reader has either not moved or left more text behind. -/
theorem Reaches.eq_or_lt (path : Reaches s u) (starts : u.AtLine) :
    s = u ∨ u.rest.length < s.rest.length := by
  induction path using Relation.ReflTransGen.head_induction_on with
  | refl => exact .inl rfl
  | @head s v move further ih =>
    right
    cases move with
    | opens _ _ opened =>
      have shorter := Reaches.length_le (.single (.opens ‹_› ‹_› opened))
      rcases ih with rfl | less
      · exact absurd starts.1 (by simp [atLineStart_openLine opened])
      · omega
    | reads more _ read =>
      have shorter := readHead_shorter more read
      have := Reaches.length_le further
      omega

theorem InStep.reaches_inserted (quiet : ∀ c ∈ l, Literal.isQuote c = false)
    (inStep : InStep (Inserted l r) shown s t) (path : Reaches s u) (starts : u.AtLine)
    (here : u.rest = r) : ∃ v, Reaches t v ∧ InStep (Inserted l r) shown u v := by
  induction path using Relation.ReflTransGen.head_induction_on generalizing t with
  | refl => exact ⟨t, .refl, inStep⟩
  | @head s w move further ih =>
    have later : r.length ≤ w.rest.length := here ▸ Reaches.length_le further
    rcases Reaches.eq_or_lt (further.head move) starts with rfl | before
    · exact ⟨t, .refl, inStep⟩
    · obtain ⟨v, move', inStep'⟩ := inStep.move_inserted quiet move (here ▸ before) later
      obtain ⟨v', path', inStep''⟩ := ih inStep'
      exact ⟨v', path'.head move', inStep''⟩

/-- In front of a line that starts behind another there is a line feed. -/
theorem Reaches.ends_line (path : Reaches s u) (lined : Lined s) (starts : u.AtLine) :
    s = u ∨ ∃ b, s.rest = b ++ '\n' :: u.rest := by
  rcases path.cases_tail with rfl | ⟨v, before, last⟩
  · exact .inl rfl
  right
  cases last with
  | opens _ _ opened => exact absurd starts.1 (by simp [atLineStart_openLine opened])
  | reads more inside read =>
    have settled : v.atLineStart = false := by
      by_contra isStart
      have isStart : v.atLineStart = true := by simpa using isStart
      exact inside ⟨isStart, ((lined.reaches before).fresh isStart).1⟩
    cases found : Shape.first? v.rest with
    | none =>
      obtain ⟨e, failed⟩ := readHead_of_unread more found
      cases failed.symm.trans read
    | some pair =>
      obtain ⟨shape, n⟩ := pair
      obtain ⟨-, rfl, positive⟩ := Shape.first?_eq_some found
      have read := (readHead_of_first? found).symm.trans read
      have rest := rest_readShape read
      have isBreak : LineBreak (v.rest.take (shape.length v.rest)) := by
        cases shape with
        | lineBreak => exact Shape.lineBreak_of_length positive
        | openString => cases read
        | _ =>
          cases read
          exact absurd starts.1 (by simp [take, push, advance, settled])
      obtain ⟨taken, whole, -⟩ := (Reaches.pieces before).moves
      have split : v.rest = v.rest.take (shape.length v.rest) ++ u.rest := by
        rw [rest, List.take_append_drop]
      generalize v.rest.take (shape.length v.rest) = ending at isBreak split
      cases isBreak with
      | lf => exact ⟨taken, by rw [whole, split]; rfl⟩
      | crlf => exact ⟨taken ++ ['\r'], by rw [whole, split]; simp⟩

theorem openLine_idle (here : t.rest = blank ++ text)
    (blanks : ∀ c ∈ blank, Shape.isSpace c) (ends : text.takeWhile Shape.isSpace = [])
    (idle : isIdleLine text = true) :
    t.openLine = .ok ({ t with atLineStart := false }.advance blank.length) := by
  have taken : t.rest.takeWhile Shape.isSpace = blank := by
    rw [here, List.takeWhile_append_of_pos blanks, ends, List.append_nil]
  have behind : t.rest.drop blank.length = text := by rw [here, List.drop_left]
  simp only [openLine, taken, behind, idle, if_true]

theorem move_blank (settled : t.atLineStart = false) (outside : t.depth = 0)
    (between : t.midLine = false) (here : t.rest = '\n' :: r) :
    Move t { t.advance 1 with atLineStart := true } := by
  have found : Shape.first? t.rest = some (.lineBreak, 1) := by rw [here]; rfl
  refine .reads (by simp [here]) (by simp [AtLine, settled]) ?_
  rw [readHead_of_first? found]
  simp [readShape, closeLine, outside, between]

theorem reaches_idle (idle : IdleLine line) (starts : t.AtLine) (between : t.midLine = false)
    (here : t.rest = line ++ r) : ∃ v, Reaches t v ∧ v.rest = r ∧ Alike shown t v := by
  have more : t.rest ≠ [] := by cases idle <;> simp [here]
  cases idle with
  | @blank blank blanks =>
    have opened := openLine_idle (by simpa using here) blanks rfl rfl
    have rest : t.rest.drop blank.length = '\n' :: r := by simp [here]
    refine ⟨_, .head (.opens more starts opened)
      (.single (move_blank rfl starts.2 between rest)), ?_, ?_⟩
    · exact congrArg (List.drop 1) rest
    · exact ⟨rfl, rfl, starts.1.symm, rfl⟩
  | @comment blank text blanks plain =>
    have opened := openLine_idle (by simpa using here) blanks rfl rfl
    have rest : t.rest.drop blank.length = '#' :: (text ++ '\n' :: r) := by simp [here]
    have size : Shape.gapLength ('#' :: (text ++ '\n' :: r)) = 1 + text.length := by
      have inside : ∀ c ∈ text, (!Shape.isBreak c) = true := fun c member => by
        simpa using (plain c member).1
      rw [Shape.gapLength, Shape.runLength, List.takeWhile_append_of_pos inside]
      simp [Shape.isBreak]
    have found : Shape.first? (t.rest.drop blank.length) = some (.gap, 1 + text.length) := by
      simp [rest, Shape.first?, Shape.all, Shape.length, size]
    have behind : (t.rest.drop blank.length).drop (1 + text.length) = '\n' :: r := by
      rw [rest, Nat.add_comm, List.drop_succ_cons, List.drop_left]
    have skips : Move ({ t with atLineStart := false }.advance blank.length)
        (({ t with atLineStart := false }.advance blank.length).advance (1 + text.length)) :=
      .reads (by simp [rest]) (by simp [AtLine, advance])
        (readHead_of_first? (s := { t with atLineStart := false }.advance blank.length) found)
    refine ⟨_, .head (.opens more starts opened) (.head skips
      (.single (move_blank rfl starts.2 between behind))), ?_, ?_⟩
    · exact congrArg (List.drop 1) behind
    · exact ⟨rfl, rfl, starts.1.symm, rfl⟩

end Lexer

/-- A line without anything but blanks and a comment may be put in front of any line: the text can be
read as before, and its tokens differ in nothing but their places. -/
theorem idle_line_unseen {before after line file : String} {s : Lexer}
    (path : Lexer.Reaches { file, rest := (before ++ after).toList } s)
    (here : s.offset = before.utf8ByteSize) (starts : s.AtLine) (idle : IdleLine line.toList) :
    words (fun _ value => value) (before ++ line ++ after) file =
      words (fun _ value => value) (before ++ after) file := by
  have lined := Lexer.Lined.initial (before ++ after).toList file
  obtain ⟨taken, whole, offset⟩ := path.pieces.moves
  have same : taken = before.toList := by
    refine Text.eq_of_byteSize_eq (x := s.rest) (y := after.toList) ?_ ?_
    · rw [← whole, String.toList_append]
    · rw [Text.byteSize_eq_utf8ByteSize before.toList, String.ofList_toList, ← here, offset,
        Nat.zero_add]
  have split : before.toList ++ after.toList = before.toList ++ s.rest := by
    rw [← String.toList_append, ← same]
    exact whole
  have rest : s.rest = after.toList := (List.append_cancel_left split).symm
  obtain ⟨l, isLine, quiet⟩ := idle.quiet
  have inStep : Lexer.InStep (Lexer.Inserted l after.toList) (fun _ value => value)
      { file, rest := (before ++ after).toList }
      { file, rest := (before ++ line ++ after).toList } := by
    refine ⟨⟨rfl, rfl, rfl, rfl⟩, before.toList, String.toList_append, by simp [isLine], ?_⟩
    rcases path.ends_line lined starts with rfl | ⟨b, ends⟩
    · left
      exact List.append_left_eq_self.mp (String.toList_append.symm.trans rest)
    · right
      have same : before.toList ++ s.rest = (b ++ ['\n']) ++ s.rest := by
        rw [← split, ← String.toList_append, List.append_assoc]
        exact ends
      exact ⟨b, List.append_cancel_right same⟩
  obtain ⟨t, path', inStep'⟩ := inStep.reaches_inserted quiet path starts rest
  have here' : t.rest = line.toList ++ after.toList := by
    obtain ⟨a, left, right, -⟩ := inStep'.rest
    rw [rest] at left
    rw [right, List.self_eq_append_left.mp left, isLine]
    simp
  have between : t.midLine = false :=
    inStep'.toAlike.midLine.trans ((lined.reaches path).fresh starts.1).2
  obtain ⟨u, further, rest', alike⟩ :=
    Lexer.reaches_idle idle (inStep'.atLine_iff.mpr starts) between here'
  have joined : Lexer.InStep Eq (fun _ value => value) s u :=
    ⟨inStep'.toAlike.trans alike, by rw [rest, rest']⟩
  refine Lexer.words_eq (R := Eq) ?_
  rw [Lexer.run_of_reaches path, Lexer.run_of_reaches (path'.trans further)]
  exact joined.run fun _ _ _ same => same ▸ .refl

/-- The reader of a text with two lines, behind the first of them. -/
def Lexer.betweenLines : Lexer :=
  (Lexer.take { file := "m", rest := "a\nb\n".toList, atLineStart := false }
    .identifier ['a'] 1).closeLine 1

theorem comment_between_lines :
    Lexer.Reaches { file := "m", rest := ("a\n" ++ "b\n").toList } Lexer.betweenLines ∧
    words (fun _ value => value) ("a\n" ++ "\t# d\n" ++ "b\n") "m" =
      words (fun _ value => value) ("a\n" ++ "b\n") "m" := by
  have path : Lexer.Reaches { file := "m", rest := ("a\n" ++ "b\n").toList } Lexer.betweenLines :=
    .head (.opens (by decide) ⟨rfl, rfl⟩ rfl) <|
    .head (.reads (by decide) (fun starts => absurd starts.1 (by decide)) rfl) <|
    .single (.reads (by decide) (fun starts => absurd starts.1 (by decide)) rfl)
  have idle : IdleLine (['\t'] ++ '#' :: ([' ', 'd'] ++ ['\n'])) :=
    .comment (by simp [Shape.isSpace]) (by simp [Shape.isBreak, Literal.isQuote])
  exact ⟨path, idle_line_unseen path rfl ⟨rfl, rfl⟩ idle⟩

end FlowTypes
