import FlowTypes.Token.Literal

/-! The parts of a string literal. Where the length of a literal is found by a search for its closing
quotes, its value is taken from the finished text; both see the same marks, quotes and content. -/
namespace FlowTypes.Literal

variable {q : Char} {cs text : List Char} {n k : Nat}

/-- Marks, and a content between two equal quotes. Three quotes in a row are never taken as one quote
and a content that starts with two. -/
structure Quoted (text marks quote content : List Char) : Prop where
  text_eq : text = marks ++ (quote ++ (content ++ quote))
  few : marks.length ≤ 2
  isMark : ∀ c ∈ marks, isMark c
  isQuote : ∃ q, isQuote q ∧
    (quote = [q, q, q] ∨ quote = [q] ∧ ¬ [q, q, q] <+: quote ++ (content ++ quote))

theorem closeTriple_eq_some (found : closeTriple q n cs = some k) :
    ∃ content rest, cs = content ++ ([q, q, q] ++ rest) ∧ k = n + content.length + 3 := by
  induction cs generalizing n with
  | nil => cases found
  | cons c cs ih =>
    rw [closeTriple] at found
    split at found
    · case isTrue closes =>
      simp only [Bool.and_eq_true, decide_eq_true_eq] at closes
      obtain ⟨rfl, two⟩ := closes
      cases found
      refine ⟨[], cs.drop 2, ?_, rfl⟩
      simpa [two] using (List.take_append_drop 2 cs).symm
    · obtain ⟨content, rest, rfl, rfl⟩ := ih found
      exact ⟨c :: content, rest, rfl, by simp only [List.length_cons]; omega⟩

theorem closeSingle_eq_some (found : closeSingle q n cs = some k) :
    ∃ content rest, cs = content ++ ([q] ++ rest) ∧ k = n + content.length + 1 := by
  fun_induction closeSingle q n cs with
  | case1 => cases found
  | case2 n c cs ih =>
    obtain ⟨content, rest, rfl, rfl⟩ := ih found
    exact ⟨'\\' :: c :: content, rest, rfl, by simp only [List.length_cons]; omega⟩
  | case3 n cs =>
    cases found
    exact ⟨[], cs, rfl, rfl⟩
  | case4 => cases found
  | case5 n c cs _ _ _ ih =>
    obtain ⟨content, rest, rfl, rfl⟩ := ih found
    exact ⟨c :: content, rest, rfl, by simp only [List.length_cons]; omega⟩

theorem closeSingle_cons (other : c ≠ '\\') : closeSingle q n (c :: cs) = if c = q then some (n + 1)
      else if c = '\r' || c = '\n' then none else closeSingle q (n + 1) cs := by
  rw [closeSingle.eq_def]
  split
  · next same => cases same
  · next same => exact absurd (List.cons.inj same).1 other
  · next same =>
    cases same
    simp [other]

theorem lt_of_closeSingle (found : closeSingle q n cs = some k) : n < k := by
  obtain ⟨content, rest, -, rfl⟩ := closeSingle_eq_some found
  omega

theorem closeSingle_quote (isQuote : isQuote q) : closeSingle q n (q :: cs) = some (n + 1) := by
  have noEscape : q ≠ '\\' := by
    rintro rfl
    exact absurd isQuote (by decide)
  rw [closeSingle.eq_def]
  simp [noEscape]

theorem exists_of_take_three (three : (q :: tail).take 3 = [q, q, q]) :
    ∃ behind, tail = q :: q :: behind := by
  rcases tail with _ | ⟨c, _ | ⟨d, tail⟩⟩ <;> simp at three
  exact ⟨tail, by simp [three]⟩

theorem bodyLength?_eq_some (isQuote : isQuote q) (found : bodyLength? q (q :: tail) = some k) :
    ∃ quote content rest, q :: tail = quote ++ (content ++ quote) ++ rest ∧
      k = (quote ++ (content ++ quote)).length ∧
      (quote = [q, q, q] ∨ quote = [q] ∧ ¬ [q, q, q] <+: quote ++ (content ++ quote)) := by
  unfold bodyLength? at found
  split at found
  · case isTrue three =>
    have whole : q :: tail = [q, q, q] ++ (q :: tail).drop 3 := by
      rw [← three, List.take_append_drop]
    cases closed : closeTriple q 3 ((q :: tail).drop 3) with
    | some n =>
      rw [closed] at found
      cases found
      obtain ⟨content, rest, same, rfl⟩ := closeTriple_eq_some closed
      rw [same] at whole
      refine ⟨[q, q, q], content, rest, by simpa using whole, ?_, .inl rfl⟩
      simp only [List.length_append, List.length_cons, List.length_nil]
      omega
    | none =>
      -- Without an end, the first two of the three quotes are an empty literal.
      rw [closed, Option.none_or, List.drop_one, List.tail_cons] at found
      have next : tail = q :: q :: (q :: tail).drop 3 := by simpa using whole
      rw [next, closeSingle_quote isQuote] at found
      cases found
      refine ⟨[q], [], q :: (q :: tail).drop 3, by simpa using whole, rfl, .inr ⟨rfl, ?_⟩⟩
      exact fun starts => absurd starts.length_le (by simp)
  · case isFalse single =>
    rw [List.drop_one, List.tail_cons] at found
    obtain ⟨content, rest, rfl, rfl⟩ := closeSingle_eq_some found
    refine ⟨[q], content, rest, by simp, by simp [Nat.add_comm], .inr ⟨rfl, fun starts => single ?_⟩⟩
    have longer : [q, q, q] <+: q :: (content ++ ([q] ++ rest)) :=
      starts.trans ⟨rest, by simp⟩
    exact (List.prefix_iff_eq_take.mp longer).symm

theorem opening?_eq_some (found : opening? cs = some (marks, q)) :
    isQuote q ∧ (∃ tail, cs.drop marks = q :: tail) ∧
      (cs.take marks).length ≤ 2 ∧ ∀ c ∈ cs.take marks, isMark c := by
  have leading : (cs.take 2).takeWhile isMark <+: cs.take 2 := List.takeWhile_prefix isMark
  have marks_eq : (cs.take 2).takeWhile isMark =
      cs.take ((cs.take 2).takeWhile isMark).length :=
    List.prefix_iff_eq_take.mp (leading.trans (List.take_prefix 2 cs))
  simp only [opening?] at found
  split at found
  · case h_1 c tail rest =>
    split at found
    · case isTrue isQuote =>
      cases found
      refine ⟨isQuote, ⟨tail, rest⟩, ?_, ?_⟩
      · rw [← marks_eq]
        exact Nat.le_trans leading.length_le (List.length_take_le 2 cs)
      · rw [← marks_eq]
        exact List.all_eq_true.mp List.all_takeWhile
    · cases found
  · cases found

theorem quoted_of_length (found : length cs ≠ 0) :
    ∃ marks quote content, Quoted (cs.take (length cs)) marks quote content := by
  cases opens : opening? cs with
  | none => simp [length, opens] at found
  | some pair =>
    obtain ⟨marks, q⟩ := pair
    obtain ⟨isQuote, ⟨tail, body⟩, few, areMarks⟩ := opening?_eq_some opens
    cases closes : bodyLength? q (cs.drop marks) with
    | none => simp [length, opens, closes] at found
    | some n =>
      have total : length cs = marks + n := by simp [length, opens, closes]
      rw [body] at closes
      obtain ⟨quote, content, rest, same, rfl, shape⟩ := bodyLength?_eq_some isQuote closes
      refine ⟨cs.take marks, quote, content, ?_, few, areMarks, q, isQuote, shape⟩
      rw [total, List.take_add, body, same, List.take_left]

theorem length_le : length cs ≤ cs.length := by
  cases opens : opening? cs with
  | none => simp [length, opens]
  | some start =>
    obtain ⟨marks, q⟩ := start
    obtain ⟨isQuote, ⟨tail, body⟩, -⟩ := opening?_eq_some opens
    have size := congrArg List.length body
    have short : marks < cs.length := by
      rw [List.length_drop, List.length_cons] at size
      omega
    simp only [length, opens, body]
    cases closes : bodyLength? q (q :: tail) with
    | none => exact Nat.zero_le _
    | some k =>
      obtain ⟨quote, content, rest, same, rfl, -⟩ := bodyLength?_eq_some isQuote closes
      rw [same, List.length_drop, List.length_append] at size
      show marks + _ ≤ _
      omega

theorem not_isQuote_of_isMark (mark : isMark c) : isQuote c = false := by
  cases quote : isQuote c with
  | false => rfl
  | true =>
    have same : c = '"' ∨ c = '\x27' := by simpa [isQuote] using quote
    rcases same with rfl | rfl <;> exact absurd mark (by decide)

theorem Quoted.marks_eq (quoted : Quoted text marks quote content) :
    text.takeWhile (!Literal.isQuote ·) = marks := by
  obtain ⟨rfl, -, areMarks, q, isQuote, shape⟩ := quoted
  obtain ⟨quoteTail, starts⟩ : ∃ quoteTail, quote = q :: quoteTail := by
    rcases shape with rfl | ⟨rfl, -⟩ <;> exact ⟨_, rfl⟩
  rw [List.takeWhile_append_of_pos fun c mark => by
    rw [not_isQuote_of_isMark (areMarks c mark)]; rfl]
  simp [starts, isQuote]

/-- A literal has its quotes and its content in one way only. -/
theorem Quoted.unique (quoted : Quoted text marks quote content)
    (quoted' : Quoted text marks' quote' content') : quote = quote' ∧ content = content' := by
  have body : quote ++ (content ++ quote) = quote' ++ (content' ++ quote') := by
    have whole := quoted.text_eq.symm.trans quoted'.text_eq
    rw [← quoted.marks_eq, ← quoted'.marks_eq] at whole
    exact List.append_cancel_left whole
  obtain ⟨-, -, -, q, -, shape⟩ := quoted
  obtain ⟨-, -, -, q', -, shape'⟩ := quoted'
  have same : quote = quote' := by
    rcases shape with rfl | ⟨rfl, short⟩ <;> rcases shape' with rfl | ⟨rfl, short'⟩
    · rw [(List.cons.inj body).1]
    · cases (List.cons.inj body).1
      exact absurd ⟨_, body⟩ short'
    · cases (List.cons.inj body).1
      exact absurd ⟨_, body.symm⟩ short
    · rw [(List.cons.inj body).1]
  subst same
  exact ⟨rfl, List.append_cancel_right (List.append_cancel_left body)⟩

/-- The value of a literal is its content, with the escapes resolved unless a mark forbids it. -/
theorem Quoted.value_eq (quoted : Quoted text marks quote content) :
    value text = if 'r' ∈ marks ∨ 'R' ∈ marks then content else unescape content := by
  have leading := quoted.marks_eq
  obtain ⟨rfl, -, -, q, isQuote, shape⟩ := quoted
  have isDelimiter : q = '"' ∨ q = '\x27' := by simpa [Literal.isQuote] using isQuote
  have width : (if (quote ++ (content ++ quote)).take 3 = ['"', '"', '"'] ||
      (quote ++ (content ++ quote)).take 3 = ['\x27', '\x27', '\x27'] then 3 else 1) =
      quote.length := by
    rcases shape with rfl | ⟨rfl, single⟩
    · rcases isDelimiter with rfl | rfl <;> rfl
    · have noTriple : ([q] ++ (content ++ [q])).take 3 ≠ [q, q, q] := fun same =>
        single (List.prefix_iff_eq_take.mpr same.symm)
      rcases isDelimiter with rfl | rfl <;> simpa using noTriple
  have inner : (content ++ quote).take
      ((quote ++ (content ++ quote)).length - 2 * quote.length) = content := by
    have size : (quote ++ (content ++ quote)).length - 2 * quote.length = content.length := by
      simp only [List.length_append]
      omega
    rw [size, List.take_left]
  simp only [value, leading, List.drop_left, width, inner]
  simp

end FlowTypes.Literal
