import FlowTypes.Proofs.Lossless
import FlowTypes.Proofs.Respelling

/-! Line endings. A text with carriage returns in front of its line feeds is read in step with the text
without them: every shape is found where it was, with the carriage returns it has now. The exception is
a string in single quotes that goes on behind a line feed: a backslash escapes the carriage return alone
then, and the line feed behind it ends the search for the closing quote. -/
namespace FlowTypes

namespace Text

/-- Every line feed with a carriage return in front of it. -/
def withReturns (cs : List Char) : List Char :=
  cs.flatMap fun c => if c = '\n' then ['\r', '\n'] else [c]

variable {cs ds l tail : List Char} {c : Char}

theorem withReturns_nil : withReturns [] = [] := rfl

theorem withReturns_append : withReturns (cs ++ ds) = withReturns cs ++ withReturns ds :=
  List.flatMap_append

theorem withReturns_feed : withReturns ('\n' :: cs) = '\r' :: '\n' :: withReturns cs := rfl

theorem withReturns_cons (other : c ≠ '\n') : withReturns (c :: cs) = c :: withReturns cs := by
  simp [withReturns, other]

theorem withReturns_plain (plain : '\n' ∉ cs) : withReturns cs = cs := by
  induction cs with
  | nil => rfl
  | cons c cs ih =>
    rw [List.mem_cons, not_or] at plain
    rw [withReturns_cons (Ne.symm plain.1), ih plain.2]

theorem length_withReturns_take_cons (other : c ≠ '\n') (n : Nat) :
    (withReturns ((c :: cs).take (1 + n))).length = 1 + (withReturns (cs.take n)).length := by
  rw [Nat.add_comm 1, List.take_succ_cons, withReturns_cons other, List.length_cons, Nat.add_comm]

theorem withReturns_eq_nil_iff : withReturns cs = [] ↔ cs = [] := by
  cases cs with
  | nil => simp [withReturns]
  | cons c cs =>
    by_cases feed : c = '\n'
    · subst feed; simp [withReturns_feed]
    · simp [withReturns_cons feed]

theorem withReturns_split (cs : List Char) :
    withReturns cs = withReturns (cs.take n) ++ withReturns (cs.drop n) := by
  rw [← withReturns_append, List.take_append_drop]

theorem drop_withReturns (n : Nat) :
    (withReturns cs).drop (withReturns (cs.take n)).length = withReturns (cs.drop n) := by
  rw [withReturns_split cs, List.drop_left]

theorem drop_withReturns_of_plain (few : n ≤ cs.length) (plain : '\n' ∉ cs.take n) :
    (withReturns cs).drop n = withReturns (cs.drop n) := by
  rw [← drop_withReturns, withReturns_plain plain, List.length_take_of_le few]

theorem take_withReturns (n : Nat) :
    (withReturns cs).take (withReturns (cs.take n)).length = withReturns (cs.take n) := by
  rw [withReturns_split cs, List.take_left]

open Shape in
theorem exists_line (noReturn : '\r' ∉ cs) : ∃ l tail, cs = l ++ tail ∧ '\n' ∉ l ∧
    withReturns cs = l ++ withReturns tail ∧ Stops tail ∧ Stops (withReturns tail) := by
  induction cs with
  | nil => exact ⟨[], [], rfl, by simp, rfl, .text, .text⟩
  | cons c cs ih =>
    rw [List.mem_cons, not_or] at noReturn
    by_cases feed : c = '\n'
    · subst feed
      exact ⟨[], '\n' :: cs, rfl, by simp, rfl, .feed, .carriage⟩
    · obtain ⟨l, tail, same, plain, spelled, stops, stops'⟩ := ih noReturn.2
      have plain' : '\n' ∉ c :: l := by simp [plain, Ne.symm feed]
      have spelled' : withReturns (c :: cs) = (c :: l) ++ withReturns tail := by
        rw [withReturns_cons feed, spelled, List.cons_append]
      exact ⟨c :: l, tail, by rw [same, List.cons_append], plain', spelled', stops, stops'⟩

end Text

namespace Literal

open Text

variable {q : Char} {n m : Nat} {cs : List Char}

/-- A literal in single quotes is closed as before if no line feed is inside of it, and else not at
all: a backslash in front of a line break escapes the carriage return alone. -/
theorem closeSingle_withReturns (isQuote : isQuote q) (noReturn : '\r' ∉ cs) :
    closeSingle q m (withReturns cs) = (closeSingle q n cs).bind fun k =>
      if '\n' ∈ cs.take (k - n) then none else some (m + (k - n)) := by
  have noBreak : '\r' ≠ q ∧ '\n' ≠ q := by constructor <;> rintro rfl <;> cases isQuote
  fun_induction closeSingle q n cs generalizing m with
  | case1 => rfl
  | case2 n c cs ih =>
    simp only [List.mem_cons, not_or] at noReturn
    rw [withReturns_cons (by decide)]
    by_cases feed : c = '\n'
    · subst feed
      rw [withReturns_feed, closeSingle, closeSingle_cons (by decide), if_neg noBreak.2,
        if_pos (by simp)]
      cases found : closeSingle q (n + 2) cs with
      | none => rfl
      | some k =>
        have := lt_of_closeSingle found
        obtain ⟨j, rfl⟩ : ∃ j, k = n + (j + 2) := ⟨k - n - 2, by omega⟩
        simp
    · rw [withReturns_cons feed, closeSingle, ih noReturn.2.2]
      cases found : closeSingle q (n + 2) cs with
      | none => rfl
      | some k =>
        have := lt_of_closeSingle found
        obtain ⟨j, rfl⟩ : ∃ j, k = n + (j + 2) := ⟨k - n - 2, by omega⟩
        have inner : n + (j + 2) - (n + 2) = j := by omega
        simp [inner, Ne.symm feed, Nat.add_assoc, Nat.add_comm 2]
  | case3 n cs =>
    rw [withReturns_cons (Ne.symm noBreak.2), closeSingle_quote isQuote]
    simp [noBreak.2]
  | case4 n c cs lone other ends =>
    simp only [List.mem_cons, not_or] at noReturn
    by_cases feed : c = '\n'
    · subst feed
      rw [withReturns_feed, closeSingle_cons (by decide), if_neg noBreak.1, if_pos (by simp)]
      rfl
    · have escape : c = '\\' := by simpa [feed, Ne.symm noReturn.1] using ends
      subst escape
      cases cs with
      | nil => simp [withReturns, closeSingle, other]
      | cons d cs => exact absurd rfl (lone d cs rfl)
  | case5 n c cs _ other plain ih =>
    simp only [List.mem_cons, not_or] at noReturn
    simp only [Bool.or_eq_true, decide_eq_true_eq, not_or] at plain
    rw [withReturns_cons plain.2, closeSingle_cons plain.1.1, if_neg other, if_neg (by simp [plain]),
      ih noReturn.2]
    cases found : closeSingle q (n + 1) cs with
    | none => rfl
    | some k =>
      have := lt_of_closeSingle found
      obtain ⟨j, rfl⟩ : ∃ j, k = n + (j + 1) := ⟨k - n - 1, by omega⟩
      have inner : n + (j + 1) - (n + 1) = j := by omega
      simp [inner, Ne.symm plain.2, Nat.add_assoc, Nat.add_comm 1]

theorem take_withReturns_eq_quotes (isQuote : isQuote q) (noReturn : '\r' ∉ cs) :
    (withReturns cs).take quotes = List.replicate quotes q ↔
      cs.take quotes = List.replicate quotes q := by
  obtain ⟨l, tail, rfl, -, spelled, stops, stops'⟩ := exists_line noReturn
  rw [spelled, Shape.take_eq_quotes l isQuote stops', Shape.take_eq_quotes l isQuote stops]

theorem closeTriple_withReturns (isQuote : isQuote q) (noReturn : '\r' ∉ cs) :
    closeTriple q m (withReturns cs) = (closeTriple q n cs).map fun k =>
      m + (withReturns (cs.take (k - n))).length := by
  have noBreak : '\r' ≠ q ∧ '\n' ≠ q := by constructor <;> rintro rfl <;> cases isQuote
  induction cs generalizing n m with
  | nil => rfl
  | cons c cs ih =>
    simp only [List.mem_cons, not_or] at noReturn
    -- What is left out in front of the quotes is one character longer for each line feed.
    have later : ∀ k, closeTriple q (n + 1) cs = some k →
        m + (withReturns ((c :: cs).take (k - n))).length =
          m + (withReturns [c]).length + (withReturns (cs.take (k - (n + 1)))).length := by
      intro k found
      obtain ⟨content, rest, -, rfl⟩ := closeTriple_eq_some found
      obtain ⟨j, same, same'⟩ : ∃ j, n + 1 + content.length + 3 - n = j + 1 ∧
          n + 1 + content.length + 3 - (n + 1) = j := ⟨content.length + 3, by omega, by omega⟩
      rw [same, same', List.take_succ_cons, ← List.singleton_append, withReturns_append,
        List.length_append]
      omega
    have step : ∀ k, closeTriple q k (withReturns cs) = (closeTriple q (n + 1) cs).map fun j =>
        k + (withReturns (cs.take (j - (n + 1)))).length := fun k => ih noReturn.2
    by_cases feed : c = '\n'
    · subst feed
      rw [withReturns_feed]
      simp only [closeTriple, noBreak, decide_false, Bool.false_and, Bool.false_eq_true, if_false, step]
      exact Option.map_congr fun k found => (later k found).symm
    · rw [withReturns_cons feed]
      have two : (withReturns cs).take 2 = [q, q] ↔ cs.take 2 = [q, q] :=
        take_withReturns_eq_quotes isQuote noReturn.2
      simp only [closeTriple, two]
      split
      · next closes =>
        simp only [Bool.and_eq_true, decide_eq_true_eq] at closes
        obtain ⟨rfl, quotes⟩ := closes
        have taken : (c :: cs).take 3 = [c, c, c] := congrArg (c :: ·) quotes
        have plain : withReturns [c, c, c] = [c, c, c] := withReturns_plain (by simp [noBreak])
        simp only [Option.map_some, Nat.add_sub_cancel_left, taken, plain]
        rfl
      · rw [step]
        refine Option.map_congr fun k found => ?_
        rw [later k found, withReturns_cons feed]
        rfl

/-- A literal in single quotes that goes on behind a line feed. -/
def JoinsLines (text : List Char) : Prop :=
  ∃ marks q content, Quoted text marks [q] content ∧ '\n' ∈ content

theorem bodyLength?_withReturns (isQuote : isQuote q) (noReturn : '\r' ∉ tail) :
    bodyLength? q (withReturns (q :: tail)) = (bodyLength? q (q :: tail)).bind fun k =>
      if '\n' ∈ (q :: tail).take k ∧ ¬ [q, q, q] <+: (q :: tail).take k then none
      else some (withReturns ((q :: tail).take k)).length := by
  have noBreak : '\r' ≠ q ∧ '\n' ≠ q := by constructor <;> rintro rfl <;> cases isQuote
  have start : ∀ cs, withReturns (q :: cs) = q :: withReturns cs :=
    fun cs => withReturns_cons (Ne.symm noBreak.2)
  have noReturn' : '\r' ∉ q :: tail := by simp [noReturn, noBreak]
  have three : (withReturns (q :: tail)).take 3 = [q, q, q] ↔ (q :: tail).take 3 = [q, q, q] :=
    take_withReturns_eq_quotes isQuote noReturn'
  simp only [bodyLength?, three]
  split
  · next triple =>
    obtain ⟨tail, rfl⟩ := exists_of_take_three triple
    simp only [List.mem_cons, not_or] at noReturn
    simp only [start, List.drop_succ_cons, List.drop_zero, closeSingle_quote isQuote,
      closeTriple_withReturns (n := 3) isQuote noReturn.2.2]
    cases closes : closeTriple q 3 tail with
    | none => simp [noBreak, withReturns_plain]
    | some k =>
      obtain ⟨j, rfl⟩ : ∃ j, k = j + 3 := by
        obtain ⟨content, rest, -, rfl⟩ := closeTriple_eq_some closes
        exact ⟨3 + content.length, rfl⟩
      simp [start, Nat.add_comm 3]
  · next single =>
    rw [start, List.drop_one, List.tail_cons, List.drop_one, List.tail_cons,
      closeSingle_withReturns (n := 1) isQuote noReturn]
    cases closes : closeSingle q 1 tail with
    | none => rfl
    | some k =>
      obtain ⟨content, rest, rfl, rfl⟩ := closeSingle_eq_some closes
      have taken : (content ++ ([q] ++ rest)).take (content.length + 1) = content ++ [q] := by
        rw [← List.append_assoc]
        exact List.take_left' (by simp)
      have short : ¬ [q, q, q] <+: q :: (content ++ [q]) := fun starts =>
        single (List.prefix_iff_eq_take.mp (starts.trans ⟨rest, by simp⟩)).symm
      rw [Nat.add_comm 1]
      simp only [Option.bind_some, Nat.add_sub_cancel, List.take_succ_cons, taken, short,
        not_false_eq_true, and_true]
      by_cases joins : '\n' ∈ content
      · simp [joins]
      · simp [joins, noBreak, withReturns_plain, Nat.add_comm]

theorem opening?_withReturns (noReturn : '\r' ∉ cs) : opening? (withReturns cs) = opening? cs := by
  obtain ⟨l, tail, rfl, -, spelled, stops, stops'⟩ := exists_line noReturn
  rw [spelled, Shape.opening?_append stops', Shape.opening?_append stops]

/-- A literal is read as before, its line feeds with the carriage returns in front of them, unless it
goes on behind a line feed in single quotes: then it is not closed. -/
theorem length_withReturns (noReturn : '\r' ∉ cs) : (¬ JoinsLines (cs.take (length cs)) →
      length (withReturns cs) = (withReturns (cs.take (length cs))).length) ∧
    (JoinsLines (cs.take (length cs)) → length (withReturns cs) = 0) := by
  cases opens : opening? cs with
  | none => simp [length, opens, opening?_withReturns noReturn, withReturns_nil]
  | some start =>
    obtain ⟨marks, q⟩ := start
    obtain ⟨isQuote, ⟨tail, body⟩, few, areMarks⟩ := opening?_eq_some opens
    have noFeed : '\n' ∉ cs.take marks := fun feed => absurd (areMarks _ feed) (by decide)
    have noReturn' : '\r' ∉ tail := fun member =>
      noReturn (List.mem_of_mem_drop (body ▸ List.mem_cons_of_mem q member))
    have inside : marks ≤ cs.length := by
      have size := congrArg List.length body
      rw [List.length_drop, List.length_cons] at size
      omega
    have body' : (withReturns cs).drop marks = withReturns (q :: tail) := by
      rw [drop_withReturns_of_plain inside noFeed, body]
    simp only [length, opens, opening?_withReturns noReturn, body, body',
      bodyLength?_withReturns isQuote noReturn']
    cases closes : bodyLength? q (q :: tail) with
    | none => simp [withReturns_nil]
    | some k =>
      obtain ⟨quote, content, rest, same, rfl, shape⟩ := bodyLength?_eq_some isQuote closes
      have literal : (q :: tail).take (quote ++ (content ++ quote)).length =
          quote ++ (content ++ quote) := by
        rw [same, List.take_left]
      have whole : cs.take (marks + (quote ++ (content ++ quote)).length) =
          cs.take marks ++ (quote ++ (content ++ quote)) := by
        rw [List.take_add, body, literal]
      have quoted : Quoted (cs.take marks ++ (quote ++ (content ++ quote))) (cs.take marks) quote
          content := ⟨rfl, few, areMarks, q, isQuote, shape⟩
      have joins : JoinsLines (cs.take marks ++ (quote ++ (content ++ quote))) ↔
          '\n' ∈ quote ++ (content ++ quote) ∧ ¬ [q, q, q] <+: quote ++ (content ++ quote) := by
        constructor
        · rintro ⟨marks', q', content', quoted', feed⟩
          obtain ⟨rfl, rfl⟩ := quoted.unique quoted'
          rcases shape with triple | ⟨-, short⟩
          · cases triple
          · exact ⟨by simp [feed], short⟩
        · rintro ⟨feed, short⟩
          rcases shape with rfl | ⟨rfl, -⟩
          · exact absurd ⟨_, rfl⟩ short
          · have other : '\n' ≠ q := by rintro rfl; cases isQuote
            exact ⟨_, _, _, quoted, by simpa [other] using feed⟩
      simp only [Option.bind_some, literal, whole, joins]
      by_cases joined : '\n' ∈ quote ++ (content ++ quote) ∧ ¬ [q, q, q] <+: quote ++ (content ++ quote)
      · rw [if_pos joined]
        exact ⟨fun apart => absurd joined apart, fun _ => rfl⟩
      · rw [if_neg joined]
        refine ⟨fun _ => ?_, fun joins => absurd joins joined⟩
        simp only [withReturns_append, withReturns_plain noFeed, List.length_append,
          List.length_take_of_le inside]

end Literal

namespace Shape

open Text

variable {cs : List Char}

theorem lineBreakLength_withReturns (noReturn : '\r' ∉ cs) :
    lineBreakLength (withReturns cs) = (withReturns (cs.take (lineBreakLength cs))).length := by
  cases cs with
  | nil => rfl
  | cons c cs =>
    rw [List.mem_cons, not_or] at noReturn
    by_cases feed : c = '\n'
    · subst feed
      rfl
    · simp [withReturns_cons feed, lineBreakLength, feed, Ne.symm noReturn.1, withReturns_nil]

theorem InLine.plain {measure : List Char → Nat} (inLine : InLine measure) (noReturn : '\r' ∉ cs) :
    '\n' ∉ cs.take (measure cs) := by
  obtain ⟨l, tail, rfl, plain, -, stops, -⟩ := exists_line noReturn
  rw [inLine.append stops, List.take_append_of_le_length (inLine.le l)]
  exact fun feed => plain (List.mem_of_mem_take feed)

theorem InLine.withReturns {measure : List Char → Nat} (inLine : InLine measure)
    (noReturn : '\r' ∉ cs) :
    measure (Text.withReturns cs) = (Text.withReturns (cs.take (measure cs))).length := by
  rw [withReturns_plain (inLine.plain noReturn), List.length_take_of_le (inLine.le cs)]
  obtain ⟨l, tail, rfl, -, spelled, stops, stops'⟩ := exists_line noReturn
  rw [spelled, inLine.append stops', inLine.append stops]

theorem gapLength_withReturns (noReturn : '\r' ∉ cs) :
    gapLength (withReturns cs) = (withReturns (cs.take (gapLength cs))).length := by
  have run : ∀ {p : Char → Bool}, p '\r' = false ∧ p '\n' = false → InLine (runLength p) :=
    fun {p} ends => ⟨fun stops => runLength_append stops ends, runLength_le p⟩
  cases cs with
  | nil => rfl
  | cons c cs =>
    rw [List.mem_cons, not_or] at noReturn
    by_cases feed : c = '\n'
    · subst feed
      rfl
    · rw [withReturns_cons feed]
      by_cases comment : c = '#'
      · subst comment
        have inner : runLength (!isBreak ·) (withReturns cs) = _ :=
          (run (by decide)).withReturns noReturn.2
        rw [gapLength, gapLength, inner, length_withReturns_take_cons feed]
      · by_cases joins : c = '\\'
        · subst joins
          cases cs with
          | nil => rfl
          | cons d cs =>
            by_cases feed : d = '\n'
            · subst feed
              rfl
            · have noBreak : lineBreakLength (d :: cs) = 0 := by
                have : d ≠ '\r' := fun same => noReturn.2 (same ▸ List.mem_cons_self)
                simp [lineBreakLength, feed, this]
              simp [gapLength, lineBreakLength_withReturns noReturn.2, noBreak, withReturns_nil]
        · have noReturn' : '\r' ∉ c :: cs := by simp [noReturn]
          have blank := (run (p := isSpace) (by decide)).withReturns noReturn'
          rw [withReturns_cons feed] at blank
          simpa [gapLength, comment, joins] using blank

/-- Every shape keeps its place at the head of the text, a string that joins lines in single quotes
apart. -/
theorem length_withReturns (noReturn : '\r' ∉ cs) (member : s ∈ all)
    (apart : ¬ Literal.JoinsLines (cs.take (Literal.length cs))) :
    s.length (withReturns cs) = (withReturns (cs.take (s.length cs))).length := by
  cases inside : s.isInLine with
  | true => exact (inLine_length member inside).withReturns noReturn
  | false =>
    cases s with
    | gap => exact gapLength_withReturns noReturn
    | lineBreak => exact lineBreakLength_withReturns noReturn
    | string => exact (Literal.length_withReturns noReturn).1 apart
    | _ => cases inside

theorem first?_withReturns (noReturn : '\r' ∉ cs)
    (apart : ¬ Literal.JoinsLines (cs.take (Literal.length cs))) :
    first? (withReturns cs) = (first? cs).map fun found =>
      (found.1, (withReturns (cs.take found.2)).length) := by
  refine first?_congr (fun n => (withReturns (cs.take n)).length) (fun s member => ?_)
    fun s member => length_withReturns noReturn member apart
  have few := length_le cs member
  rw [List.length_eq_zero_iff, withReturns_eq_nil_iff, List.take_eq_nil_iff]
  exact ⟨fun empty => empty.elim id fun none => by simpa [none] using few, .inl⟩

end Shape

namespace Lexer

open Text

variable {s t u : Lexer} {cs : List Char}

/-- The values of all tokens but strings. -/
def plainValue (kind : Kind) (value : String) : String := if kind = .string then "" else value

/-- The second text is the first one with carriage returns. -/
def Returned (cs cs' : List Char) : Prop := '\r' ∉ cs ∧ cs' = withReturns cs

/-- The reader is at a string in single quotes that goes on behind the end of a line. -/
structure AtJoin (s : Lexer) (n : Nat) : Prop where
  inside : ¬ s.AtLine
  found : Shape.first? s.rest = some (.string, n)
  joins : Literal.JoinsLines (s.rest.take n)

theorem Returned.drop (returned : Returned cs (withReturns cs)) (n : Nat) :
    Returned (cs.drop n) ((withReturns cs).drop (withReturns (cs.take n)).length) :=
  ⟨fun member => returned.1 (List.mem_of_mem_drop member), drop_withReturns n⟩

theorem isIdleLine_withReturns (noReturn : '\r' ∉ cs) :
    isIdleLine (withReturns cs) = isIdleLine cs := by
  cases cs with
  | nil => rfl
  | cons c cs =>
    rw [List.mem_cons, not_or] at noReturn
    by_cases feed : c = '\n'
    · subst feed
      rfl
    · simp [isIdleLine, withReturns_cons feed, Shape.lineBreakLength, feed, Ne.symm noReturn.1]

theorem not_joinsLines_nil : ¬ Literal.JoinsLines [] := by
  rintro ⟨marks, q, content, quoted, -⟩
  simpa using quoted.text_eq

theorem respelled_withReturns (returned : Returned s.rest cs) (apart : ∀ n, ¬ s.AtJoin n) :
    Respelled Returned plainValue s cs := by
  obtain ⟨noReturn, rfl⟩ := returned
  have apart : ¬ s.AtLine → ¬ Literal.JoinsLines (s.rest.take (Literal.length s.rest)) := by
    intro inside joins
    by_cases absent : Literal.length s.rest = 0
    · rw [absent, List.take_zero] at joins
      exact not_joinsLines_nil joins
    · exact apart _ ⟨inside, Shape.first?_literal absent, joins⟩
  refine ⟨withReturns_eq_nil_iff, fun _ => ?_, fun inside unread => ?_,
    fun inside {shape n} found => ?_⟩
  · have blanks : Shape.InLine (Shape.runLength Shape.isSpace) :=
      ⟨fun stops => Shape.runLength_append stops (by decide), Shape.runLength_le _⟩
    have blank : (withReturns s.rest).takeWhile Shape.isSpace = s.rest.takeWhile Shape.isSpace := by
      obtain ⟨l, tail, same, -, spelled, stops, stops'⟩ := exists_line noReturn
      rw [spelled, same, Shape.takeWhile_append stops' (by decide),
        Shape.takeWhile_append stops (by decide)]
    have behind : (withReturns s.rest).drop (s.rest.takeWhile Shape.isSpace).length =
        withReturns (s.rest.drop (s.rest.takeWhile Shape.isSpace).length) :=
      drop_withReturns_of_plain (blanks.le _) (blanks.plain noReturn)
    have noReturn' : '\r' ∉ s.rest.drop (s.rest.takeWhile Shape.isSpace).length := fun member =>
      noReturn (List.mem_of_mem_drop member)
    refine ⟨blank, ⟨noReturn', behind⟩, ?_⟩
    rw [behind, isIdleLine_withReturns noReturn']
  · rw [Shape.first?_withReturns noReturn (apart inside), unread]
    rfl
  · have found' : Shape.first? (withReturns s.rest) = some (shape, (withReturns (s.rest.take n)).length) := by
      rw [Shape.first?_withReturns noReturn (apart inside), found]
      rfl
    refine ⟨_, found', ?_, fun inLine => ?_, ?_⟩
    · exact Returned.drop ⟨noReturn, rfl⟩ n
    · obtain ⟨member, rfl, -⟩ := Shape.first?_eq_some found
      rw [take_withReturns, withReturns_plain ((Shape.inLine_length member inLine).plain noReturn)]
    · rintro rfl
      rfl

theorem AtJoin.rejects (join : s.AtJoin n) (inStep : InStep Returned plainValue s t) :
    t.Rejects ⟨.unterminatedString, t.position⟩ := by
  obtain ⟨noReturn, same⟩ := inStep.rest
  obtain ⟨inside, found, joins⟩ := join
  obtain ⟨-, size, positive⟩ := Shape.first?_eq_some found
  rw [size] at joins
  have unclosed : Literal.length t.rest = 0 := same ▸ (Literal.length_withReturns noReturn).2 joins
  cases opens : Literal.opening? s.rest with
  | none => exact absurd (by simp [Shape.length, Literal.length, opens]) positive
  | some start =>
    have opens' : Literal.opening? t.rest = some start :=
      same ▸ (Literal.opening?_withReturns noReturn).trans opens
    have more : t.rest ≠ [] := by
      rintro empty
      simp [empty, Literal.opening?] at opens'
    refine .reads more (inStep.atLine_iff.not.mpr inside) ?_
    rw [readHead_of_first? (Shape.first?_openString opens' unclosed)]
    rfl

/-- Up to the first such string the readers are in step. -/
theorem InStep.rejects_of_join (inStep : InStep Returned plainValue s t) (path : Reaches s u)
    (join : u.AtJoin n) : ∃ v, Reaches t v ∧ v.Rejects ⟨.unterminatedString, v.position⟩ := by
  induction path using Relation.ReflTransGen.head_induction_on generalizing t with
  | refl => exact ⟨t, .refl, join.rejects inStep⟩
  | @head s w move further ih =>
    by_cases earlier : ∃ k, s.AtJoin k
    · exact ⟨t, .refl, earlier.choose_spec.rejects inStep⟩
    · obtain ⟨v, move', inStep'⟩ := inStep.move_of_respelled
        (respelled_withReturns inStep.rest fun k join => earlier ⟨k, join⟩) move
      obtain ⟨x, path, rejects⟩ := ih inStep'
      exact ⟨x, path.head move', rejects⟩

end Lexer

/-- The text has a string in single quotes that goes on behind the end of a line. -/
def JoinsInQuotes (source file : String) : Prop :=
  ∃ s n, Lexer.Reaches { file, rest := source.toList } s ∧ s.AtJoin n

/-- The text with a carriage return in front of every line feed. -/
def withReturns (source : String) : String := String.ofList (Text.withReturns source.toList)

theorem inStep_withReturns (noReturn : '\r' ∉ source.toList) :
    Lexer.InStep Lexer.Returned Lexer.plainValue { file, rest := source.toList }
      { file, rest := (withReturns source).toList } :=
  ⟨⟨rfl, rfl, rfl, rfl⟩, noReturn, String.toList_ofList⟩

/-- With carriage returns in front of its line feeds a text is read as before, with the same tokens up to
their places and the values of strings, unless it has a string in single quotes that goes on behind the
end of a line. Such a string is not closed then. -/
theorem line_endings_alike {source file : String} (noReturn : '\r' ∉ source.toList) :
    (¬ JoinsInQuotes source file →
      words Lexer.plainValue (withReturns source) file = words Lexer.plainValue source file) ∧
    (JoinsInQuotes source file →
      ∃ place, tokenize (withReturns source) file = .error ⟨.unterminatedString, place⟩) := by
  constructor
  · intro apart
    exact Lexer.words_eq ((inStep_withReturns noReturn).run fun u path cs returned =>
      Lexer.respelled_withReturns returned fun n join => apart ⟨u, n, path, join⟩)
  · rintro ⟨s, n, path, join⟩
    obtain ⟨t, path', rejects⟩ := (inStep_withReturns noReturn).rejects_of_join path join
    exact ⟨t.position, tokenize_eq_error_iff.mpr ⟨t, path', rejects⟩⟩

/-- A string in single quotes over two lines. -/
def Text.joinedString : String := "\x27a\\\nb\x27"

theorem joinsInQuotes_joinedString : JoinsInQuotes Text.joinedString "m" := by
  refine ⟨{ file := "m", rest := Text.joinedString.toList, atLineStart := false }, 6,
    .single (.opens (by decide) ⟨rfl, rfl⟩ rfl), by simp [Lexer.AtLine], by decide, ?_⟩
  exact ⟨[], '\x27', ['a', '\\', '\n', 'b'],
    ⟨by decide, by decide, by simp, '\x27', by decide, by decide⟩, by decide⟩

/-- A block of two lines behind a comment. -/
def Text.commentedBlock : String := "if a: # c\n  b = \x27c\x27\n  d\n"

theorem joinedString_unclosed :
    ('\r' ∉ Text.commentedBlock.toList ∧ ¬ JoinsInQuotes Text.commentedBlock "m" ∧
      words Lexer.plainValue (withReturns Text.commentedBlock) "m" =
        words Lexer.plainValue Text.commentedBlock "m") ∧
    '\r' ∉ Text.joinedString.toList ∧ JoinsInQuotes Text.joinedString "m" ∧
      ∃ place, tokenize (withReturns Text.joinedString) "m" = .error ⟨.unterminatedString, place⟩ := by
  have read : (tokenize (withReturns Text.commentedBlock) "m").isOk = true := by decide +kernel
  have returnless : '\r' ∉ Text.commentedBlock.toList := by decide
  have apart : ¬ JoinsInQuotes Text.commentedBlock "m" := by
    intro joins
    obtain ⟨place, failed⟩ := (line_endings_alike returnless).2 joins
    rw [failed] at read
    cases read
  have noReturn : '\r' ∉ Text.joinedString.toList := by decide
  have joins := joinsInQuotes_joinedString
  exact ⟨⟨returnless, apart, (line_endings_alike returnless).1 apart⟩, noReturn, joins,
    (line_endings_alike noReturn).2 joins⟩

/-- With line feeds alone the string is read. -/
theorem line_endings_differ : '\r' ∉ Text.joinedString.toList ∧
    (tokenize Text.joinedString "m").isOk = true ∧
    (tokenize (withReturns Text.joinedString) "m").isOk = false := by
  decide +kernel

end FlowTypes
