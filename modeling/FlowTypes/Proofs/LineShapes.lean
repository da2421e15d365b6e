import FlowTypes.Proofs.Pieces

/-! What stands in one line. Most shapes end with their line at the latest, so that their length at the
head of a text depends on the first line of the text alone. -/
namespace FlowTypes

namespace Shape

/-- The text has come to its end, or to the end of a line. -/
inductive Stops : List Char → Prop
  | text : Stops []
  | carriage : Stops ('\r' :: others)
  | feed : Stops ('\n' :: others)

variable {cs tail text : List Char} {p : Char → Bool}

theorem takeWhile_append (stops : Stops tail) (ends : p '\r' = false ∧ p '\n' = false) :
    (cs ++ tail).takeWhile p = cs.takeWhile p := by
  induction cs with
  | nil => cases stops <;> simp [ends]
  | cons c cs ih => simp only [List.cons_append, List.takeWhile_cons, ih]

theorem runLength_append (stops : Stops tail) (ends : p '\r' = false ∧ p '\n' = false) :
    runLength p (cs ++ tail) = runLength p cs := by
  rw [runLength, takeWhile_append stops ends, runLength]

theorem runLength_le (p : Char → Bool) (cs : List Char) : runLength p cs ≤ cs.length :=
  (List.takeWhile_prefix p).length_le

/-- What is measured at the head of a text is part of its first line. -/
structure InLine (measure : List Char → Nat) : Prop where
  append : ∀ {cs tail}, Stops tail → measure (cs ++ tail) = measure cs
  le : ∀ cs, measure cs ≤ cs.length

theorem baseDigit?_ends (found : baseDigit? letter = some p) : p '\r' = false ∧ p '\n' = false := by
  unfold baseDigit? at found
  split at found
  · cases found
    decide
  · split at found
    · cases found
      decide
    · split at found <;> cases found
      decide

theorem inLine_basedLength : InLine basedLength where
  append {cs tail} stops := by
    rcases cs with _ | ⟨c, _ | ⟨letter, cs⟩⟩
    · cases stops <;> rfl
    · by_cases zero : c = '0'
      · subst zero
        cases stops <;> rfl
      · simp [basedLength, zero]
    · by_cases zero : c = '0'
      · subst zero
        cases digits : baseDigit? letter with
        | none => simp [basedLength, digits]
        | some p => simp [basedLength, digits, runLength_append stops (baseDigit?_ends digits)]
      · simp [basedLength, zero]
  le cs := by
    fun_cases basedLength cs with
    | case2 letter cs p digits some =>
      have := runLength_le p cs
      simp only [List.length_cons]
      omega
    | case1 | case3 | case4 => exact Nat.zero_le _

theorem inLine_wholeLength : InLine wholeLength where
  append {cs tail} stops := by
    cases cs with
    | nil => cases stops <;> rfl
    | cons c cs => simp [wholeLength, runLength_append stops (p := isDigitOrBar) (by decide)]
  le cs := by
    fun_cases wholeLength cs with
    | case1 c cs digit =>
      have := runLength_le isDigitOrBar cs
      simp only [List.length_cons]
      omega
    | case2 | case3 => exact Nat.zero_le _

theorem inLine_exponentLength : InLine exponentLength where
  append {cs tail} stops := by
    rcases cs with _ | ⟨e, _ | ⟨c, cs⟩⟩
    · cases stops <;> rfl
    · cases stops <;>
        simp [exponentLength, runLength, Char.isDigit]
    · have digits : runLength Char.isDigit (c :: (cs ++ tail)) = runLength Char.isDigit (c :: cs) :=
        show runLength Char.isDigit ((c :: cs) ++ tail) = _ from runLength_append stops (by decide)
      by_cases plus : c = '+'
      · subst plus
        simp [exponentLength, runLength_append stops (p := Char.isDigit) (by decide)]
      · by_cases minus : c = '-'
        · subst minus
          simp [exponentLength, runLength_append stops (p := Char.isDigit) (by decide)]
        · simp [exponentLength, digits, plus, minus]
  le cs := by
    cases cs with
    | nil => exact Nat.zero_le _
    | cons e cs =>
      have bound : ∀ sign, (if runLength Char.isDigit (cs.drop sign) = 0 then 0
          else 1 + sign + runLength Char.isDigit (cs.drop sign)) ≤ (e :: cs).length := by
        intro sign
        have digits := runLength_le Char.isDigit (cs.drop sign)
        rw [List.length_drop] at digits
        rw [List.length_cons]
        split <;> omega
      show (if (decide (e = 'e') || decide (e = 'E')) = true then _ else 0) ≤ _
      split
      · exact bound _
      · exact Nat.zero_le _

/-- A point and the digits behind it. Without digits in front of it there is one behind it. -/
def fractionLength (whole : Nat) : List Char → Nat
  | '.' :: ds =>
    if whole = 0 then (if wholeLength ds = 0 then 0 else 1 + wholeLength ds)
    else 1 + runLength isDigitOrBar ds
  | _ => 0

theorem inLine_fractionLength (whole : Nat) : InLine (fractionLength whole) where
  append {cs tail} stops := by
    cases cs with
    | nil => cases stops <;> rfl
    | cons c cs =>
      by_cases point : c = '.'
      · subst point
        simp only [List.cons_append, fractionLength, inLine_wholeLength.append stops,
          runLength_append stops (p := isDigitOrBar) (by decide)]
      · simp [fractionLength, point]
  le cs := by
    fun_cases fractionLength whole cs with
    | case1 | case4 => exact Nat.zero_le _
    | case2 ds =>
      have := inLine_wholeLength.le ds
      rw [List.length_cons]
      omega
    | case3 ds =>
      have := runLength_le isDigitOrBar ds
      rw [List.length_cons]
      omega

/-- The digits of a number and its fraction, without an exponent. -/
def mantissaLength (cs : List Char) : Nat :=
  wholeLength cs + fractionLength (wholeLength cs) (cs.drop (wholeLength cs))

theorem decimalLength_eq : decimalLength cs =
    if mantissaLength cs = 0 then 0
    else mantissaLength cs + exponentLength (cs.drop (mantissaLength cs)) := rfl

theorem inLine_mantissaLength : InLine mantissaLength where
  append {cs tail} stops := by
    rw [mantissaLength, inLine_wholeLength.append stops,
      List.drop_append_of_le_length (inLine_wholeLength.le cs), (inLine_fractionLength _).append stops]
    rfl
  le cs := by
    have whole := inLine_wholeLength.le cs
    have fraction := (inLine_fractionLength (wholeLength cs)).le (cs.drop (wholeLength cs))
    rw [List.length_drop] at fraction
    unfold mantissaLength
    omega

theorem inLine_decimalLength : InLine decimalLength where
  append {cs tail} stops := by
    rw [decimalLength_eq, decimalLength_eq, inLine_mantissaLength.append stops,
      List.drop_append_of_le_length (inLine_mantissaLength.le cs), inLine_exponentLength.append stops]
  le cs := by
    have mantissa := inLine_mantissaLength.le cs
    have exponent := inLine_exponentLength.le (cs.drop (mantissaLength cs))
    rw [List.length_drop] at exponent
    rw [decimalLength_eq]
    split <;> omega

theorem inLine_numberLength : InLine numberLength where
  append {cs tail} stops := by
    have based : basedLength (cs ++ tail) = basedLength cs := inLine_basedLength.append stops
    have decimal : decimalLength (cs ++ tail) = decimalLength cs := inLine_decimalLength.append stops
    have bound : (if basedLength cs = 0 then decimalLength cs else basedLength cs) ≤ cs.length := by
      split
      · exact inLine_decimalLength.le cs
      · exact inLine_basedLength.le cs
    simp only [numberLength, based, decimal, List.drop_append_of_le_length bound]
    generalize (if basedLength cs = 0 then decimalLength cs else basedLength cs) = n
    cases n with
    | zero => rfl
    | succ n =>
      cases cs.drop (n + 1) with
      | nil => cases stops <;> rfl
      | cons c others => rfl
  le cs := by
    have bound : (if basedLength cs = 0 then decimalLength cs else basedLength cs) ≤ cs.length := by
      split
      · exact inLine_decimalLength.le cs
      · exact inLine_basedLength.le cs
    unfold numberLength
    extract_lets n
    split
    · exact Nat.zero_le _
    · next c others ahead _ =>
      have size := congrArg List.length ahead
      rw [List.length_drop, List.length_cons] at size
      split <;> omega
    · exact bound

theorem inLine_wordLength : InLine wordLength where
  append {cs tail} stops := by
    cases cs with
    | nil => cases stops <;> rfl
    | cons c cs => simp [wordLength, runLength_append stops (p := isWordChar) (by decide)]
  le cs := by
    fun_cases wordLength cs with
    | case1 c cs starts =>
      have := runLength_le isWordChar cs
      rw [List.length_cons]
      omega
    | case2 | case3 => exact Nat.zero_le _

theorem isPrefixOf_append (cs : List Char) (stops : Stops tail)
    (plain : ∀ c ∈ text, isBreak c = false) :
    text.isPrefixOf (cs ++ tail) = text.isPrefixOf cs := by
  induction text generalizing cs with
  | nil => simp
  | cons c text ih =>
    cases cs with
    | nil =>
      have other : c ≠ '\r' ∧ c ≠ '\n' := by simpa [isBreak] using plain c List.mem_cons_self
      cases stops <;> simp [List.isPrefixOf, other]
    | cons d cs =>
      simp only [List.cons_append, List.isPrefixOf,
        ih _ fun e member => plain e (List.mem_cons_of_mem c member)]

/-- Quotes in a row are in one line. -/
theorem take_eq_quotes (cs : List Char) (isQuote : Literal.isQuote q) (stops : Stops tail) :
    (cs ++ tail).take quotes = List.replicate quotes q ↔
      cs.take quotes = List.replicate quotes q := by
  have plain : ∀ c ∈ List.replicate quotes q, isBreak c = false := by
    intro c member
    obtain rfl := List.eq_of_mem_replicate member
    have isDelimiter : c = '"' ∨ c = '\x27' := by simpa [Literal.isQuote] using isQuote
    rcases isDelimiter with rfl | rfl <;> rfl
  have same := isPrefixOf_append cs stops plain
  rw [Bool.eq_iff_iff, List.isPrefixOf_iff_prefix, List.isPrefixOf_iff_prefix,
    List.prefix_iff_eq_take, List.prefix_iff_eq_take, List.length_replicate] at same
  rw [eq_comm, same, eq_comm]

theorem opening?_append (stops : Stops tail) :
    Literal.opening? (cs ++ tail) = Literal.opening? cs := by
  rcases cs with _ | ⟨a, _ | ⟨b, cs⟩⟩
  · cases stops <;> rfl
  · have noMark : Literal.isMark '\r' = false ∧ Literal.isMark '\n' = false := by decide
    by_cases mark : Literal.isMark a = true <;>
      cases stops <;>
      simp [Literal.opening?, mark, noMark, Literal.isQuote]
  · have few : (((a :: b :: cs).take 2).takeWhile Literal.isMark).length ≤ (a :: b :: cs).length :=
      ((List.takeWhile_prefix _).trans (List.take_prefix _ _)).length_le
    have start : ((a :: b :: cs) ++ tail).take 2 = (a :: b :: cs).take 2 := rfl
    simp only [Literal.opening?, start, List.drop_append_of_le_length few]
    cases (a :: b :: cs).drop _ with
    | nil => cases stops <;> rfl
    | cons => rfl

/-- The shapes that end with their line at the latest. -/
def isInLine : Shape → Bool
  | gap | lineBreak | string => false
  | _ => true

theorem inLine_length (member : s ∈ all) (inside : s.isInLine) : InLine s.length := by
  cases s with
  | gap | lineBreak | string => cases inside
  | number => exact inLine_numberLength
  | word => exact inLine_wordLength
  | openString =>
    refine ⟨fun stops => by simp only [length, opening?_append stops], fun cs => ?_⟩
    cases cs with
    | nil => exact Nat.le_refl 0
    | cons c cs => rw [length]; split <;> simp
  | opening | closing =>
    constructor
    · intro cs tail stops
      cases cs with
      | nil => cases stops <;> rfl
      | cons c cs => rfl
    · intro cs
      cases cs with
      | nil => exact Nat.le_refl 0
      | cons c cs => rw [length]; split <;> simp
  | symbol text kind =>
    have plain : ∀ entry ∈ Kind.symbols, ∀ c ∈ entry.1.toList, isBreak c = false := by
      have all : Kind.symbols.all fun entry => entry.1.toList.all (!isBreak ·) := by decide
      simpa using all
    simp only [all, List.mem_append, List.mem_cons, reduceCtorEq, List.not_mem_nil, or_self, false_or,
      List.mem_map] at member
    obtain ⟨entry, listed, same⟩ := member
    cases same
    refine ⟨fun stops => ?_, fun cs => ?_⟩
    · simp only [length, isPrefixOf_append _ stops (plain entry listed)]
    · rw [length]
      split
      · next starts => exact (List.isPrefixOf_iff_prefix.mp starts).length_le
      · exact Nat.zero_le _

theorem length_le (cs : List Char) (member : s ∈ all) : s.length cs ≤ cs.length := by
  have ending : ∀ cs, lineBreakLength cs ≤ cs.length := fun cs => by
    fun_cases lineBreakLength cs <;> simp
  cases inside : s.isInLine with
  | true => exact (inLine_length member inside).le cs
  | false =>
    cases s with
    | gap =>
      show gapLength cs ≤ _
      fun_cases gapLength cs with
      | case1 cs =>
        have := runLength_le (fun c => !isBreak c) cs
        rw [List.length_cons]
        omega
      | case2 => exact Nat.zero_le _
      | case3 cs =>
        have := ending cs
        rw [List.length_cons]
        omega
      | case4 => exact runLength_le isSpace _
    | lineBreak => exact ending cs
    | string => exact Literal.length_le
    | _ => cases inside

/-- Where every shape has another length, and none that was not there is, the first is the same. -/
theorem first?_congr (f : Nat → Nat) (zero : ∀ s ∈ all, f (s.length cs) = 0 ↔ s.length cs = 0)
    (same : ∀ s ∈ all, s.length cs' = f (s.length cs)) :
    first? cs' = (first? cs).map fun found => (found.1, f found.2) := by
  unfold first?
  generalize all = shapes at zero same
  induction shapes with
  | nil => rfl
  | cons s shapes ih =>
    have others := ih (fun t member => zero t (List.mem_cons_of_mem s member))
      fun t member => same t (List.mem_cons_of_mem s member)
    simp only [List.findSome?_cons, same s List.mem_cons_self, zero s List.mem_cons_self, others]
    by_cases absent : s.length cs = 0 <;> simp [absent]

end Shape

end FlowTypes
