import FlowTypes.Proofs.LineLayout
import FlowTypes.Proofs.Lossless
import FlowTypes.Tree.Display

/-! Quoted text reads back. A character is written in one of three ways. Each of them leaves the literal
open, and the reader gets the character back from it, unless it is written by its code point: then the
escape stays as it stands. -/
namespace FlowTypes

open Text

variable {c : Char} {cs rest : List Char} {n : Nat}

namespace Text

/-- The character is written by its code point. -/
def IsCoded (c : Char) : Prop := ['\\', 'u', '\x7b'] <+: quoteChar c

instance : DecidablePred IsCoded := fun c => inferInstanceAs (Decidable (_ <+: quoteChar c))

/-- A character that means itself anywhere between double quotes. -/
def IsPlain (c : Char) : Prop := c ≠ '"' ∧ c ≠ '\\' ∧ c ≠ '\r' ∧ c ≠ '\n'

instance : DecidablePred IsPlain := fun _ => inferInstanceAs (Decidable (_ ∧ _))

theorem exists_digitChar (member : d ∈ Nat.toDigits 16 n) : ∃ k, d = Nat.digitChar k := by
  induction n using Nat.strong_induction_on with
  | _ n ih =>
    rw [Nat.toDigits_eq_if (by decide)] at member
    split at member
    · exact ⟨n, List.mem_singleton.mp member⟩
    · rcases List.mem_append.mp member with first | last
      · exact ih (n / 16) (Nat.div_lt_self (by omega) (by decide)) first
      · exact ⟨n % 16, List.mem_singleton.mp last⟩

theorem isPlain_digitChar (k : Nat) : IsPlain (Nat.digitChar k) := by
  refine ⟨?_, ?_, ?_, ?_⟩ <;> exact Nat.digitChar_ne _ (by decide)

theorem quoteChar_cases (c : Char) : (IsPlain c ∧ quoteChar c = [c]) ∨
    (∃ letter, Literal.escapes.lookup letter = some c ∧ letter ≠ 'x' ∧ letter ≠ '\n' ∧
      quoteChar c = ['\\', letter]) ∨
    ∃ code, (∀ d ∈ '\x7b' :: code, IsPlain d) ∧ quoteChar c = '\\' :: 'u' :: '\x7b' :: code := by
  have short : ∀ letter, Literal.escapes.lookup letter = some c → letter ≠ 'x' ∧ letter ≠ '\n' →
      ∃ l, Literal.escapes.lookup l = some c ∧ l ≠ 'x' ∧ l ≠ '\n' ∧ ['\\', letter] = ['\\', l] :=
    fun letter escapes other => ⟨letter, escapes, other.1, other.2, rfl⟩
  unfold quoteChar
  split_ifs with isQuote isEscape isTab isReturn isFeed isNull shown
  · exact .inr (.inl (short '"' (by rw [isQuote]; rfl) (by decide)))
  · exact .inr (.inl (short '\\' (by rw [isEscape]; rfl) (by decide)))
  · exact .inr (.inl (short 't' (by rw [isTab]; rfl) (by decide)))
  · exact .inr (.inl (short 'r' (by rw [isReturn]; rfl) (by decide)))
  · exact .inr (.inl (short 'n' (by rw [isFeed]; rfl) (by decide)))
  · exact .inr (.inl (short '0' (by rw [isNull]; rfl) (by decide)))
  · exact .inl ⟨⟨isQuote, isEscape, isReturn, isFeed⟩, rfl⟩
  · refine .inr (.inr ⟨Nat.toDigits 16 c.toNat ++ ['\x7d'], fun d member => ?_, rfl⟩)
    rcases List.mem_cons.mp member with rfl | member
    · decide
    · rcases List.mem_append.mp member with digit | brace
      · obtain ⟨k, rfl⟩ := exists_digitChar digit
        exact isPlain_digitChar k
      · rw [List.mem_singleton.mp brace]
        decide

/-- What the reader makes of a character in quoted text. -/
def readBack (c : Char) : List Char := if IsCoded c then quoteChar c else [c]

theorem readBack_of_short (short : (quoteChar c).length < 3) : readBack c = [c] :=
  if_neg fun coded => absurd coded.length_le (by simpa using short)

theorem length_le_readBack (cs : List Char) : cs.length ≤ (cs.flatMap readBack).length := by
  induction cs with
  | nil => exact Nat.le_refl 0
  | cons c cs ih =>
    have positive : 1 ≤ (readBack c).length := by
      unfold readBack
      split
      · next coded => exact Nat.le_trans (by decide) coded.length_le
      · exact Nat.le_refl 1
    simp only [List.flatMap_cons, List.length_append, List.length_cons]
    omega

/-- Text is read back as it was unless a character in it is written by its code point. -/
theorem flatMap_readBack_eq_iff : cs.flatMap readBack = cs ↔ ∀ c ∈ cs, ¬ IsCoded c := by
  induction cs with
  | nil => simp
  | cons c cs ih =>
    rw [List.flatMap_cons, List.forall_mem_cons, ← ih]
    by_cases coded : IsCoded c
    · have longer : 3 ≤ (quoteChar c).length := coded.length_le
      have others := length_le_readBack cs
      refine iff_of_false (fun same => ?_) (fun both => both.1 coded)
      have sizes := congrArg List.length same
      rw [readBack, if_pos coded, List.length_append, List.length_cons] at sizes
      omega
    · rw [readBack, if_neg coded, List.singleton_append, List.cons.injEq]
      simp [coded]

end Text

namespace Literal

theorem closeSingle_plain (plain : IsPlain c) :
    closeSingle '"' n (c :: rest) = closeSingle '"' (n + 1) rest := by
  obtain ⟨noQuote, noEscape, noReturn, noFeed⟩ := plain
  simp [closeSingle_cons noEscape, noQuote, noReturn, noFeed]

theorem closeSingle_plains (plain : ∀ d ∈ cs, IsPlain d) :
    closeSingle '"' n (cs ++ rest) = closeSingle '"' (n + cs.length) rest := by
  induction cs generalizing n with
  | nil => rfl
  | cons c cs ih =>
    rw [List.cons_append, closeSingle_plain (plain c List.mem_cons_self),
      ih fun d member => plain d (List.mem_cons_of_mem c member), List.length_cons,
      Nat.add_right_comm n, Nat.add_assoc]

theorem closeSingle_quoteChar :
    closeSingle '"' n (quoteChar c ++ rest) = closeSingle '"' (n + (quoteChar c).length) rest := by
  rcases quoteChar_cases c with ⟨plain, same⟩ | ⟨letter, -, -, -, same⟩ | ⟨code, plain, same⟩ <;>
    rw [same]
  · exact closeSingle_plain plain
  · rw [List.cons_append, List.cons_append, closeSingle]
    rfl
  · rw [List.cons_append, List.cons_append, closeSingle, closeSingle_plains plain]
    simp only [List.length_cons]
    congr 1
    omega

/-- The quotes close at the end of quoted text and not before. -/
theorem closeSingle_quoted : closeSingle '"' n (cs.flatMap quoteChar ++ ['"']) =
      some (n + (cs.flatMap quoteChar).length + 1) := by
  induction cs generalizing n with
  | nil => exact closeSingle_quote rfl
  | cons c cs ih =>
    rw [List.flatMap_cons, List.append_assoc, closeSingle_quoteChar, ih, List.length_append,
      Nat.add_assoc n]

/-- No character is written with a quote in front, so quoted text never starts with three quotes. -/
theorem not_triple_quoteChars : ¬ ['"', '"', '"'] <+: quoteChars cs := by
  cases cs with
  | nil => decide
  | cons c cs =>
    rcases quoteChar_cases c with ⟨plain, same⟩ | ⟨letter, -, -, -, same⟩ | ⟨code, -, same⟩ <;>
      simp [quoteChars, same]
    exact fun isQuote => absurd isQuote.symm plain.1

theorem length_quoteChars : length (quoteChars cs) = (quoteChars cs).length := by
  have opens : opening? (quoteChars cs) = some (0, '"') := rfl
  have single : (quoteChars cs).take 3 ≠ ['"', '"', '"'] := fun three =>
    not_triple_quoteChars (List.prefix_iff_eq_take.mpr three.symm)
  have closes : closeSingle '"' 1 ((quoteChars cs).drop 1) = some (quoteChars cs).length := by
    rw [quoteChars, List.cons_append, List.drop_one, List.tail_cons, closeSingle_quoted]
    simp only [List.length_cons, List.length_append, List.length_nil]
    congr 1
    omega
  simp only [length, opens, List.drop_zero, bodyLength?, if_neg single, closes, Nat.zero_add]

theorem unescape_plain (other : c ≠ '\\') : unescape (c :: rest) = c :: unescape rest := by
  rw [unescape.eq_def]
  split
  · next same => cases same
  · next same => exact absurd (List.cons.inj same).1 other
  · next same => exact absurd (List.cons.inj same).1 other
  · next same => cases same; rfl

theorem unescape_plains (plain : ∀ d ∈ cs, IsPlain d) :
    unescape (cs ++ rest) = cs ++ unescape rest := by
  induction cs with
  | nil => rfl
  | cons c cs ih =>
    rw [List.cons_append, unescape_plain (plain c List.mem_cons_self).2.1,
      ih fun d member => plain d (List.mem_cons_of_mem c member), List.cons_append]

theorem unescape_quoteChar : unescape (quoteChar c ++ rest) = readBack c ++ unescape rest := by
  rcases quoteChar_cases c with ⟨plain, same⟩ | ⟨letter, escapes, other, noBreak, same⟩ |
    ⟨code, plain, same⟩
  · rw [readBack_of_short (by simp [same]), same]
    exact unescape_plain plain.2.1
  · rw [readBack_of_short (by simp [same]), same, List.cons_append, List.cons_append, List.nil_append,
      unescape, if_neg noBreak, if_neg other, escapes]
    rfl
  · have coded : IsCoded c := ⟨code, same.symm⟩
    have unknown : escapes.lookup 'u' = none := rfl
    rw [readBack, if_pos coded, same, List.cons_append, List.cons_append, unescape,
      if_neg (by decide), if_neg (by decide), unknown]
    show '\\' :: 'u' :: unescape ('\x7b' :: code ++ rest) = _
    rw [unescape_plains plain]
    rfl

theorem unescape_quoted : unescape (cs.flatMap quoteChar) = cs.flatMap readBack := by
  induction cs with
  | nil => rw [List.flatMap_nil, unescape, List.flatMap_nil]
  | cons c cs ih => rw [List.flatMap_cons, unescape_quoteChar, ih, List.flatMap_cons]

theorem value_quoteChars : value (quoteChars cs) = cs.flatMap readBack := by
  have quoted : Quoted (quoteChars cs) [] ['"'] (cs.flatMap quoteChar) :=
    ⟨rfl, by simp, by simp, '"', rfl, .inr ⟨rfl, not_triple_quoteChars⟩⟩
  rw [quoted.value_eq, if_neg (by simp), unescape_quoted]

end Literal

/-- In the outermost block only the last line is left to close. -/
theorem Lexer.finish_line {s : Lexer} (inside : s.midLine = true) (outermost : s.widths = [0])
    (done : s.rest = []) :
    s.finish = (s.tokens.push ⟨.newline, "", ⟨s.position, s.position⟩⟩).push
      ⟨.eof, "EOF", ⟨s.position, s.position⟩⟩ := by
  simp [finish, inside, outermost, push, spanOf, position, done, pushDedents, byteSize]

/-- The tokens of a text that is one string. -/
def stringTokens (text value file : String) : Array Token :=
  let stop : Position := ⟨text.utf8ByteSize, file⟩
  #[⟨.string, value, ⟨⟨0, file⟩, stop⟩⟩, ⟨.newline, "", ⟨stop, stop⟩⟩, ⟨.eof, "EOF", ⟨stop, stop⟩⟩]

theorem tokenize_quote : tokenize (quote value) file =
      .ok (stringTokens (quote value) (String.ofList (value.toList.flatMap readBack)) file) := by
  let text := quoteChars value.toList
  let start : Lexer := { file, rest := text, atLineStart := false }
  let stop := start.take .string (value.toList.flatMap readBack) text.length
  have more : text ≠ [] := by simp [text, quoteChars]
  -- The line starts without indentation, so the quotes are at its head.
  have opens : Lexer.Move { file, rest := text } start := .opens more ⟨rfl, rfl⟩ rfl
  have read : start.readHead = .ok stop := by
    have length : Literal.length start.rest = text.length := Literal.length_quoteChars
    have found : Literal.length start.rest ≠ 0 := by simp [length, text, quoteChars]
    rw [Lexer.readHead_literal found, length, show start.rest.take text.length = text from
      List.take_length, Literal.value_quoteChars]
  have reads : Lexer.Move start stop := .reads more (fun starts => Bool.noConfusion starts.1) read
  have done : stop.rest = [] := List.drop_length
  have position : stop.position = ⟨(quote value).utf8ByteSize, file⟩ := by
    show (⟨0 + byteSize (text.take text.length), file⟩ : Position) = _
    rw [Nat.zero_add, List.take_length, byteSize_eq_utf8ByteSize]
    rfl
  have tokens : stop.tokens = #[⟨.string, String.ofList (value.toList.flatMap readBack),
    ⟨start.position, stop.position⟩⟩] := rfl
  rw [tokenize, quote, String.toList_ofList, Lexer.run_of_move opens, Lexer.run_of_move reads,
    Lexer.run_eq, if_pos done, Except.map, Lexer.finish_line rfl rfl done, tokens, position]
  rfl

/-- The text of a string expression is read as that string, in one token, exactly if no character of it
has to be written by its code point. -/
theorem tokenize_text_string_iff (node : Node) (value file : String) :
    tokenize (Expr.text (.string node value)) file =
        .ok (stringTokens (Expr.text (.string node value)) value file) ↔
      ∀ c ∈ value.toList, ¬ IsCoded c := by
  rw [Expr.text, tokenize_quote, ← flatMap_readBack_eq_iff, Except.ok.injEq]
  constructor
  · intro same
    have first : String.ofList (value.toList.flatMap readBack) = value := by
      simpa [stringTokens] using same
    rw [← String.toList_ofList (l := value.toList.flatMap readBack), first]
  · intro same
    rw [same, String.ofList_toList]

end FlowTypes
