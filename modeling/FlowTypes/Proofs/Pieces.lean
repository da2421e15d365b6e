import Mathlib.Logic.Relation
import FlowTypes.Proofs.Literals
import FlowTypes.Token.Lexer

/-! The pieces a text is read in. A step of the reader leaves characters without a meaning behind, or
gives them a token that stands for them; it does nothing else to the text, its place in it and the
tokens. -/
namespace FlowTypes

inductive LineBreak : List Char → Prop
  | lf : LineBreak ['\n']
  | crlf : LineBreak ['\r', '\n']

/-- Characters without a meaning: blanks, line breaks, backslashes that join two lines, and comments,
which go on to the end of their line. What follows is `after`. -/
inductive Filler (after : List Char) : List Char → Prop
  | none : Filler after []
  | blank {c : Char} {gap : List Char} (isSpace : Shape.isSpace c) (others : Filler after gap) :
      Filler after (c :: gap)
  | lineBreak {ending gap : List Char} (isBreak : LineBreak ending) (others : Filler after gap) :
      Filler after (ending ++ gap)
  | joined {ending gap : List Char} (isBreak : LineBreak ending) (others : Filler after gap) :
      Filler after ('\\' :: (ending ++ gap))
  | comment {body gap : List Char} (inside : ∀ c ∈ body, ¬ Shape.isBreak c)
      (ends : ∀ c ∈ (gap ++ after).head?, Shape.isBreak c) (others : Filler after gap) :
      Filler after ('#' :: (body ++ gap))

theorem Filler.append (before : Filler (second ++ after) first) (others : Filler after second) :
    Filler after (first ++ second) := by
  induction before with
  | none => exact others
  | blank isSpace _ ih => exact .blank isSpace ih
  | lineBreak isBreak _ ih => simpa using Filler.lineBreak isBreak ih
  | joined isBreak _ ih => simpa using Filler.joined isBreak ih
  | comment inside ends _ ih => simpa using Filler.comment inside (by simpa using ends) ih

theorem Filler.of_isSpace (blanks : ∀ c ∈ gap, Shape.isSpace c) : Filler after gap := by
  induction gap with
  | nil => exact .none
  | cons c gap ih => exact .blank (blanks c (by simp)) (ih fun d found => blanks d (by simp [found]))

namespace Shape

variable {cs : List Char} {s : Shape} {n : Nat}

theorem lineBreak_of_length (found : lineBreakLength cs ≠ 0) :
    LineBreak (cs.take (lineBreakLength cs)) := by
  fun_cases lineBreakLength cs with
  | case1 => exact .lf
  | case2 => exact .crlf
  | case3 => simp [lineBreakLength] at found

theorem take_runLength : cs.take (runLength p cs) = cs.takeWhile p :=
  (List.prefix_iff_eq_take.mp (List.takeWhile_prefix p)).symm

theorem drop_runLength : cs.drop (runLength p cs) = cs.dropWhile p :=
  calc cs.drop (runLength p cs)
    _ = (cs.takeWhile p ++ cs.dropWhile p).drop (runLength p cs) := by
      rw [List.takeWhile_append_dropWhile]
    _ = cs.dropWhile p := List.drop_left

theorem filler_of_gapLength (found : gapLength cs ≠ 0) :
    Filler (cs.drop (gapLength cs)) (cs.take (gapLength cs)) := by
  fun_cases gapLength cs with
  | case1 cs =>
    rw [Nat.add_comm, List.drop_succ_cons, List.take_succ_cons, drop_runLength,
      take_runLength, ← List.append_nil (cs.takeWhile _)]
    refine .comment (fun c inside => ?_) (fun c next => ?_) .none
    · simpa using List.all_eq_true.mp List.all_takeWhile c inside
    · have stops := List.head?_dropWhile_not (fun c => !isBreak c) cs
      rw [List.nil_append] at next
      rw [next] at stops
      simpa using stops
  | case2 cs zero => simp [gapLength, zero] at found
  | case3 cs positive =>
    rw [Nat.add_comm, List.drop_succ_cons, List.take_succ_cons, ← List.append_nil (cs.take _)]
    exact .joined (lineBreak_of_length positive) .none
  | case4 cs noComment noJoin =>
    rw [take_runLength]
    exact .of_isSpace (List.all_eq_true.mp List.all_takeWhile)

theorem first?_eq_some (found : first? cs = some (s, n)) :
    s ∈ all ∧ n = s.length cs ∧ s.length cs ≠ 0 := by
  obtain ⟨t, member, same⟩ := List.exists_of_findSome?_eq_some found
  split at same
  · cases same
  · case isFalse positive =>
    cases same
    exact ⟨member, rfl, positive⟩

theorem noGap_of_opening? (opens : Literal.opening? cs = some start) :
    gapLength cs = 0 ∧ lineBreakLength cs = 0 := by
  have starts : ∃ c others, cs = c :: others ∧ (Literal.isMark c ∨ Literal.isQuote c) := by
    obtain ⟨isQuote, ⟨tail, body⟩, -, areMarks⟩ := Literal.opening?_eq_some opens
    cases cs with
    | nil => simp at body
    | cons c others =>
      refine ⟨c, others, rfl, ?_⟩
      cases marks : start.1 with
      | zero =>
        rw [marks, List.drop_zero] at body
        exact .inr ((List.cons.inj body).1 ▸ isQuote)
      | succ n => exact .inl (areMarks c (by simp [marks]))
  obtain ⟨c, others, rfl, first⟩ := starts
  have other : ∀ d, Literal.isMark d = false → Literal.isQuote d = false → c ≠ d := by
    rintro d noMark noQuote rfl
    simp [noMark, noQuote] at first
  constructor
  · unfold gapLength
    split
    · next same => exact absurd (List.cons.inj same).1 (other _ rfl rfl)
    · next same => exact absurd (List.cons.inj same).1 (other _ rfl rfl)
    · simp [runLength, isSpace, other ' ' rfl rfl, other '\t' rfl rfl, other '\x0c' rfl rfl]
  · unfold lineBreakLength
    split
    · next same => exact absurd (List.cons.inj same).1 (other _ rfl rfl)
    · next same => exact absurd (List.cons.inj same).1 (other _ rfl rfl)
    · rfl

theorem first?_literal (found : Literal.length cs ≠ 0) :
    first? cs = some (string, Literal.length cs) := by
  cases opens : Literal.opening? cs with
  | none => simp [Literal.length, opens] at found
  | some start =>
    obtain ⟨noGap, noBreak⟩ := noGap_of_opening? opens
    simp [first?, all, length, noGap, noBreak, found]

theorem first?_openString (opens : Literal.opening? cs = some start)
    (unclosed : Literal.length cs = 0) : first? cs = some (openString, 1) := by
  obtain ⟨noGap, noBreak⟩ := noGap_of_opening? opens
  simp [first?, all, length, noGap, noBreak, unclosed, opens]

end Shape

/-- The kinds of tokens that are spelled out: everything but strings and layout. -/
def Kind.isSpelled : Kind → Bool
  | string | newline | indent | dedent | eof => false
  | _ => true

/-- The kinds of tokens that may stand for no character at all. -/
def Kind.isLayout : Kind → Bool
  | newline | indent | dedent | eof => true
  | _ => false

theorem Kind.isSpelled_ofWord : (ofWord word).isSpelled := by
  unfold ofWord
  cases found : reserved.lookup word with
  | none => rfl
  | some k =>
    obtain ⟨before, after, same, -⟩ := List.lookup_eq_some_iff.mp found
    have spelled : ∀ entry ∈ reserved, entry.2.isSpelled := by decide
    exact spelled (word, k) (same ▸ by simp)

namespace Shape

theorem isSpelled_opening {first : Option Char} :
    ((first.bind openingKind?).getD .openCurly).isSpelled := by
  cases first with
  | none => rfl
  | some c =>
    dsimp only [Option.bind_some]
    unfold openingKind?
    split <;> rfl

theorem isSpelled_closing {first : Option Char} :
    ((first.bind closingKind?).getD .closeCurly).isSpelled := by
  cases first with
  | none => rfl
  | some c =>
    dsimp only [Option.bind_some]
    unfold closingKind?
    split <;> rfl

theorem symbol_eq (member : symbol text kind ∈ all) (found : (symbol text kind).length cs ≠ 0) :
    text = cs.take ((symbol text kind).length cs) ∧ kind.isSpelled := by
  constructor
  · simp only [length] at found ⊢
    split at found
    · case isTrue starts =>
      rw [if_pos starts]
      exact List.prefix_iff_eq_take.mp (List.isPrefixOf_iff_prefix.mp starts)
    · contradiction
  · simp only [all, List.mem_append, List.mem_cons, reduceCtorEq, List.not_mem_nil, or_self, false_or,
      List.mem_map] at member
    obtain ⟨entry, listed, same⟩ := member
    cases same
    have spelled : ∀ entry ∈ Kind.symbols, entry.2.isSpelled := by decide
    exact spelled entry listed

end Shape

/-- What a token of the kind and with the value can stand for in a text. -/
def Stands (kind : Kind) (value text : List Char) : Prop :=
  match kind with
  | .string => ∃ marks quote content, Literal.Quoted text marks quote content ∧
      value = if 'r' ∈ marks ∨ 'R' ∈ marks then content else Literal.unescape content
  | .newline => text = [] ∨ LineBreak text
  | .indent => ∀ c ∈ text, Shape.isSpace c
  | .dedent | .eof => text = []
  | _ => value = text

theorem stands_of_isSpelled (spelled : kind.isSpelled) : Stands kind text text := by
  cases kind <;> cases spelled <;> rfl

namespace Lexer

/-- One piece of the text is left behind, as filler or with a token. The layout fields may change in
any way. -/
inductive Piece (s : Lexer) : Lexer → Prop
  | skip {n depth : Nat} {widths : List Nat} {atLineStart : Bool}
      (filler : Filler (s.rest.drop n) (s.rest.take n)) :
      Piece s { s.advance n with depth, widths, atLineStart }
  | token {n depth : Nat} {widths : List Nat} {atLineStart : Bool} {kind : Kind} {value : String}
      (stands : Stands kind value.toList (s.rest.take n))
      (inked : kind.isLayout = false → s.rest.take n ≠ []) :
      Piece s { (s.push kind value n).advance n with depth, widths, atLineStart }

abbrev Pieces : Lexer → Lexer → Prop := Relation.ReflTransGen Piece

variable {s t : Lexer} {n : Nat}

theorem Piece.pushEmpty (kind : Kind) (value : String) (stands : Stands kind value.toList [])
    (layout : kind.isLayout = true) : Piece s (s.push kind value 0) :=
  .token (n := 0) stands (by simp [layout])

theorem Piece.take (stands : Stands kind value (s.rest.take n)) (inked : s.rest.take n ≠ []) :
    Piece s (s.take kind value n) :=
  .token (by rwa [String.toList_ofList]) fun _ => inked

theorem pieces_pushDedents (s : Lexer) (n : Nat) : Pieces s (s.pushDedents n) := by
  induction n generalizing s with
  | zero => exact .refl
  | succ n ih => exact .head (.pushEmpty .dedent "" rfl rfl) (ih _)

theorem piece_closeLine (isBreak : LineBreak (s.rest.take n)) : Piece s (s.closeLine n) := by
  have filler : Filler (s.rest.drop n) (s.rest.take n) := by
    rw [← List.append_nil (s.rest.take n)]
    exact .lineBreak isBreak .none
  unfold closeLine
  split
  · split
    · exact .token (.inr isBreak) (by rintro ⟨⟩)
    · exact .skip filler
  · exact .skip filler

theorem pieces_openLine (opened : s.openLine = .ok t) : Pieces s t := by
  have blanks : ∀ c ∈ s.rest.takeWhile Shape.isSpace, Shape.isSpace c :=
    List.all_eq_true.mp List.all_takeWhile
  have taken : s.rest.take (s.rest.takeWhile Shape.isSpace).length =
      s.rest.takeWhile Shape.isSpace := Shape.take_runLength
  have filler : Filler (s.rest.drop (s.rest.takeWhile Shape.isSpace).length)
      (s.rest.take (s.rest.takeWhile Shape.isSpace).length) := by
    rw [taken]
    exact .of_isSpace blanks
  simp only [openLine] at opened
  split at opened
  · cases opened
    exact .single (.skip filler)
  · split at opened
    · cases opened
      refine .single (.token ?_ (by rintro ⟨⟩))
      show ∀ c ∈ s.rest.take _, Shape.isSpace c
      rw [taken]
      exact blanks
    · split at opened
      · cases opened
      · cases opened
        -- The blocks that end here close in front of the indentation.
        refine .head (.skip (n := 0) .none) (.tail (pieces_pushDedents _ _) (.skip ?_))
        simpa using filler

theorem piece_readShape (found : Shape.first? s.rest = some (shape, n))
    (read : s.readShape shape n = .ok t) : Piece s t := by
  obtain ⟨member, rfl, positive⟩ := Shape.first?_eq_some found
  have inked : s.rest.take (shape.length s.rest) ≠ [] := by
    have nothing : Shape.first? [] = none := by decide
    intro empty
    rcases List.take_eq_nil_iff.mp empty with none | none
    · exact positive none
    · rw [none, nothing] at found
      cases found
  cases shape with
  | gap =>
    cases read
    exact .skip (Shape.filler_of_gapLength positive)
  | lineBreak =>
    cases read
    exact piece_closeLine (Shape.lineBreak_of_length positive)
  | string =>
    cases read
    obtain ⟨marks, quote, content, quoted⟩ := Literal.quoted_of_length positive
    exact .take ⟨marks, quote, content, quoted, quoted.value_eq⟩ inked
  | openString => cases read
  | number =>
    cases read
    exact .take (stands_of_isSpelled rfl) inked
  | word =>
    cases read
    exact .take (stands_of_isSpelled Kind.isSpelled_ofWord) inked
  | opening =>
    cases read
    refine .token ?_ fun _ => inked
    rw [String.toList_ofList]
    exact stands_of_isSpelled Shape.isSpelled_opening
  | closing =>
    cases read
    refine .token ?_ fun _ => inked
    rw [String.toList_ofList]
    exact stands_of_isSpelled Shape.isSpelled_closing
  | symbol text kind =>
    cases read
    obtain ⟨same, spelled⟩ := Shape.symbol_eq member positive
    exact .take (same ▸ stands_of_isSpelled spelled) inked

theorem readHead_literal (found : Literal.length s.rest ≠ 0) :
    s.readHead = .ok (s.take .string (Literal.value (s.rest.take (Literal.length s.rest)))
      (Literal.length s.rest)) := by
  unfold readHead
  split
  · next empty => simp [empty, Literal.length, Literal.opening?] at found
  · rw [Shape.first?_literal found]
    rfl

theorem pieces_readHead (read : s.readHead = .ok t) : Pieces s t := by
  unfold readHead at read
  split at read
  · cases read
    exact .refl
  · split at read
    · case h_1 shape n found => exact .single (piece_readShape found read)
    · cases read

theorem pieces_step (read : s.step = .ok t) : Pieces s t := by
  unfold step at read
  split at read
  · cases opened : s.openLine with
    | error e => simp [opened, Except.bind] at read
    | ok u =>
      simp only [opened, Except.bind] at read
      exact (pieces_openLine opened).trans (pieces_readHead read)
  · exact pieces_readHead read

theorem pieces_finish (s : Lexer) : ∃ t : Lexer, Pieces s t ∧ t.rest = s.rest ∧
    s.finish = (t.push .eof "EOF" 0).tokens := by
  unfold finish
  split
  · exact ⟨_, .head (.pushEmpty .newline "" (.inl rfl) rfl) (pieces_pushDedents _ _),
      rest_pushDedents _ _, rfl⟩
  · exact ⟨_, pieces_pushDedents _ _, rest_pushDedents _ _, rfl⟩

end Lexer
end FlowTypes
