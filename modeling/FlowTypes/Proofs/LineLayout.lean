import Mathlib.Data.List.Chain
import Mathlib.Data.List.Induction
import Mathlib.Logic.Relation
import FlowTypes.Proofs.Pieces

/-! How the lines of a text show in its tokens. Every token is pushed behind the ones before it, so the
layout of the tokens so far is a relation that grows with them; it counts the blocks that are open,
which are those whose widths the reader keeps. -/
namespace FlowTypes

/-! ### Tokens in lines -/

/-- Tokens in lines, with so many blocks open behind the last of them. -/
inductive Layout : List Token → Nat → Prop
  | none : Layout [] 0
  | indent {tokens : List Token} {blocks : Nat} {t : Token} (before : Layout tokens blocks)
      (isIndent : t.kind = .indent) (silent : t.value = "")
      (starts : ∀ last ∈ tokens.getLast?, last.kind = .newline) :
      Layout (tokens ++ [t]) (blocks + 1)
  | dedent {tokens : List Token} {blocks : Nat} {t : Token} (before : Layout tokens (blocks + 1))
      (isDedent : t.kind = .dedent) (silent : t.value = "")
      (starts : ∀ last ∈ tokens.getLast?, last.kind = .newline ∨ last.kind = .dedent) :
      Layout (tokens ++ [t]) blocks
  | newline {tokens : List Token} {blocks : Nat} {t last : Token} (before : Layout tokens blocks)
      (isNewline : t.kind = .newline) (ending : t.value = "\\n" ∨ t.value = "")
      (ends : tokens.getLast? = some last) (inside : last.kind ≠ .newline) :
      Layout (tokens ++ [t]) blocks
  | inLine {tokens : List Token} {blocks : Nat} {t : Token} (before : Layout tokens blocks)
      (inside : t.kind = .string ∨ t.kind.isSpelled) : Layout (tokens ++ [t]) blocks

/-- Which tokens can stand side by side. -/
def Token.Meets (a b : Token) : Prop :=
  (b.kind = .newline → a.kind ≠ .newline) ∧
  (b.kind = .indent → a.kind = .newline) ∧
  (b.kind = .dedent → a.kind = .newline ∨ a.kind = .dedent)

/-- How many tokens of a kind there are. -/
def countKind (kind : Kind) (tokens : List Token) : Nat := tokens.countP (·.kind = kind)

theorem countKind_concat :
    countKind kind (tokens ++ [t]) = countKind kind tokens + if t.kind = kind then 1 else 0 := by
  simp [countKind, List.countP_append, List.countP_singleton]

theorem Kind.inLine_ne {k : Kind} (inside : k = .string ∨ k.isSpelled) :
    k ≠ .newline ∧ k ≠ .indent ∧ k ≠ .dedent ∧ k ≠ .eof := by
  rcases inside with rfl | spelled
  · decide
  · cases k <;> cases spelled <;> decide

namespace Layout

variable {tokens first second : List Token} {blocks : Nat}

theorem count (layout : Layout tokens blocks) :
    countKind .indent tokens = countKind .dedent tokens + blocks := by
  induction layout with
  | none => rfl
  | indent _ isIndent _ _ ih =>
    rw [countKind_concat, countKind_concat, isIndent, if_pos rfl, if_neg (by decide)]
    omega
  | dedent _ isDedent _ _ ih =>
    rw [countKind_concat, countKind_concat, isDedent, if_pos rfl, if_neg (by decide)]
    omega
  | newline _ isNewline _ _ _ ih =>
    rw [countKind_concat, countKind_concat, isNewline, if_neg (by decide), if_neg (by decide)]
    omega
  | inLine _ inside ih =>
    obtain ⟨-, noIndent, noDedent, -⟩ := Kind.inLine_ne inside
    rw [countKind_concat, countKind_concat, if_neg noIndent, if_neg noDedent]
    omega

theorem of_append (layout : Layout (first ++ second) blocks) : ∃ blocks', Layout first blocks' := by
  induction second using List.reverseRecOn generalizing blocks with
  | nil => exact ⟨blocks, by simpa using layout⟩
  | append_singleton second t ih =>
    rw [← List.append_assoc] at layout
    generalize whole : first ++ second ++ [t] = tokens at layout
    cases layout with
    | none => simp at whole
    | indent before | dedent before | newline before | inLine before =>
      obtain ⟨rfl, -⟩ := List.append_inj' whole rfl
      exact ih before

theorem count_le (layout : Layout tokens blocks) (start : first <+: tokens) :
    countKind .dedent first ≤ countKind .indent first := by
  obtain ⟨second, rfl⟩ := start
  obtain ⟨blocks', before⟩ := layout.of_append
  have := before.count
  omega

theorem ne_eof (layout : Layout tokens blocks) : ∀ t ∈ tokens, t.kind ≠ .eof := by
  induction layout with
  | none => exact fun _ found => nomatch found
  | indent _ same _ _ ih | dedent _ same _ _ ih | newline _ same _ _ _ ih =>
    intro t found
    rcases List.mem_append.mp found with earlier | last
    · exact ih t earlier
    · rw [List.mem_singleton.mp last, same]
      decide
  | inLine _ inside ih =>
    intro t found
    rcases List.mem_append.mp found with earlier | last
    · exact ih t earlier
    · rw [List.mem_singleton.mp last]
      exact (Kind.inLine_ne inside).2.2.2

theorem meets (layout : Layout tokens blocks) : tokens.IsChain Token.Meets := by
  have concat : ∀ {tokens : List Token} {t : Token}, tokens.IsChain Token.Meets →
      (∀ last ∈ tokens.getLast?, last.Meets t) → (tokens ++ [t]).IsChain Token.Meets := by
    intro tokens t chain meets
    apply List.isChain_append.mpr
    refine ⟨chain, .singleton t, fun last found => ?_⟩
    rintro _ ⟨⟩
    exact meets last found
  induction layout with
  | none => exact .nil
  | indent _ isIndent _ starts ih =>
    apply concat ih
    intro last found
    simp [Token.Meets, isIndent, starts last found]
  | dedent _ isDedent _ starts ih =>
    apply concat ih
    intro last found
    simp [Token.Meets, isDedent, starts last found]
  | newline _ isNewline _ ends inside ih =>
    apply concat ih
    intro last found
    cases ends.symm.trans found
    simp [Token.Meets, isNewline, inside]
  | inLine _ inside ih =>
    apply concat ih
    intro last found
    obtain ⟨noNewline, noIndent, noDedent, -⟩ := Kind.inLine_ne inside
    simp [Token.Meets, noNewline, noIndent, noDedent]

theorem head (layout : Layout tokens blocks) :
    ∀ t ∈ tokens.head?, t.kind ≠ .newline ∧ t.kind ≠ .dedent := by
  have concat : ∀ {tokens : List Token} {t : Token},
      (∀ u ∈ tokens.head?, u.kind ≠ .newline ∧ u.kind ≠ .dedent) →
      (tokens = [] → t.kind ≠ .newline ∧ t.kind ≠ .dedent) →
      ∀ u ∈ (tokens ++ [t]).head?, u.kind ≠ .newline ∧ u.kind ≠ .dedent := by
    intro tokens t others own
    cases tokens with
    | nil =>
      rintro _ ⟨⟩
      exact own rfl
    | cons => exact others
  induction layout with
  | none => exact fun _ found => nomatch found
  | indent _ isIndent _ _ ih => exact concat ih fun _ => by rw [isIndent]; decide
  | dedent before _ _ _ ih =>
    apply concat ih
    rintro rfl
    exact absurd before.count (by simp [countKind])
  | newline _ _ _ ends _ ih =>
    apply concat ih
    rintro rfl
    cases ends
  | inLine _ inside ih =>
    obtain ⟨noNewline, -, noDedent, -⟩ := Kind.inLine_ne inside
    exact concat ih fun _ => ⟨noNewline, noDedent⟩

end Layout

/-- The tokens of a whole text, in lines and blocks. -/
structure InLines (tokens : List Token) : Prop where
  balanced : ∀ first, first <+: tokens → countKind .dedent first ≤ countKind .indent first
  closed : countKind .dedent tokens = countKind .indent tokens
  /-- The mark for the end is the last token and no other. -/
  ended : ∃ before last, tokens = before ++ [last] ∧ last.kind = .eof ∧
    ∀ t ∈ before, t.kind ≠ .eof
  starts : ∀ t ∈ tokens.head?, t.kind ≠ .newline ∧ t.kind ≠ .dedent
  meets : tokens.IsChain Token.Meets

theorem Layout.inLines (layout : Layout tokens 0) (isEof : last.kind = .eof) :
    InLines (tokens ++ [last]) where
  balanced first start := by
    rcases List.prefix_concat_iff.mp start with rfl | start
    · have := layout.count
      rw [countKind_concat, countKind_concat, isEof, if_neg (by decide), if_neg (by decide)]
      omega
    · exact layout.count_le start
  closed := by
    rw [countKind_concat, countKind_concat, isEof, if_neg (by decide), if_neg (by decide),
      layout.count]
  ended := ⟨tokens, last, rfl, isEof, layout.ne_eof⟩
  starts t found := by
    cases tokens with
    | nil =>
      cases found
      rw [isEof]
      decide
    | cons u others => exact layout.head t found
  meets := by
    apply List.isChain_append.mpr
    refine ⟨layout.meets, .singleton last, fun t _ => ?_⟩
    rintro _ ⟨⟩
    simp [Token.Meets, isEof]

/-! ### Open blocks -/

/-- The widths of open blocks, innermost first: from the outermost on they grow strictly from zero. -/
structure Widening (widths : List Nat) : Prop where
  outermost : widths.getLast? = some 0
  grows : widths.Pairwise (· > ·)

namespace Widening

variable {widths : List Nat} {width : Nat}

theorem length_pos (widening : Widening widths) : 0 < widths.length := by
  apply List.length_pos_iff.mpr
  rintro rfl
  cases widening.outermost

theorem cons (widening : Widening widths) (wider : widths.headD 0 < width) :
    Widening (width :: widths) := by
  obtain ⟨outermost, grows⟩ := widening
  cases widths with
  | nil => cases outermost
  | cons top others =>
    constructor
    · rw [List.getLast?_cons_cons]
      exact outermost
    · apply List.pairwise_cons.mpr
      refine ⟨fun w found => ?_, grows⟩
      have : top < width := wider
      rcases List.mem_cons.mp found with rfl | found
      · exact this
      · have := (List.pairwise_cons.mp grows).1 w found
        omega

theorem dropWhile (widening : Widening widths) :
    ∃ top others, widths.dropWhile (· > width) = top :: others ∧ top ≤ width ∧
      Widening (top :: others) := by
  obtain ⟨outermost, grows⟩ := widening
  induction widths with
  | nil => cases outermost
  | cons top others ih =>
    by_cases wider : top > width
    · rw [List.dropWhile_cons_of_pos (by simpa using wider)]
      cases others with
      | nil =>
        cases outermost
        exact absurd wider (Nat.not_lt_zero width)
      | cons => exact ih (by simpa using outermost) (List.pairwise_cons.mp grows).2
    · rw [List.dropWhile_cons_of_neg (by simpa using wider)]
      exact ⟨top, others, rfl, by omega, outermost, grows⟩

/-- The innermost block that is not wider than a line is exactly as wide as it if any block is. -/
theorem head_dropWhile_eq_iff (widening : Widening widths) :
    (widths.dropWhile (· > width)).headD 0 = width ↔ width ∈ widths := by
  obtain ⟨top, others, same, narrow, rest⟩ := widening.dropWhile
  have split : widths.takeWhile (· > width) ++ (top :: others) = widths := by
    rw [← same, List.takeWhile_append_dropWhile]
  rw [same]
  constructor
  · intro isTop
    have isTop : top = width := isTop
    rw [← split, isTop]
    simp
  · intro found
    rw [← split] at found
    rcases List.mem_append.mp found with wider | found
    · have := List.all_eq_true.mp List.all_takeWhile width wider
      simp at this
    · rcases List.mem_cons.mp found with rfl | inner
      · rfl
      · have : width < top := (List.pairwise_cons.mp rest.grows).1 width inner
        omega

end Widening

/-! ### Reading line by line -/

namespace Lexer

variable {s t : Lexer}

/-- A line that counts starts here, or would. -/
def AtLine (s : Lexer) : Prop := s.atLineStart = true ∧ s.depth = 0

/-- The reader opens a line, or reads the shape in front of it. -/
inductive Move (s t : Lexer) : Prop
  | opens (more : s.rest ≠ []) (starts : s.AtLine) (opened : s.openLine = .ok t)
  | reads (more : s.rest ≠ []) (inside : ¬ s.AtLine) (read : s.readHead = .ok t)

abbrev Reaches : Lexer → Lexer → Prop := Relation.ReflTransGen Move

/-- The reader cannot go on from here. -/
inductive Rejects (s : Lexer) (e : Error) : Prop
  | opens (more : s.rest ≠ []) (starts : s.AtLine) (failed : s.openLine = .error e)
  | reads (more : s.rest ≠ []) (inside : ¬ s.AtLine) (failed : s.readHead = .error e)

theorem atLineStart_openLine (opened : s.openLine = .ok t) : t.atLineStart = false := by
  have dedents : ∀ (s : Lexer) (n : Nat), (s.pushDedents n).atLineStart = s.atLineStart := by
    intro s n
    induction n generalizing s with
    | zero => rfl
    | succ n ih => exact ih _
  simp only [openLine] at opened
  split at opened
  · cases opened
    rfl
  · split at opened
    · cases opened
      rfl
    · split at opened
      · cases opened
      · cases opened
        exact dedents _ _

theorem step_of_atLine (starts : s.AtLine) : s.step = s.openLine.bind readHead := by
  obtain ⟨isStart, outside⟩ := starts
  simp [step, isStart, outside]

theorem step_of_not_atLine (inside : ¬ s.AtLine) : s.step = s.readHead := by
  unfold step
  rw [if_neg]
  simpa [AtLine] using inside

theorem run_of_move (move : Move s t) : s.run = t.run := by
  cases move with
  | opens more starts opened =>
    rw [run_eq s, if_neg more, step_of_atLine starts, opened]
    show t.readHead.bind run = t.run
    by_cases done : t.rest = []
    · have ended : t.readHead = .ok t := by simp [readHead, done]
      rw [ended]
      rfl
    · have inside : ¬ t.AtLine := by simp [AtLine, atLineStart_openLine opened]
      rw [run_eq t, if_neg done, step_of_not_atLine inside]
  | reads more inside read =>
    rw [run_eq s, if_neg more, step_of_not_atLine inside, read]
    rfl

theorem run_of_rejects (rejects : s.Rejects e) : s.run = .error e := by
  cases rejects with
  | opens more starts failed =>
    rw [run_eq, if_neg more, step_of_atLine starts, failed]
    rfl
  | reads more inside failed =>
    rw [run_eq, if_neg more, step_of_not_atLine inside, failed]
    rfl

theorem run_of_reaches (reaches : Reaches s t) : s.run = t.run := by
  induction reaches with
  | refl => rfl
  | tail _ move ih => rw [ih, run_of_move move]

theorem Reaches.pieces (path : Reaches s t) : Pieces s t := by
  induction path with
  | refl => exact .refl
  | tail _ move ih =>
    cases move with
    | opens _ _ opened => exact ih.trans (pieces_openLine opened)
    | reads _ _ read => exact ih.trans (pieces_readHead read)

theorem moves_step (more : s.rest ≠ []) :
    (∃ t, s.step = .ok t ∧ Reaches s t) ∨ ∃ e t, s.step = .error e ∧ Reaches s t ∧ t.Rejects e := by
  by_cases starts : s.AtLine
  · rw [step_of_atLine starts]
    cases opened : s.openLine with
    | error e => exact .inr ⟨e, s, rfl, .refl, .opens more starts opened⟩
    | ok u =>
      have first : Reaches s u := .single (.opens more starts opened)
      by_cases done : u.rest = []
      · exact .inl ⟨u, by simp [Except.bind, readHead, done], first⟩
      · have inside : ¬ u.AtLine := by simp [AtLine, atLineStart_openLine opened]
        cases read : u.readHead with
        | error e => exact .inr ⟨e, u, read, first, .reads done inside read⟩
        | ok t => exact .inl ⟨t, read, first.tail (.reads done inside read)⟩
  · rw [step_of_not_atLine starts]
    cases read : s.readHead with
    | error e => exact .inr ⟨e, s, rfl, .refl, .reads more starts read⟩
    | ok t => exact .inl ⟨t, rfl, .single (.reads more starts read)⟩

theorem run_cases (s : Lexer) : (∃ t, s.run = .ok t ∧ Reaches s t ∧ t.rest = []) ∨
      ∃ e t, s.run = .error e ∧ Reaches s t ∧ t.Rejects e := by
  induction size : s.rest.length using Nat.strongRecOn generalizing s with
  | _ n ih =>
    by_cases done : s.rest = []
    · exact .inl ⟨s, by rw [run_eq, if_pos done], .refl, done⟩
    · rcases moves_step done with ⟨u, stepped, path⟩ | ⟨e, t, -, path, rejects⟩
      · have shorter := step_shorter done stepped
        have same := run_of_reaches path
        rcases ih _ (by omega) u rfl with ⟨t, ran, further, ended⟩ | ⟨e, t, ran, further, rejects⟩
        · exact .inl ⟨t, same.trans ran, path.trans further, ended⟩
        · exact .inr ⟨e, t, same.trans ran, path.trans further, rejects⟩
      · have failed := (run_of_reaches path).trans (run_of_rejects rejects)
        exact .inr ⟨e, t, failed, path, rejects⟩

theorem run_eq_error_iff : s.run = .error e ↔ ∃ t, Reaches s t ∧ t.Rejects e := by
  constructor
  · intro failed
    rcases s.run_cases with ⟨t, ran, -⟩ | ⟨e', t, ran, path, rejects⟩
    · cases failed.symm.trans ran
    · cases failed.symm.trans ran
      exact ⟨t, path, rejects⟩
  · rintro ⟨t, path, rejects⟩
    exact (run_of_reaches path).trans (run_of_rejects rejects)

/-! ### What reading keeps -/

theorem midLine_eq_false (between : s.midLine = false) :
    ∀ last ∈ s.tokens.toList.getLast?, last.kind = .newline := by
  intro last found
  unfold midLine at between
  rw [Array.getLast?_toList] at found
  rw [Option.mem_def.mp found] at between
  simpa using between

theorem midLine_eq_true (inside : s.midLine = true) :
    ∃ last, s.tokens.toList.getLast? = some last ∧ last.kind ≠ .newline := by
  unfold midLine at inside
  rw [Array.getLast?_toList]
  split at inside
  · cases inside
  · next last found => exact ⟨last, found, by simpa using inside⟩

/-- The tokens so far are in lines, the blocks that they leave open are those with a width, and a line
starts only behind another line. -/
structure Lined (s : Lexer) : Prop where
  layout : Layout s.tokens.toList (s.widths.length - 1)
  widening : Widening s.widths
  fresh : s.atLineStart = true → s.depth = 0 ∧ s.midLine = false

namespace Lined

theorem initial (source : List Char) (file : String) : Lined { file, rest := source } where
  layout := .none
  widening := ⟨rfl, List.pairwise_singleton _ _⟩
  fresh _ := ⟨rfl, rfl⟩

theorem grow (lined : Lined s) (inside : kind = .string ∨ kind.isSpelled)
    (tokens : t.tokens = s.tokens.push ⟨kind, value, span⟩) (widths : t.widths = s.widths)
    (settled : t.atLineStart = false) : Lined t where
  layout := by
    rw [tokens, widths, Array.toList_push]
    exact .inLine lined.layout inside
  widening := widths ▸ lined.widening
  fresh starts := by
    rw [settled] at starts
    cases starts

theorem same (lined : Lined s) (tokens : t.tokens = s.tokens) (widths : t.widths = s.widths)
    (settled : t.atLineStart = false) : Lined t where
  layout := by
    rw [tokens, widths]
    exact lined.layout
  widening := widths ▸ lined.widening
  fresh starts := by
    rw [settled] at starts
    cases starts

end Lined

theorem layout_pushDedents (layout : Layout s.tokens.toList (blocks + n))
    (starts : ∀ last ∈ s.tokens.toList.getLast?, last.kind = .newline ∨ last.kind = .dedent) :
    Layout (s.pushDedents n).tokens.toList blocks := by
  induction n generalizing s with
  | zero => exact layout
  | succ n ih =>
    apply ih
    · rw [push, Array.toList_push]
      exact .dedent layout rfl rfl starts
    · rw [push, Array.toList_push, List.getLast?_concat]
      rintro _ ⟨⟩
      exact .inr rfl

@[simp] theorem widths_pushDedents (s : Lexer) (n : Nat) : (s.pushDedents n).widths = s.widths := by
  induction n generalizing s with
  | zero => rfl
  | succ n ih => exact ih _

theorem Lined.openLine (lined : Lined s) (starts : s.AtLine) (opened : s.openLine = .ok t) :
    Lined t := by
  have behind := midLine_eq_false (lined.fresh starts.1).2
  have settled := atLineStart_openLine opened
  have blocks := lined.widening.length_pos
  simp only [Lexer.openLine] at opened
  split at opened
  · cases opened
    exact lined.same rfl rfl settled
  · split at opened
    · next wider =>
      cases opened
      constructor
      · show Layout (s.tokens.push _).toList (s.widths.length + 1 - 1)
        rw [Array.toList_push, show s.widths.length + 1 - 1 = s.widths.length - 1 + 1 by omega]
        exact .indent lined.layout rfl rfl behind
      · exact lined.widening.cons wider
      · intro isStart
        cases isStart
    · split at opened
      · cases opened
      · obtain ⟨top, others, same, -, widening⟩ := lined.widening.dropWhile
        have fewer : (top :: others).length ≤ s.widths.length :=
          same ▸ (List.dropWhile_suffix _).length_le
        rw [List.length_cons] at fewer
        rw [same] at opened
        cases opened
        constructor
        · show Layout (pushDedents _ _).tokens.toList ((pushDedents _ _).widths.length - 1)
          rw [widths_pushDedents, List.length_cons]
          apply layout_pushDedents
          · rw [show others.length + 1 - 1 + (s.widths.length - (others.length + 1)) =
              s.widths.length - 1 by omega]
            exact lined.layout
          · exact fun last found => .inl (behind last found)
        · show Widening (pushDedents _ _).widths
          rw [widths_pushDedents]
          exact widening
        · intro isStart
          rw [settled] at isStart
          cases isStart

theorem Lined.closeLine (lined : Lined s) (settled : s.atLineStart = false) (n : Nat) :
    Lined (s.closeLine n) := by
  unfold Lexer.closeLine
  split
  · next outside =>
    cases inside : s.midLine with
    | true =>
      obtain ⟨last, ends, other⟩ := midLine_eq_true inside
      constructor
      · show Layout (s.tokens.push _).toList (s.widths.length - 1)
        rw [Array.toList_push]
        exact .newline lined.layout rfl (.inl rfl) ends other
      · exact lined.widening
      · intro _
        refine ⟨outside, ?_⟩
        show (push s _ _ _).midLine = false
        simp [midLine, push]
    | false => exact ⟨lined.layout, lined.widening, fun _ => ⟨outside, inside⟩⟩
  · exact lined.same rfl rfl settled

theorem Lined.readShape (lined : Lined s) (settled : s.atLineStart = false)
    (found : Shape.first? s.rest = some (shape, n)) (read : s.readShape shape n = .ok t) :
    Lined t := by
  obtain ⟨member, rfl, positive⟩ := Shape.first?_eq_some found
  cases shape with
  | gap =>
    cases read
    exact lined.same rfl rfl settled
  | lineBreak =>
    cases read
    exact lined.closeLine settled _
  | string =>
    cases read
    exact lined.grow (.inl rfl) rfl rfl settled
  | openString => cases read
  | number =>
    cases read
    exact lined.grow (.inr rfl) rfl rfl settled
  | word =>
    cases read
    exact lined.grow (.inr Kind.isSpelled_ofWord) rfl rfl settled
  | opening =>
    cases read
    exact lined.grow (.inr Shape.isSpelled_opening) rfl rfl settled
  | closing =>
    cases read
    exact lined.grow (.inr Shape.isSpelled_closing) rfl rfl settled
  | symbol text kind =>
    cases read
    exact lined.grow (.inr (Shape.symbol_eq member positive).2) rfl rfl settled

theorem Lined.move (lined : Lined s) (move : Move s t) : Lined t := by
  cases move with
  | opens more starts opened => exact lined.openLine starts opened
  | reads more inside read =>
    have settled : s.atLineStart = false := by
      by_contra isStart
      have isStart : s.atLineStart = true := by simpa using isStart
      exact inside ⟨isStart, (lined.fresh isStart).1⟩
    unfold readHead at read
    split at read
    · contradiction
    · split at read
      · next found => exact lined.readShape settled found read
      · cases read

theorem Lined.reaches (lined : Lined s) (path : Reaches s t) : Lined t := by
  induction path with
  | refl => exact lined
  | tail _ move ih => exact ih.move move

/-- At the end of the text its last line is closed, and then every block. -/
theorem Lined.finish (lined : Lined s) : ∃ before last, s.finish.toList = before ++ [last] ∧
    Layout before 0 ∧ last.kind = .eof ∧ last.value = "EOF" := by
  have closed : ∀ u : Lexer, Layout u.tokens.toList (u.widths.length - 1) → u.midLine = false →
      ∃ before last, ((u.pushDedents (u.widths.length - 1)).push .eof "EOF" 0).tokens.toList =
        before ++ [last] ∧ Layout before 0 ∧ last.kind = .eof ∧ last.value = "EOF" := by
    intro u layout between
    rw [push, Array.toList_push]
    refine ⟨_, _, rfl, ?_, rfl, rfl⟩
    apply layout_pushDedents
    · rwa [Nat.zero_add]
    · exact fun last found => .inl (midLine_eq_false between last found)
  unfold Lexer.finish
  cases inside : s.midLine with
  | true =>
    obtain ⟨last, ends, other⟩ := midLine_eq_true inside
    apply closed (s.push .newline "" 0)
    · rw [push, Array.toList_push]
      exact .newline lined.layout rfl (.inr rfl) ends other
    · simp [midLine, push]
  | false => exact closed s lined.layout inside

end Lexer

theorem layout_tokenize (read : tokenize source file = .ok tokens) :
    ∃ before last, tokens.toList = before ++ [last] ∧
      Layout before 0 ∧ last.kind = .eof ∧ last.value = "EOF" := by
  unfold tokenize at read
  rcases Lexer.run_cases { file, rest := source.toList } with ⟨t, ran, path, -⟩ | ⟨e, _, ran, -⟩
  · rw [ran] at read
    cases read
    exact ((Lexer.Lined.initial source.toList file).reaches path).finish
  · rw [ran] at read
    cases read

theorem inLines_tokenize (read : tokenize source file = .ok tokens) : InLines tokens.toList := by
  obtain ⟨before, last, split, layout, isEnd, -⟩ := layout_tokenize read
  rw [split]
  exact layout.inLines isEnd

theorem tokenize_eq_error_iff : tokenize source file = .error e ↔
      ∃ s, Lexer.Reaches { file, rest := source.toList } s ∧ s.Rejects e := by
  rw [← Lexer.run_eq_error_iff, tokenize]
  cases Lexer.run { file, rest := source.toList } with
  | ok t => exact ⟨(nomatch ·), (nomatch ·)⟩
  | error e' =>
    show Except.error e' = _ ↔ _
    rw [Except.error.injEq, Except.error.injEq]

namespace Lexer

variable {s : Lexer}

/-! ### Lines that meet no open block -/

/-- A text that starts with something other than blanks, a comment or a line break. -/
def Counts (text : List Char) : Prop :=
  ∃ c others, text = c :: others ∧ Shape.isSpace c = false ∧ c ≠ '#' ∧
    ∀ ending, LineBreak ending → ¬ ending <+: text

/-- The reader is at the start of a line outside of brackets: first its indentation, then a text that
counts. -/
structure AtLogicalLine (s : Lexer) (blank text : List Char) : Prop where
  starts : s.AtLine
  line : s.rest = blank ++ text
  blanks : ∀ c ∈ blank, Shape.isSpace c
  counts : Counts text

/-- The indentation is less than the width of the innermost block, and no open block has its width. -/
structure Misses (s : Lexer) (blank : List Char) : Prop where
  narrower : ∃ top ∈ s.widths.head?, blank.foldl widen 0 < top
  absent : blank.foldl widen 0 ∉ s.widths

theorem lineBreakLength_eq_zero_iff :
    Shape.lineBreakLength text = 0 ↔ ∀ ending, LineBreak ending → ¬ ending <+: text := by
  constructor
  · rintro none ending isBreak ⟨after, rfl⟩
    cases isBreak <;> cases none
  · intro noBreak
    by_contra found
    exact noBreak _ (Shape.lineBreak_of_length found) (List.take_prefix _ _)

theorem counts_iff (unindented : ∀ c ∈ text.head?, Shape.isSpace c = false) :
    Counts text ↔ isIdleLine text = false := by
  cases text with
  | nil => simp [Counts, isIdleLine]
  | cons c others =>
    have noSpace : Shape.isSpace c = false := unindented c rfl
    simp only [isIdleLine, List.isEmpty_cons, List.head?_cons, Bool.false_or, Bool.or_eq_false_iff,
      decide_eq_false_iff_not, Option.some.injEq, ne_eq, not_not, lineBreakLength_eq_zero_iff]
    constructor
    · rintro ⟨_, _, ⟨⟩, -, noComment, noBreak⟩
      exact ⟨noComment, noBreak⟩
    · rintro ⟨noComment, noBreak⟩
      exact ⟨c, others, rfl, noSpace, noComment, noBreak⟩

theorem AtLogicalLine.indentation (line : s.AtLogicalLine blank text) :
    s.rest.takeWhile Shape.isSpace = blank ∧ s.rest.drop blank.length = text := by
  obtain ⟨c, others, rfl, noSpace, -⟩ := line.counts
  rw [line.line, List.takeWhile_append_of_pos line.blanks,
    List.takeWhile_cons_of_neg (by simp [noSpace])]
  simp

/-- A width is missed if it is not that of the innermost block that is as narrow. -/
theorem misses_iff (widening : Widening s.widths) :
    s.Misses blank ↔ ¬ s.widths.headD 0 < blank.foldl widen 0 ∧
      (s.widths.dropWhile (· > blank.foldl widen 0)).headD 0 ≠ blank.foldl widen 0 := by
  rw [ne_eq, widening.head_dropWhile_eq_iff]
  cases same : s.widths with
  | nil => exact absurd widening.length_pos (by simp [same])
  | cons top others =>
    rw [List.headD_cons, ← same]
    constructor
    · rintro ⟨⟨_, isTop, narrower⟩, absent⟩
      rw [same] at isTop
      cases isTop
      exact ⟨by omega, absent⟩
    · rintro ⟨narrow, absent⟩
      have other : blank.foldl widen 0 ≠ top := by
        rintro isTop
        exact absent (by rw [isTop, same]; exact List.mem_cons_self)
      exact ⟨⟨top, by rw [same]; rfl, by omega⟩, absent⟩

/-- A line is refused exactly if it counts and meets none of the blocks that it leaves. -/
theorem openLine_eq_error_iff (widening : Widening s.widths) (starts : s.AtLine) :
    s.openLine = .error e ↔ ∃ blank text, s.AtLogicalLine blank text ∧ s.Misses blank ∧
      e = ⟨.inconsistentDedent, ⟨s.offset + Text.byteSize blank, s.file⟩⟩ := by
  have taken : s.rest.take (s.rest.takeWhile Shape.isSpace).length =
      s.rest.takeWhile Shape.isSpace := Shape.take_runLength
  have place : (s.advance (s.rest.takeWhile Shape.isSpace).length).position =
      ⟨s.offset + Text.byteSize (s.rest.takeWhile Shape.isSpace), s.file⟩ := by
    simp only [advance, position, taken]
  constructor
  · intro failed
    simp only [openLine] at failed
    split at failed
    · cases failed
    · next counts =>
      split at failed
      · cases failed
      · next narrow =>
        split at failed
        · next absent =>
          cases failed
          have dropped : s.rest.drop (s.rest.takeWhile Shape.isSpace).length =
              s.rest.dropWhile Shape.isSpace := Shape.drop_runLength
          refine ⟨s.rest.takeWhile Shape.isSpace, s.rest.dropWhile Shape.isSpace,
            ⟨starts, List.takeWhile_append_dropWhile.symm, ?_, ?_⟩,
            (misses_iff widening).mpr ⟨narrow, absent⟩, ?_⟩
          · exact List.all_eq_true.mp List.all_takeWhile
          · apply (counts_iff _).mpr
            · rw [← dropped]
              simpa using counts
            · intro c first
              have stops := List.head?_dropWhile_not Shape.isSpace s.rest
              rw [Option.mem_def.mp first] at stops
              simpa using stops
          · exact congrArg (Error.mk .inconsistentDedent) place
        · cases failed
  · rintro ⟨blank, text, line, misses, rfl⟩
    obtain ⟨narrow, absent⟩ := (misses_iff widening).mp misses
    obtain ⟨isBlank, isText⟩ := line.indentation
    have counts : isIdleLine text = false := by
      apply (counts_iff _).mp line.counts
      obtain ⟨c, others, rfl, noSpace, -⟩ := line.counts
      rintro _ ⟨⟩
      exact noSpace
    rw [isBlank] at place
    simp only [openLine, isBlank, isText, counts, Bool.false_eq_true, ↓reduceIte]
    rw [if_neg narrow, if_pos absent]
    exact congrArg (fun p => Except.error (Error.mk .inconsistentDedent p)) place

theorem error_of_readHead (failed : s.readHead = .error e) :
    e.cause ≠ .inconsistentDedent ∧ e.position = s.position := by
  unfold readHead at failed
  split at failed
  · cases failed
  · split at failed
    · next shape n _ =>
      cases shape <;> cases failed
      exact ⟨by simp, rfl⟩
    · cases failed
      exact ⟨by simp, rfl⟩

end Lexer

/-- Indents and dedents are balanced, the mark for the end comes once and last, and layout tokens stand
only where lines begin and end. While any text is read the widths of the open blocks grow strictly from
zero. An indentation is refused exactly if the first line that cannot be accepted, a line that is not
blank or a comment and is outside of brackets, is narrower than the innermost block and as wide as no
open one. -/
theorem lines_and_blocks (source file : String) :
    (∀ tokens, tokenize source file = .ok tokens → InLines tokens.toList) ∧
    (∀ s, Lexer.Reaches { file, rest := source.toList } s → Widening s.widths) ∧
    ∀ place, tokenize source file = .error ⟨.inconsistentDedent, place⟩ ↔
      ∃ s blank text, Lexer.Reaches { file, rest := source.toList } s ∧
        s.AtLogicalLine blank text ∧ s.Misses blank ∧
        place = ⟨s.offset + Text.byteSize blank, s.file⟩ := by
  have initial := Lexer.Lined.initial source.toList file
  refine ⟨fun tokens read => inLines_tokenize read, fun s path => (initial.reaches path).widening,
    fun place => ?_⟩
  rw [tokenize_eq_error_iff]
  constructor
  · rintro ⟨s, path, rejects⟩
    cases rejects with
    | opens more starts failed =>
      obtain ⟨blank, text, line, misses, same⟩ :=
        (Lexer.openLine_eq_error_iff (initial.reaches path).widening starts).mp failed
      cases same
      exact ⟨s, blank, text, path, line, misses, rfl⟩
    | reads more inside failed => exact absurd rfl (Lexer.error_of_readHead failed).1
  · rintro ⟨s, blank, text, path, line, misses, rfl⟩
    have more : s.rest ≠ [] := by
      obtain ⟨c, others, rfl, -⟩ := line.counts
      rw [line.line]
      simp
    have failed := (Lexer.openLine_eq_error_iff (initial.reaches path).widening line.starts).mpr
      ⟨blank, text, line, misses, rfl⟩
    exact ⟨s, path, .opens more line.starts failed⟩

/-- A block with a line that joins none of the blocks around it. -/
def Text.crooked : String := "if a:\n\tif b:\n\t  c\n\t# d\n    e\n"

/-- The same block with that line in the outer block. -/
def Text.straight : String := "if a:\n\tif b:\n\t  c\n\t# d\n        e\n"

theorem crooked_lines :
    (∃ tokens, tokenize Text.straight "m" = .ok tokens ∧ InLines tokens.toList) ∧
    ∃ s blank text, Lexer.Reaches { file := "m", rest := Text.crooked.toList } s ∧
      s.AtLogicalLine blank text ∧ s.Misses blank ∧ s.offset + Text.byteSize blank = 27 := by
  constructor
  · cases read : tokenize Text.straight "m" with
    | ok tokens => exact ⟨tokens, rfl, (lines_and_blocks Text.straight "m").1 tokens read⟩
    | error e =>
      have isOk : (tokenize Text.straight "m").isOk = true := by decide +kernel
      rw [read] at isOk
      cases isOk
  · obtain ⟨s, blank, text, path, line, misses, place⟩ :=
      ((lines_and_blocks Text.crooked "m").2.2 ⟨27, "m"⟩).mp (by decide +kernel)
    exact ⟨s, blank, text, path, line, misses, (congrArg Position.offset place).symm⟩

end FlowTypes
