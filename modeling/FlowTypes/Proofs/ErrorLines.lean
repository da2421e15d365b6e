import FlowTypes.Proofs.Extent.Sources

/-! The lines that errors are shown with. Whatever is wrong with a text, its place is between two
characters of the text or at an end of it, and the line of every place in front of a character is found.
Main statement: an error is shown with its line unless the reader was refused the end of the text. -/
namespace FlowTypes

namespace Text

variable {cs before after body rest : List Char} {number offset : Nat}

/-! ### Lines -/

/-- The lines of a text. A line keeps its line feed, and only the last one can be without. -/
def lines : List Char → List (List Char)
  | [] => []
  | c :: cs =>
    if c = '\n' then [c] :: lines cs
    else
      match lines cs with
      | [] => [[c]]
      | line :: others => (c :: line) :: others

theorem lines_of_notMem (plain : '\n' ∉ cs) (some : cs ≠ []) : lines cs = [cs] := by
  induction cs with
  | nil => contradiction
  | cons c cs ih =>
    simp only [List.mem_cons, not_or] at plain
    rw [lines, if_neg (Ne.symm plain.1)]
    by_cases more : cs = []
    · rw [more]
      rfl
    · rw [ih plain.2 more]

theorem lines_append (plain : '\n' ∉ body) :
    lines (body ++ '\n' :: rest) = (body ++ ['\n']) :: lines rest := by
  induction body with
  | nil => rfl
  | cons c cs ih =>
    simp only [List.mem_cons, not_or] at plain
    rw [List.cons_append, lines, if_neg (Ne.symm plain.1), ih plain.2]
    rfl

/-- A text is empty, its last line, or a line in front of a text. -/
theorem line_induction {P : List Char → Prop} (nil : P [])
    (last : ∀ line, '\n' ∉ line → line ≠ [] → P line)
    (more : ∀ body rest, '\n' ∉ body → P rest → P (body ++ '\n' :: rest)) (cs : List Char) : P cs := by
  by_cases found : '\n' ∈ cs
  · obtain ⟨body, rest, split, plain⟩ := List.eq_append_cons_of_mem found
    rw [split]
    exact more body rest plain (line_induction nil last more rest)
  · by_cases some : cs = []
    · rw [some]
      exact nil
    · exact last cs found some
termination_by cs.length
decreasing_by
  rw [split, List.length_append, List.length_cons]
  omega

/-! ### The search for a line -/

theorem takeWhile_append (plain : '\n' ∉ body) (rest : List Char) :
    (body ++ rest).takeWhile (· ≠ '\n') = body ++ rest.takeWhile (· ≠ '\n') := by
  apply List.takeWhile_append_of_pos
  intro c found
  have : c ≠ '\n' := fun same => plain (same ▸ found)
  simpa using this

theorem findLine_last (plain : '\n' ∉ cs) (some : cs ≠ []) :
    findLine number offset cs = if offset < byteSize cs then .some ⟨number, cs, offset⟩ else none := by
  have line : firstLine cs = cs := by
    have whole := takeWhile_append plain []
    rw [List.append_nil, List.takeWhile_nil, List.append_nil] at whole
    rw [firstLine, whole]
    exact List.take_of_length_le (Nat.le_succ _)
  rw [findLine, dif_neg some]
  simp only [line, List.drop_length]
  rw [findLine, dif_pos rfl]

theorem findLine_append (plain : '\n' ∉ body) : findLine number offset (body ++ '\n' :: rest) =
      if offset < byteSize (body ++ ['\n']) then some ⟨number, body ++ ['\n'], offset⟩
      else findLine (number + 1) (offset - byteSize (body ++ ['\n'])) rest := by
  have size : (body ++ ['\n']).length = body.length + 1 := List.length_append
  have line : firstLine (body ++ '\n' :: rest) = body ++ ['\n'] := by
    rw [firstLine, takeWhile_append plain, List.takeWhile_cons_of_neg (by simp), List.append_nil,
      List.append_cons, ← size, List.take_left]
  have behind : (body ++ '\n' :: rest).drop (body ++ ['\n']).length = rest := by
    rw [List.append_cons body '\n' rest, List.drop_left]
  rw [findLine, dif_neg (by simp)]
  simp only [line, behind]

theorem findLine_eq_none (past : byteSize cs ≤ offset) : findLine number offset cs = none := by
  induction cs using line_induction generalizing number offset with
  | nil => rw [findLine, dif_pos rfl]
  | last line plain some => rw [findLine_last plain some, if_neg (by omega)]
  | more body rest plain ih =>
    rw [List.append_cons, byteSize_append] at past
    rw [findLine_append plain, if_neg (by omega)]
    exact ih (by omega)

/-- The line with the place behind `before` in a text: its number is one more than that of the line
feeds in front of the place, and the lines in front of it and the offset make up the place. -/
structure LineAt.Locates (shown : LineAt) (text before : List Char) : Prop where
  number : shown.number = before.count '\n' + 1
  line : (lines text)[before.count '\n']? = some shown.line
  place : byteSize ((lines text).take (before.count '\n')).flatten + shown.offset = byteSize before
  inside : shown.offset < byteSize shown.line

namespace LineAt.Locates

variable {text line : List Char} {others : List (List Char)}

theorem first (isFirst : lines text = line :: others) (plain : '\n' ∉ before)
    (inside : byteSize before < byteSize line) : Locates ⟨1, line, byteSize before⟩ text before := by
  have none : before.count '\n' = 0 := List.count_eq_zero_of_not_mem plain
  constructor
  · rw [none]
  · rw [none, isFirst]
    rfl
  · rw [none, List.take_zero]
    exact Nat.zero_add _
  · exact inside

theorem next (plain : '\n' ∉ body) (located : Locates ⟨number, line, offset⟩ rest before) :
    Locates ⟨number + 1, line, offset⟩ (body ++ '\n' :: rest) (body ++ '\n' :: before) := by
  have one : (body ++ '\n' :: before).count '\n' = before.count '\n' + 1 := by
    rw [List.count_append, List.count_eq_zero_of_not_mem plain, List.count_cons_self, Nat.zero_add]
  have place : byteSize ((lines rest).take (before.count '\n')).flatten + offset = byteSize before :=
    located.place
  constructor
  · rw [one]
    exact congrArg (· + 1) located.number
  · rw [one, lines_append plain, List.getElem?_cons_succ]
    exact located.line
  · rw [one, lines_append plain, List.take_succ_cons, List.flatten_cons,
      List.append_cons body '\n' before, byteSize_append, byteSize_append (body ++ ['\n']),
      Nat.add_assoc, place]
  · exact located.inside

end LineAt.Locates

theorem findLine_eq_some (before : List Char) (more : after ≠ []) :
    ∃ shown : LineAt, shown.Locates (before ++ after) before ∧
      ∀ number, findLine (number + 1) (byteSize before) (before ++ after) =
        some ⟨shown.number + number, shown.line, shown.offset⟩ := by
  generalize split : before ++ after = cs
  induction cs using line_induction generalizing before with
  | nil => exact absurd (List.append_eq_nil_iff.mp split).2 more
  | last line plain some =>
    have inside : byteSize before < byteSize line := by
      have := byteSize_pos more
      rw [← split, byteSize_append]
      omega
    refine ⟨_, .first (lines_of_notMem plain some) ?_ inside, fun number => ?_⟩
    · exact fun found => plain (split ▸ List.mem_append_left _ found)
    · rw [findLine_last plain some, if_pos inside, Nat.add_comm]
  | more body rest plain ih =>
    have whole : before ++ after = (body ++ ['\n']) ++ rest := by rw [split, ← List.append_cons]
    rcases Nat.lt_or_ge body.length before.length with long | short
    · obtain ⟨part, rfl⟩ : body ++ ['\n'] <+: before := by
        apply List.prefix_of_prefix_length_le (whole ▸ List.prefix_append _ _)
          (List.prefix_append before after)
        rw [List.length_append]
        exact long
      obtain ⟨shown, located, found⟩ := ih part (by simpa using whole)
      refine ⟨_, by simpa using located.next plain, fun number => ?_⟩
      rw [findLine_append plain, byteSize_append, if_neg (by omega), Nat.add_sub_cancel_left, found]
      simp [Nat.add_assoc, Nat.add_comm number 1]
    · obtain ⟨part, rfl⟩ : before <+: body := by
        apply List.prefix_of_prefix_length_le (List.prefix_append before after) _ short
        rw [split]
        exact List.prefix_append _ _
      have inside : byteSize before < byteSize (before ++ part ++ ['\n']) := by
        have : 0 < byteSize ['\n'] := by decide
        simp only [byteSize_append]
        omega
      refine ⟨_, .first (lines_append plain) ?_ inside, fun number => ?_⟩
      · exact fun found => plain (List.mem_append_left _ found)
      · rw [findLine_append plain, if_pos inside, Nat.add_comm]

/-- The offset counts the bytes of `before`, which the text starts with. -/
def Splits (text : List Char) (offset : Nat) (before after : List Char) : Prop :=
  text = before ++ after ∧ byteSize before = offset

theorem Splits.size_eq {source : String} (splits : Splits source.toList offset before after) :
    offset + byteSize after = source.utf8ByteSize := by
  obtain ⟨whole, rfl⟩ := splits
  rw [← byteSize_append, ← whole, byteSize_eq_utf8ByteSize, String.ofList_toList]

theorem Splits.after_eq_nil_iff {source : String} (splits : Splits source.toList offset before after) :
    after = [] ↔ offset = source.utf8ByteSize := by
  have size := splits.size_eq
  constructor
  · rintro rfl
    exact size
  · intro atEnd
    by_contra more
    have := byteSize_pos more
    omega

end Text

open Text (Splits)

/-! ### Places of errors -/

namespace Lexer

variable {source : List Char} {file : String} {s t : Lexer} {e : Error}

theorem Tiles.reaches (tiles : Tiles source file s) (path : Reaches s t) : Tiles source file t :=
  tiles.pieces path.pieces

theorem Rejects.place (rejects : s.Rejects e) (tiles : Tiles source file s) (lined : Lined s) :
    e.position.file = file ∧ ∃ before after, Splits source e.position.offset before after ∧
      after ≠ [] := by
  obtain ⟨rfl, read, gap, -, whole, -, offset⟩ := tiles
  cases rejects with
  | opens more starts failed =>
    obtain ⟨blank, text, line, -, rfl⟩ := (openLine_eq_error_iff lined.widening starts).mp failed
    refine ⟨rfl, read ++ gap ++ blank, text, ⟨?_, ?_⟩, ?_⟩
    · rw [whole, line.line]
      simp only [List.append_assoc]
    · rw [Text.byteSize_append, ← offset]
    · obtain ⟨c, others, rfl, -⟩ := line.counts
      exact List.cons_ne_nil c others
  | reads more inside failed =>
    rw [(error_of_readHead failed).2]
    exact ⟨rfl, read ++ gap, s.rest, ⟨whole, offset.symm⟩, more⟩

end Lexer

section

variable {source file : String} {e : Error} {ts : TokenList}

theorem place_of_tokenize (failed : tokenize source file = .error e) :
    e.position.file = file ∧ ∃ before after, Splits source.toList e.position.offset before after ∧
      after ≠ [] := by
  obtain ⟨s, path, rejects⟩ := tokenize_eq_error_iff.mp failed
  exact rejects.place (Lexer.Tiles.initial.reaches path)
    ((Lexer.Lined.initial source.toList file).reaches path)

theorem TokenList.Of.splits (tokens : ts.Of source file) (found : t ∈ ts.list) :
    ∃ before after, Splits source.toList t.span.start.offset before after := by
  obtain ⟨text, after, ⟨before, whole, start, -⟩, -⟩ := tokens.tiled.stretch t found
  refine ⟨before, text ++ after, ?_, ?_⟩
  · rw [whole, List.append_assoc]
  · rw [Text.byteSize_eq_utf8ByteSize, start]

/-- What is refused is layout at the end of the text: the mark for the end, or what closes the lines and
blocks in front of it. -/
def Error.AtEnd (e : Error) (source file : String) : Prop :=
  ∃ ts : TokenList, ts.Of source file ∧ ∃ t ∈ ts.list, e.position = t.span.start ∧
    e.cause.Blames t ∧ t.kind.isLayout = true ∧ t.span.start.offset = source.utf8ByteSize

theorem TokenList.Of.layout_at_end (tokens : ts.Of source file) (found : t ∈ ts.list)
    (atEnd : t.span.start.offset = source.utf8ByteSize) : t.kind.isLayout = true := by
  have inside := (tokens.tiled.stop_le t found).2
  rw [Text.byteSize_eq_utf8ByteSize, String.ofList_toList] at inside
  by_contra inLine
  have := tokens.tiled.start_lt_stop t found (by simpa using inLine)
  omega

/-- An error has a place in the text, and is at its end if the place is. -/
theorem Error.place_of_parse (failed : Module.parse source file firstId = .error e) :
    e.position.file = file ∧
    (∃ before after, Splits source.toList e.position.offset before after) ∧
    (e.AtEnd source file ↔ e.position.offset = source.utf8ByteSize) := by
  have ended : e.AtEnd source file → e.position.offset = source.utf8ByteSize := by
    rintro ⟨_, _, t, _, place, _, _, atEnd⟩
    rw [place, atEnd]
  rcases Module.parse_refused failed with failed | ⟨ts, tokens, t, found, place, blames⟩
  · obtain ⟨inFile, before, after, splits, more⟩ := place_of_tokenize failed
    refine ⟨inFile, ⟨before, after, splits⟩, ended, fun atEnd => ?_⟩
    exact absurd (splits.after_eq_nil_iff.mpr atEnd) more
  · have inFile : e.position.file = file := by
      rw [place]
      exact (tokens.tiled.file_eq t found).1
    refine ⟨inFile, ?_, ended, fun atEnd => ?_⟩
    · rw [place]
      exact tokens.splits found
    · rw [place] at atEnd
      exact ⟨ts, tokens, t, found, place, blames, tokens.layout_at_end found atEnd, atEnd⟩

end

/-- Whatever is wrong with a text, the place is in the file. If the reader was refused the end of the text
there is no line to show, and in all other cases the line with the place is found. -/
theorem error_lines {source file : String} {firstId : NodeId} {e : Error}
    (failed : Module.parse source file firstId = .error e) :
    e.position.file = file ∧
    (e.AtEnd source file ↔ e.position.offset = source.utf8ByteSize) ∧
    (e.AtEnd source file → Text.lineAt source e.position.offset = none) ∧
    (¬ e.AtEnd source file → ∃ before after shown,
      Splits source.toList e.position.offset before after ∧
      Text.lineAt source e.position.offset = some shown ∧ shown.Locates source.toList before) := by
  obtain ⟨inFile, ⟨before, after, splits⟩, atEnd⟩ := Error.place_of_parse failed
  refine ⟨inFile, atEnd, fun ended => ?_, fun inside => ?_⟩
  · apply Text.findLine_eq_none
    rw [Text.byteSize_eq_utf8ByteSize, String.ofList_toList, atEnd.mp ended]
  · have more : after ≠ [] := by
      rw [ne_eq, splits.after_eq_nil_iff, ← atEnd]
      exact inside
    obtain ⟨shown, located, found⟩ := Text.findLine_eq_some before more
    rw [← splits.1] at located found
    refine ⟨before, after, shown, splits, ?_, located⟩
    rw [Text.lineAt, ← splits.2]
    exact found 0

/-- Where a text is refused. -/
def Text.refusal? (source : String) : Option Position :=
  match Module.parse source "m" 0 with
  | .error e => some e.position
  | .ok _ => none

theorem Text.parse_of_refusal (found : refusal? source = some p) :
    ∃ e, Module.parse source "m" 0 = .error e ∧ e.position = p := by
  unfold refusal? at found
  split at found
  · next e failed => exact ⟨e, failed, Option.some.inj found⟩
  · cases found

/-- The second line has a number where a target should be. -/
def Text.misplaced : String := "x = 'é'\nfor 1 in y: pass\n"

theorem misplaced_line : ∃ e, Module.parse Text.misplaced "m" 0 = .error e ∧
    e.position = ⟨13, "m"⟩ ∧ ¬ e.AtEnd Text.misplaced "m" ∧
    Text.lineAt Text.misplaced 13 = some ⟨2, "for 1 in y: pass\n".toList, 4⟩ ∧
    ∃ before after, Splits Text.misplaced.toList 13 before after ∧
      Text.LineAt.Locates ⟨2, "for 1 in y: pass\n".toList, 4⟩ Text.misplaced.toList before := by
  have refused : Text.refusal? Text.misplaced = some ⟨13, "m"⟩ := by decide +kernel
  have line : Text.lineAt Text.misplaced 13 = some ⟨2, "for 1 in y: pass\n".toList, 4⟩ := by
    decide +kernel
  obtain ⟨e, failed, place⟩ := Text.parse_of_refusal refused
  obtain ⟨-, atEnd, -, shows⟩ := error_lines failed
  rw [place] at atEnd shows
  have inside : ¬ e.AtEnd Text.misplaced "m" := by
    rw [atEnd]
    decide
  obtain ⟨before, after, shown, splits, found, located⟩ := shows inside
  cases line.symm.trans found
  exact ⟨e, failed, place, inside, line, before, after, splits, located⟩

/-- A bracket that is not closed. -/
def Text.unclosed : String := "x = (1,"

/-- An error without a line to show, though there is a text. -/
theorem unclosed_without_line : ∃ e, Module.parse Text.unclosed "m" 0 = .error e ∧
    e.position = ⟨7, "m"⟩ ∧ Text.lineAt Text.unclosed 7 = none := by
  have refused : Text.refusal? Text.unclosed = some ⟨7, "m"⟩ := by decide +kernel
  obtain ⟨e, failed, place⟩ := Text.parse_of_refusal refused
  exact ⟨e, failed, place, by decide +kernel⟩

end FlowTypes
