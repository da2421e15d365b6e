import Mathlib.Data.List.Chain
import FlowTypes.Proofs.Pieces

/-! Nothing of a text is lost between its tokens. Every token stands for the characters at its span,
and the characters between two tokens mean nothing. The reader keeps this as an invariant: the text
in front of it is covered by the tokens so far and a gap behind the last of them. -/
namespace FlowTypes

namespace Text

theorem byteSize_append (a b : List Char) : byteSize (a ++ b) = byteSize a + byteSize b := by
  have shift : ∀ n, b.foldl (fun n c => n + c.utf8Size) n = n + byteSize b := by
    unfold byteSize
    induction b with
    | nil => simp
    | cons c cs ih =>
      intro n
      rw [List.foldl_cons, List.foldl_cons, ih, ih (0 + c.utf8Size)]
      omega
  rw [byteSize, List.foldl_append, shift]
  rfl

theorem byteSize_pos (nonempty : cs ≠ []) : 0 < byteSize cs := by
  cases cs with
  | nil => contradiction
  | cons c cs =>
    have size := byteSize_append [c] cs
    have positive : 0 < byteSize [c] := by simpa [byteSize] using c.utf8Size_pos
    rw [List.singleton_append] at size
    omega

theorem byteSize_eq_utf8ByteSize (cs : List Char) :
    byteSize cs = (String.ofList cs).utf8ByteSize := by
  induction cs with
  | nil => rfl
  | cons c cs ih =>
    rw [← List.singleton_append, byteSize_append, String.ofList_append, String.utf8ByteSize_append,
      ← ih, ← String.singleton_eq_ofList, String.utf8ByteSize_singleton]
    simp [byteSize]

theorem eq_of_byteSize_eq (whole : a ++ x = b ++ y) (sizes : byteSize a = byteSize b) : a = b := by
  have nothing : ∀ c : List Char, byteSize c = 0 → c = [] := by
    intro c empty
    by_contra nonempty
    have := byteSize_pos nonempty
    omega
  rcases List.append_eq_append_iff.mp whole with ⟨c, rfl, -⟩ | ⟨c, rfl, -⟩
  · rw [byteSize_append] at sizes
    rw [nothing c (by omega), List.append_nil]
  · rw [byteSize_append] at sizes
    rw [nothing c (by omega), List.append_nil]

end Text

/-- Tokens that cover the start `read` of a text: each stands at its span, behind a gap. -/
inductive Tiled (source : List Char) (file : String) : List Token → List Char → Prop
  | none : Tiled source file [] []
  | token {tokens : List Token} {t : Token} {read gap text after : List Char}
      (before : Tiled source file tokens read) (whole : source = read ++ gap ++ text ++ after)
      (filler : Filler (text ++ after) gap) (stands : Stands t.kind t.value.toList text)
      (inked : t.kind.isLayout = false → text ≠ [])
      (span : t.span = ⟨⟨Text.byteSize (read ++ gap), file⟩,
        ⟨Text.byteSize (read ++ gap ++ text), file⟩⟩) :
      Tiled source file (tokens ++ [t]) (read ++ gap ++ text)

/-- Every token stands somewhere in what is covered. -/
theorem Tiled.place {source read : List Char} (tiled : Tiled source file tokens read) :
    ∀ t ∈ tokens, ∃ before text after, source = before ++ text ++ after ∧
      before ++ text <+: read ∧ Stands t.kind t.value.toList text ∧
      (t.kind.isLayout = false → text ≠ []) ∧
      t.span = ⟨⟨Text.byteSize before, file⟩, ⟨Text.byteSize (before ++ text), file⟩⟩ := by
  induction tiled with
  | none => exact fun _ found => nomatch found
  | @token tokens t read gap text after _ whole _ stands inked span ih =>
    intro u found
    rcases List.mem_append.mp found with earlier | last
    · obtain ⟨before, own, behind, whole, inside, rest⟩ := ih u earlier
      exact ⟨before, own, behind, whole, inside.trans ⟨gap ++ text, by simp⟩, rest⟩
    · obtain rfl := List.mem_singleton.mp last
      exact ⟨read ++ gap, text, after, whole, List.prefix_rfl, stands, inked, span⟩

namespace Lexer

/-- The tokens and a gap behind them cover the text in front of the reader. -/
def Tiles (source : List Char) (file : String) (s : Lexer) : Prop :=
  s.file = file ∧ ∃ read gap, Tiled source file s.tokens.toList read ∧
    source = read ++ gap ++ s.rest ∧ Filler s.rest gap ∧ s.offset = Text.byteSize (read ++ gap)

variable {source : List Char} {file : String} {s t : Lexer} {n : Nat}

namespace Tiles

theorem initial : Tiles source file { file, rest := source } :=
  ⟨rfl, [], [], .none, rfl, .none, rfl⟩

theorem push (tiles : Tiles source file s) (stands : Stands kind value.toList (s.rest.take n))
    (inked : kind.isLayout = false → s.rest.take n ≠ []) :
    ∃ read, Tiled source file (s.push kind value n).tokens.toList read ∧
      source = read ++ s.rest.drop n ∧
      s.offset + Text.byteSize (s.rest.take n) = Text.byteSize read := by
  obtain ⟨rfl, read, gap, tiled, whole, before, offset⟩ := tiles
  have split : source = read ++ gap ++ s.rest.take n ++ s.rest.drop n := by simpa using whole
  refine ⟨read ++ gap ++ s.rest.take n, ?_, split, ?_⟩
  · rw [Lexer.push, Array.toList_push]
    refine .token tiled split (by simpa using before) stands inked ?_
    simp only [spanOf, position, offset, Text.byteSize_append (read ++ gap)]
  · rw [offset, Text.byteSize_append (read ++ gap)]

theorem piece (tiles : Tiles source file s) (piece : Piece s t) : Tiles source file t := by
  cases piece with
  | @skip n _ _ _ filler =>
    obtain ⟨sameFile, read, gap, tiled, whole, before, offset⟩ := tiles
    refine ⟨sameFile, read, gap ++ s.rest.take n, tiled, by simpa using whole, ?_, ?_⟩
    · exact .append (by simpa using before) filler
    · simp only [advance, offset, Text.byteSize_append]
      omega
  | token stands inked =>
    obtain ⟨read, tiled, whole, offset⟩ := tiles.push stands inked
    exact ⟨tiles.1, read, [], tiled, by simpa using whole, .none, by rwa [List.append_nil]⟩

theorem pieces (tiles : Tiles source file s) (pieces : Pieces s t) : Tiles source file t := by
  induction pieces with
  | refl => exact tiles
  | tail _ last ih => exact ih.piece last

theorem run (tiles : Tiles source file s) (read : s.run = .ok t) :
    Tiles source file t ∧ t.rest = [] := by
  fun_induction Lexer.run s with
  | case1 s done =>
    cases read
    exact ⟨tiles, done⟩
  | case2 => cases read
  | case3 s _ u stepped ih => exact ih (tiles.pieces (pieces_step stepped)) read

theorem finish (tiles : Tiles source file s) (done : s.rest = []) :
    ∃ t, t.kind = .eof ∧ s.finish.toList.getLast? = some t ∧
      Tiled source file s.finish.toList source := by
  obtain ⟨closed, closes, rest, same⟩ := s.pieces_finish
  have stands : Stands .eof "EOF".toList (closed.rest.take 0) := rfl
  obtain ⟨read, tiled, whole, -⟩ := (tiles.pieces closes).push stands nofun
  rw [rest, done, List.drop_nil, List.append_nil] at whole
  subst whole
  rw [same]
  exact ⟨⟨.eof, "EOF", closed.spanOf 0⟩, rfl,
    by rw [Lexer.push, Array.toList_push, List.getLast?_concat], tiled⟩

end Tiles

theorem Pieces.moves (pieces : Pieces s t) :
    ∃ taken, s.rest = taken ++ t.rest ∧ t.offset = s.offset + Text.byteSize taken := by
  induction pieces with
  | refl => exact ⟨[], rfl, rfl⟩
  | @tail t u _ piece ih =>
    obtain ⟨taken, rest, offset⟩ := ih
    obtain ⟨n, rest', offset'⟩ : ∃ n, u.rest = t.rest.drop n ∧
        u.offset = t.offset + Text.byteSize (t.rest.take n) := by
      cases piece <;> exact ⟨_, rfl, rfl⟩
    refine ⟨taken ++ t.rest.take n, by rw [rest', List.append_assoc, List.take_append_drop, rest], ?_⟩
    rw [offset', offset, Text.byteSize_append, Nat.add_assoc]

/-- Every round of the reader moves it forward. -/
theorem offset_step_lt (more : s.rest ≠ []) (read : s.step = .ok t) : s.offset < t.offset := by
  obtain ⟨taken, rest, offset⟩ := (pieces_step read).moves
  have shorter := step_shorter more read
  have nonempty : taken ≠ [] := by
    rintro rfl
    rw [rest] at shorter
    exact Nat.lt_irrefl _ shorter
  have := Text.byteSize_pos nonempty
  omega

end Lexer

/-- The characters `text` stand in the source from the byte `start` to the byte `stop`, with `after`
behind them. -/
def Stretch (source : String) (start stop : Nat) (text after : List Char) : Prop :=
  ∃ before, source.toList = before ++ text ++ after ∧
    (String.ofList before).utf8ByteSize = start ∧
    (String.ofList (before ++ text)).utf8ByteSize = stop

theorem Stretch.bounds (stretch : Stretch source start stop text after) :
    start ≤ stop ∧ stop ≤ source.utf8ByteSize := by
  obtain ⟨before, whole, rfl, rfl⟩ := stretch
  rw [← String.ofList_toList (s := source), whole]
  simp only [String.ofList_append, String.utf8ByteSize_append]
  omega

namespace Tiled

variable {source : String} {file : String} {tokens : List Token} {read : List Char}

theorem stretch (tiled : Tiled source.toList file tokens read) : ∀ t ∈ tokens, ∃ text after,
      Stretch source t.span.start.offset t.span.stop.offset text after ∧
      Stands t.kind t.value.toList text := by
  intro t found
  obtain ⟨before, text, after, whole, -, stands, -, span⟩ := tiled.place t found
  refine ⟨text, after, ⟨before, whole, ?_, ?_⟩, stands⟩ <;>
    simp only [span, Text.byteSize_eq_utf8ByteSize]

/-- What separates two tokens, or the first token from the start. -/
def GapTo (source : String) (stop : Nat) (t : Token) : Prop :=
  ∃ gap after, Stretch source stop t.span.start.offset gap after ∧ Filler after gap

theorem gaps (tiled : Tiled source.toList file tokens read) :
    (∀ t ∈ tokens.head?, GapTo source 0 t) ∧
    tokens.IsChain (fun a b => GapTo source a.span.stop.offset b) ∧
    (tokens.getLast?.map (·.span.stop.offset)).getD 0 = (String.ofList read).utf8ByteSize := by
  induction tiled with
  | none => simp
  | @token tokens t read gap text after before whole filler stands inked span ih =>
    obtain ⟨first, chain, last⟩ := ih
    have behind : GapTo source (String.ofList read).utf8ByteSize t := by
      refine ⟨gap, text ++ after, ⟨read, by simpa using whole, rfl, ?_⟩, filler⟩
      simp only [span, Text.byteSize_eq_utf8ByteSize]
    refine ⟨?_, List.isChain_append.mpr ⟨chain, .singleton t, ?_⟩, ?_⟩
    · cases tokens with
      | nil =>
        rintro _ ⟨⟩
        have start : (String.ofList read).utf8ByteSize = 0 := last.symm
        exact start ▸ behind
      | cons u others => exact first
    · intro u found
      rintro _ ⟨⟩
      have stop : u.span.stop.offset = (String.ofList read).utf8ByteSize := by
        rw [← last, Option.mem_def.mp found]
        rfl
      exact stop ▸ behind
    · simp [span, Text.byteSize_eq_utf8ByteSize]

end Tiled

/-- The tokens account for every character of the source. -/
structure Covers (source : String) (tokens : List Token) : Prop where
  /-- Every token stands for the characters at its span. -/
  placed : ∀ t ∈ tokens, t.span.start.offset ≤ t.span.stop.offset ∧
    t.span.stop.offset ≤ source.utf8ByteSize ∧
    ∃ text after, Stretch source t.span.start.offset t.span.stop.offset text after ∧
      Stands t.kind t.value.toList text
  /-- Nothing between two tokens has a meaning. -/
  apart : tokens.IsChain fun a b => a.span.stop.offset ≤ b.span.start.offset ∧
    ∃ gap after, Stretch source a.span.stop.offset b.span.start.offset gap after ∧
      Filler after gap
  first : ∀ t ∈ tokens.head?, ∃ gap after,
    Stretch source 0 t.span.start.offset gap after ∧ Filler after gap
  last : ∃ t ∈ tokens.getLast?, t.kind = .eof ∧ t.span.stop.offset = source.utf8ByteSize

theorem tiled_tokenize {source file : String} {tokens : Array Token}
    (read : tokenize source file = .ok tokens) :
    (∃ t, t.kind = .eof ∧ t ∈ tokens.toList.getLast?) ∧
    Tiled source.toList file tokens.toList source.toList := by
  unfold tokenize at read
  cases ran : Lexer.run { file, rest := source.toList } with
  | error e =>
    rw [ran] at read
    cases read
  | ok s =>
    rw [ran] at read
    cases read
    obtain ⟨tiles, done⟩ := Lexer.Tiles.initial.run ran
    obtain ⟨t, isEof, finalToken, tiled⟩ := tiles.finish done
    exact ⟨⟨t, isEof, finalToken⟩, tiled⟩

/-- A text that can be read is covered by its tokens. Every round of reading moves forward, so that
reading ends on every text. -/
theorem tokenize_lossless {source file : String} {tokens : Array Token}
    (read : tokenize source file = .ok tokens) :
    Covers source tokens.toList ∧
    ∀ s t : Lexer, s.rest ≠ [] → s.step = .ok t →
      s.offset < t.offset ∧ t.rest.length < s.rest.length := by
  refine ⟨?_, fun s t more step =>
    ⟨Lexer.offset_step_lt more step, Lexer.step_shorter more step⟩⟩
  obtain ⟨⟨t, isEof, finalToken⟩, tiled⟩ := tiled_tokenize read
  obtain ⟨first, chain, last⟩ := tiled.gaps
  refine ⟨fun t found => ?_, chain.imp fun a b gap => ?_, first, ?_⟩
  · obtain ⟨text, after, stretch, stands⟩ := tiled.stretch t found
    exact ⟨stretch.bounds.1, stretch.bounds.2, text, after, stretch, stands⟩
  · obtain ⟨text, after, stretch, filler⟩ := gap
    exact ⟨stretch.bounds.1, text, after, stretch, filler⟩
  · rw [finalToken, String.ofList_toList] at last
    exact ⟨t, finalToken, isEof, last⟩

/-- A block with a comment, a string of several bytes a character and a joined line. -/
def Text.block : String := "if a:  # é\n\tb = r'ü' \\\n + 1\n"

theorem tokenize_block : ∃ tokens, tokenize Text.block "m" = .ok tokens ∧
    Covers Text.block tokens.toList := by
  cases read : tokenize Text.block "m" with
  | ok tokens => exact ⟨tokens, rfl, (tokenize_lossless read).1⟩
  | error e =>
    have isOk : (tokenize Text.block "m").isOk = true := by decide +kernel
    rw [read] at isOk
    cases isOk

end FlowTypes
