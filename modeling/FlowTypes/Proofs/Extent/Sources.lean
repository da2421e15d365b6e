import FlowTypes.Proofs.Extent.Statements
import FlowTypes.Proofs.LineLayout
import FlowTypes.Proofs.Lossless

/-! The tokens of a text, and the modules read off them. The tokens of a text stand in order, and only
the last one marks the end. -/
namespace FlowTypes

namespace Tiled

variable {source read : List Char} {file : String} {tokens : List Token}

theorem stop_le (tiled : Tiled source file tokens read) :
    ∀ t ∈ tokens, t.span.start.offset ≤ t.span.stop.offset ∧
      t.span.stop.offset ≤ Text.byteSize read := by
  intro t found
  obtain ⟨before, text, after, -, ⟨more, rfl⟩, -, -, span⟩ := tiled.place t found
  simp only [span, Text.byteSize_append]
  omega

theorem pairwise (tiled : Tiled source file tokens read) :
    tokens.Pairwise fun a b => a.span.stop.offset ≤ b.span.start.offset := by
  induction tiled with
  | none => exact .nil
  | @token tokens t read gap text after before whole filler stands inked span ih =>
    apply List.pairwise_append.mpr
    refine ⟨ih, List.pairwise_singleton _ _, ?_⟩
    intro u earlier v last
    obtain rfl := List.mem_singleton.mp last
    have known := (before.stop_le u earlier).2
    simp only [span, Text.byteSize_append]
    omega

theorem start_lt_stop (tiled : Tiled source file tokens read) :
    ∀ t ∈ tokens, t.kind.isLayout = false → t.span.start.offset < t.span.stop.offset := by
  intro t found inLine
  obtain ⟨before, text, after, -, -, -, inked, span⟩ := tiled.place t found
  have positive := Text.byteSize_pos (inked inLine)
  simp only [span, Text.byteSize_append]
  omega

theorem file_eq (tiled : Tiled source file tokens read) :
    ∀ t ∈ tokens, t.span.start.file = file ∧ t.span.stop.file = file := by
  intro t found
  obtain ⟨_, _, _, -, -, -, -, span⟩ := tiled.place t found
  rw [span]
  exact ⟨rfl, rfl⟩

end Tiled

/-- The tokens of a text. -/
def TokenList.Of (source file : String) (ts : TokenList) : Prop :=
  tokenize source file = .ok ts.list.toArray

namespace TokenList.Of

variable {source file : String} {ts : TokenList} {a b i j k : Nat}

theorem tiled (tokens : ts.Of source file) : Tiled source.toList file ts.list source.toList :=
  (tiled_tokenize tokens).2

theorem get_eq (k : Nat) : ∃ inside : min k (ts.length - 1) < ts.list.length,
      ts.get k = ts.list[min k (ts.length - 1)] := by
  have positive : 0 < ts.list.length := List.length_pos_of_mem ts.last_mem
  have inside : min k (ts.length - 1) < ts.list.length := by
    unfold TokenList.length
    omega
  refine ⟨inside, ?_⟩
  unfold TokenList.get
  rcases Nat.lt_or_ge k ts.list.length with before | behind
  · have same : min k (ts.length - 1) = k := by
      unfold TokenList.length
      omega
    simp [same, before]
  · have same : min k (ts.length - 1) = ts.list.length - 1 := by
      unfold TokenList.length
      omega
    rw [List.getElem?_eq_none behind, Option.getD_none]
    have final := ts.getLast?_list
    rw [List.getLast?_eq_getElem?, List.getElem?_eq_getElem (by omega)] at final
    simp only [same]
    exact (Option.some.inj final).symm

theorem span_get (tokens : ts.Of source file) (k : Nat) :
    (ts.get k).span.start.offset ≤ (ts.get k).span.stop.offset :=
  (tokens.tiled.stop_le _ (ts.get_mem k)).1

theorem ordered (tokens : ts.Of source file) (le : a ≤ b) :
    (ts.get a).span.start.offset ≤ (ts.get b).span.start.offset ∧
      (ts.get a).span.stop.offset ≤ (ts.get b).span.stop.offset := by
  have first := tokens.span_get a
  have second := tokens.span_get b
  obtain ⟨inside, same⟩ := get_eq a
  obtain ⟨inside', same'⟩ := get_eq b
  rcases Nat.lt_or_ge (min a (ts.length - 1)) (min b (ts.length - 1)) with lt | ge
  · have apart := List.pairwise_iff_getElem.mp tokens.tiled.pairwise _ _ inside inside' lt
    rw [← same, ← same'] at apart
    omega
  · have equal : ts.get a = ts.get b := by
      have : min a (ts.length - 1) = min b (ts.length - 1) := by omega
      rw [same, same']
      simp only [this]
    rw [equal]
    exact ⟨Nat.le_refl _, Nat.le_refl _⟩

theorem eq_of_start (tokens : ts.Of source file) (inLine : (ts.kind i).isLayout = false)
    (inLine' : (ts.kind j).isLayout = false)
    (same : (ts.get i).span.start = (ts.get j).span.start) : i = j := by
  have apart : ∀ {a b : Nat}, (ts.kind a).isLayout = false → (ts.kind b).isLayout = false → a < b →
      (ts.get a).span.start.offset < (ts.get b).span.start.offset := by
    intro a b inLine inLine' lt
    have notEnd : ts.kind b ≠ .eof := by
      intro isEnd
      rw [isEnd] at inLine'
      cases inLine'
    have inside := ts.lt_length rfl notEnd
    have first := tokens.tiled.start_lt_stop _ (ts.get_mem a) inLine
    obtain ⟨bound, before⟩ := get_eq a
    obtain ⟨bound', behind⟩ := get_eq b
    have second := List.pairwise_iff_getElem.mp tokens.tiled.pairwise _ _ bound bound' (by omega)
    rw [← before, ← behind] at second
    omega
  rcases Nat.lt_trichotomy i j with lt | equal | gt
  · have := apart inLine inLine' lt
    rw [same] at this
    omega
  · exact equal
  · have := apart inLine' inLine gt
    rw [same] at this
    omega

/-- Only the last token marks the end, and it stands there. -/
theorem span_eof (tokens : ts.Of source file) (isEnd : ts.kind k = .eof) :
    (ts.get k).span = ⟨⟨source.utf8ByteSize, file⟩, ⟨source.utf8ByteSize, file⟩⟩ := by
  obtain ⟨before, last, split, -, others⟩ := (inLines_tokenize tokens).ended
  have final : ts.list.getLast? = some (ts.get k) := by
    have split : ts.list = before ++ [last] := split
    have found := ts.get_mem k
    rw [split] at found
    rcases List.mem_append.mp found with earlier | found
    · exact absurd isEnd (others _ earlier)
    · rw [split, List.getLast?_concat, List.mem_singleton.mp found]
  have stop : (ts.get k).span.stop.offset = source.utf8ByteSize := by
    have covered := tokens.tiled.gaps.2.2
    rw [final, String.ofList_toList] at covered
    exact covered
  have start : (ts.get k).span.start.offset = (ts.get k).span.stop.offset := by
    obtain ⟨text, after, ⟨front, -, start, stop⟩, stands⟩ := tokens.tiled.stretch _ (ts.get_mem k)
    have empty : text = [] := by
      rw [show (ts.get k).kind = .eof from isEnd] at stands
      exact stands
    rw [empty, List.append_nil] at stop
    rw [← start, ← stop]
  obtain ⟨startFile, stopFile⟩ := tokens.tiled.file_eq _ (ts.get_mem k)
  rw [stop] at start
  generalize ts.get k = t at start stop startFile stopFile ⊢
  obtain ⟨_, _, ⟨⟨_, _⟩, ⟨_, _⟩⟩⟩ := t
  cases start
  cases stop
  cases startFile
  cases stopFile
  rfl

end TokenList.Of

theorem Laid.all (laid : Laid ts lo hi t) : AllLaid ts lo hi t.all :=
  ⟨laid.parts.ordered, TreeNode.all_induction t laid fun _ _ laid => laid.parts.each⟩

namespace Module

variable {source file : String} {firstId next : NodeId} {m : Module} {e : Error}

/-- A text that has tokens is read up to the mark for the end, or one of the tokens is refused. -/
theorem settled_parse (lexed : tokenize source file = .ok tokens) :
    ∃ ts : TokenList, ts.Of source file ∧
      Settled ts (fun m k => ts.kind k = .eof ∧ m.node.span = ⟨⟨0, file⟩, (ts.get k).span.start⟩ ∧
        AllLaid ts 0 k (m.body.map .stmt))
        (Grammar.module file (.ofTokens tokens.toList file firstId)) := by
  have whole : (TokenList.ofTokens tokens.toList file).list = tokens.toList := by
    obtain ⟨before, last, split, isEnd, -⟩ := (inLines_tokenize lexed).ended
    have closed : tokens.toList.getLast?.map (·.kind) = some .eof := by
      rw [split, List.getLast?_concat]
      exact congrArg some isEnd
    exact if_pos closed
  refine ⟨.ofTokens tokens.toList file, ?_, ?_⟩
  · rw [TokenList.Of, whole, lexed, Array.toArray_toList]
  · exact (Grammar.module_reads (Cursor.at_ofTokens tokens.toList file firstId) file).1

/-- The module of a text is laid over its tokens, up to the mark for the end. -/
theorem parse_laid (read : parse source file firstId = .ok (m, next)) :
    ∃ (ts : TokenList) (k : Nat), ts.Of source file ∧ ts.kind k = .eof ∧
      m.node.span = ⟨⟨0, file⟩, (ts.get k).span.start⟩ ∧ AllLaid ts 0 k m.nodes := by
  obtain ⟨tokens, c, lexed, -, ended⟩ := parse_eq_ok read
  obtain ⟨ts, isOf, settled⟩ := settled_parse lexed
  rw [ended] at settled
  cases settled with
  | @read _ _ k there holds =>
    refine ⟨ts, k, isOf, holds.1, holds.2.1, Nat.zero_le k, fun t found => ?_⟩
    obtain ⟨s, member, inside⟩ := List.mem_flatMap.mp found
    exact (holds.2.2.each _ (List.mem_map_of_mem member)).all.each t inside

/-- What is wrong with a text is found when its tokens are read, or put down to one of them. -/
theorem parse_refused (failed : parse source file firstId = .error e) :
    tokenize source file = .error e ∨ ∃ ts : TokenList, ts.Of source file ∧ ts.Refuses e := by
  unfold parse at failed
  cases lexed : tokenize source file with
  | error e' =>
    rw [lexed] at failed
    cases failed
    exact .inl rfl
  | ok tokens =>
    rw [lexed] at failed
    have failed : ofTokens tokens.toList file firstId = .error e := failed
    obtain ⟨ts, isOf, settled⟩ := settled_parse lexed
    unfold ofTokens at failed
    generalize Grammar.module file (.ofTokens tokens.toList file firstId) = outcome at settled failed
    cases settled with
    | read => cases failed
    | refused refuses =>
      cases failed
      exact .inr ⟨ts, isOf, refuses⟩

end Module

end FlowTypes
