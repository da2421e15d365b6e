import FlowTypes.Proofs.Extent.Sources

/-! Names in the tree are names in the text. A name is the value of a token, and the value of most
tokens is what they stand for. Strings are the exception: behind a dot, one whose value is a reserved
word passes for that word. -/
namespace FlowTypes

/-! ### What can stand behind a dot -/

theorem Token.isNameLike_of_layout {t : Token} (other : t.kind ≠ .identifier)
    (value : t.value ∈ ["", "\\n", "EOF"]) : t.isNameLike = false := by
  have unreserved : ∀ word ∈ ["", "\\n", "EOF"], (Kind.reserved.lookup word).isSome = false := by
    decide
  simp [Token.isNameLike, other, unreserved t.value value]

theorem Layout.of_isNameLike (layout : Layout tokens blocks) :
    ∀ t ∈ tokens, t.isNameLike = true → t.kind = .string ∨ t.kind.isSpelled = true := by
  have concat : ∀ {tokens : List Token} {t : Token},
      (∀ u ∈ tokens, u.isNameLike = true → u.kind = .string ∨ u.kind.isSpelled = true) →
      (t.isNameLike = true → t.kind = .string ∨ t.kind.isSpelled = true) →
      ∀ u ∈ tokens ++ [t], u.isNameLike = true → u.kind = .string ∨ u.kind.isSpelled = true := by
    intro tokens t others own u found
    rcases List.mem_append.mp found with earlier | last
    · exact others u earlier
    · rw [List.mem_singleton.mp last]
      exact own
  induction layout with
  | none => exact fun _ found => nomatch found
  | indent _ same silent _ ih | dedent _ same silent _ ih =>
    apply concat ih
    intro nameLike
    rw [Token.isNameLike_of_layout (by rw [same]; decide) (by simp [silent])] at nameLike
    cases nameLike
  | newline _ same ending _ _ ih =>
    apply concat ih
    intro nameLike
    rw [Token.isNameLike_of_layout (by rw [same]; decide)
      (by rcases ending with ending | ending <;> simp [ending])] at nameLike
    cases nameLike
  | inLine _ inside ih => exact concat ih fun _ => inside

theorem kind_of_isNameLike (read : tokenize source file = .ok tokens) :
    ∀ t ∈ tokens.toList, t.isNameLike = true → t.kind = .string ∨ t.kind.isSpelled = true := by
  obtain ⟨before, last, split, layout, isEnd, value⟩ := layout_tokenize read
  intro t found nameLike
  rw [split] at found
  rcases List.mem_append.mp found with earlier | found
  · exact layout.of_isNameLike t earlier nameLike
  · rw [List.mem_singleton.mp found,
      Token.isNameLike_of_layout (by rw [isEnd]; decide) (by simp [value])] at nameLike
    cases nameLike

/-! ### Stretches of a text -/

/-- The text stands in the source at the span. -/
def Slice (source : String) (span : Span) (text : String) : Prop :=
  ∃ after, Stretch source span.start.offset span.stop.offset text.toList after

theorem Slice.unique (first : Slice source span text) (second : Slice source span text') :
    text = text' := by
  obtain ⟨after, before, whole, start, stop⟩ := first
  obtain ⟨after', before', whole', start', stop'⟩ := second
  simp only [← Text.byteSize_eq_utf8ByteSize] at start stop start' stop'
  have same : before = before' := by
    apply Text.eq_of_byteSize_eq (x := text.toList ++ after) (y := text'.toList ++ after')
    · rw [← List.append_assoc, ← List.append_assoc, ← whole, ← whole']
    · rw [start, start']
  have both : before ++ text.toList = before' ++ text'.toList := by
    apply Text.eq_of_byteSize_eq (x := after) (y := after')
    · rw [← whole, ← whole']
    · rw [stop, stop']
  rw [same] at both
  exact String.toList_injective (List.append_cancel_left both)

/-- A string literal at the span has a reserved word in lower case as its value. -/
def QuotedWord (source : String) (span : Span) (word : String) : Prop :=
  (Kind.reserved.lookup word).isSome = true ∧ word.toList.all Char.isLower = true ∧
    ∃ literal, Slice source span literal ∧ Stands .string word.toList literal.toList

theorem QuotedWord.not_slice (quoted : QuotedWord source span word) : ¬ Slice source span word := by
  intro slice
  obtain ⟨-, lower, literal, slice', marks, quote, content, quotes, -⟩ := quoted
  obtain rfl := slice.unique slice'
  obtain ⟨q, isQuote, shape⟩ := quotes.isQuote
  have found : q ∈ word.toList := by
    rw [quotes.text_eq]
    rcases shape with rfl | ⟨rfl, -⟩ <;> simp
  have isLower := List.all_eq_true.mp lower q found
  simp only [Literal.isQuote, Bool.or_eq_true, decide_eq_true_eq] at isQuote
  rcases isQuote with rfl | rfl <;> exact absurd isLower (by decide)

/-! ### Names of nodes -/

section

variable {source file : String} {ts : TokenList} {i j k : Nat}

theorem eq_of_stands (spelled : kind.isSpelled = true) (stands : Stands kind value text) :
    value = text := by
  cases kind <;> first | exact stands | cases spelled

theorem TokenList.Of.slice (tokens : ts.Of source file) (spelled : (ts.kind k).isSpelled = true) :
    Slice source (ts.get k).span (ts.get k).value := by
  obtain ⟨text, after, stretch, stands⟩ := tokens.tiled.stretch _ (ts.get_mem k)
  obtain rfl := eq_of_stands spelled stands
  exact ⟨after, stretch⟩

theorem TokenList.Names.slice {span : Span} (tokens : ts.Of source file)
    (names : ts.Names i j isName text span) (spelled : ∀ t, isName t → t.kind.isSpelled = true) :
    Slice source span text := by
  obtain ⟨m, -, -, isName, rfl, rfl⟩ := names
  exact tokens.slice (spelled _ isName)

theorem TokenList.Names.slice_iff {span : Span} (tokens : ts.Of source file)
    (names : ts.Names i j (·.isNameLike = true) property span) :
    Slice source span property ↔ ¬ QuotedWord source span property := by
  constructor
  · exact fun slice quoted => quoted.not_slice slice
  · intro plain
    obtain ⟨m, -, -, nameLike, rfl, rfl⟩ := names
    rcases kind_of_isNameLike tokens _ (ts.get_mem m) nameLike with isString | spelled
    · obtain ⟨text, after, stretch, stands⟩ := tokens.tiled.stretch _ (ts.get_mem m)
      rw [isString] at stands
      simp only [Token.isNameLike, isString, reduceCtorEq, decide_false, Bool.false_or,
        Bool.and_eq_true] at nameLike
      exact absurd ⟨nameLike.1, nameLike.2, String.ofList text, ⟨after, by simpa using stretch⟩,
        by simpa using stands⟩ plain
    · exact tokens.slice spelled

end

/-- Names, numbers, and the names of functions and classes stand in the source at their spans. So do
attributes, but for quoted words. -/
def TreeNode.NamesStand (source : String) : TreeNode → Prop
  | expr (.name n text) => Slice source n.span text
  | expr (.number n _ text) => Slice source n.span text
  | expr (.member _ _ property span) =>
    Slice source span property ↔ ¬ QuotedWord source span property
  | stmt (.function d) => Slice source d.nameSpan d.name
  | stmt (.classDef d) => Slice source d.nameSpan d.name
  | _ => True

theorem TreeNode.Named.stand {t : TreeNode} (tokens : ts.Of source file) (named : t.Named ts i j) :
    t.NamesStand source := by
  unfold NamesStand
  split
  · case h_1 n text =>
    have names : ts.Names i j (fun t => t.kind = .identifier ∨ t.kind = .kwPrint) text n.span := named
    apply names.slice tokens
    rintro t (isName | isName) <;> rw [isName] <;> rfl
  · case h_2 n kind text =>
    have names : ts.Names i j (·.kind = .number) text n.span := named
    exact names.slice tokens fun t isName => by rw [isName]; rfl
  · case h_3 n object property span =>
    have names : ts.Names i j (·.isNameLike = true) property span := named
    exact names.slice_iff tokens
  · case h_4 d =>
    have names : ts.Names i j (·.kind = .identifier) d.name d.nameSpan := named
    exact names.slice tokens fun t isName => by rw [isName]; rfl
  · case h_5 d =>
    have names : ts.Names i j (·.kind = .identifier) d.name d.nameSpan := named
    exact names.slice tokens fun t isName => by rw [isName]; rfl
  · trivial

/-- The names of a module stand in its source. An attribute does exactly if it is not a quoted word. -/
theorem names_stand {source file : String} {firstId next : NodeId} {m : Module}
    (read : Module.parse source file firstId = .ok (m, next)) :
    ∀ t ∈ m.nodes, t.NamesStand source := by
  intro t found
  obtain ⟨ts, k, tokens, -, -, laid⟩ := Module.parse_laid read
  cases laid.each t found with
  | across _ _ _ _ named _ => exact named.stand tokens

/-- The attribute of a node and its place. -/
def TreeNode.property? : TreeNode → Option (String × Span)
  | expr (.member _ _ property span) => some (property, span)
  | _ => none

theorem TreeNode.eq_member (found : t.property? = some (property, span)) :
    ∃ n object, t = expr (.member n object property span) := by
  unfold TreeNode.property? at found
  split at found
  · cases found
    exact ⟨_, _, rfl⟩
  · cases found

/-- The attributes of a text that is read without an error. -/
def Text.properties? (source : String) : Option (List (String × Span)) :=
  (Module.parse source "m" 0).toOption.map (·.1.nodes.filterMap TreeNode.property?)

theorem Text.parse_of_properties (found : properties? source = some properties) : ∃ m next,
      Module.parse source "m" 0 = .ok (m, next) ∧
      m.nodes.filterMap TreeNode.property? = properties :=
  Module.exists_of_parse found

/-- An attribute that is a reserved word, and one that is quoted. -/
def Text.words : String := "class a:\n  def f(b): return b.if + b.'in' + 1_0\n"

/-- Nothing but a quoted attribute. -/
def Text.quoted : String := "x.'if'"

theorem Text.properties_read :
    properties? words = some [("if", ⟨⟨30, "m"⟩, ⟨32, "m"⟩⟩), ("in", ⟨⟨37, "m"⟩, ⟨41, "m"⟩⟩)] ∧
    properties? quoted = some [("if", ⟨⟨2, "m"⟩, ⟨6, "m"⟩⟩)] := by
  decide +kernel

theorem words_stand : ∃ m next, Module.parse Text.words "m" 0 = .ok (m, next) ∧
    m.nodes.filterMap TreeNode.property? =
      [("if", ⟨⟨30, "m"⟩, ⟨32, "m"⟩⟩), ("in", ⟨⟨37, "m"⟩, ⟨41, "m"⟩⟩)] ∧
    ∀ t ∈ m.nodes, t.NamesStand Text.words := by
  obtain ⟨m, next, read, properties⟩ := Text.parse_of_properties Text.properties_read.1
  exact ⟨m, next, read, properties, names_stand read⟩

/-- An attribute that does not stand in the source: the text at its span has quotes. -/
theorem quoted_property_differs : ∃ m next n object,
    Module.parse Text.quoted "m" 0 = .ok (m, next) ∧
    TreeNode.expr (.member n object "if" ⟨⟨2, "m"⟩, ⟨6, "m"⟩⟩) ∈ m.nodes ∧
    Slice Text.quoted ⟨⟨2, "m"⟩, ⟨6, "m"⟩⟩ "'if'" ∧
    ¬ Slice Text.quoted ⟨⟨2, "m"⟩, ⟨6, "m"⟩⟩ "if" := by
  have slice : Slice Text.quoted ⟨⟨2, "m"⟩, ⟨6, "m"⟩⟩ "'if'" :=
    ⟨[], "x.".toList, by decide, by decide, by decide⟩
  obtain ⟨m, next, read, properties⟩ := Text.parse_of_properties Text.properties_read.2
  have found : ("if", ⟨⟨2, "m"⟩, ⟨6, "m"⟩⟩) ∈ m.nodes.filterMap TreeNode.property? := by
    rw [properties]
    exact List.mem_singleton_self _
  obtain ⟨t, inside, isMember⟩ := List.mem_filterMap.mp found
  obtain ⟨n, object, rfl⟩ := TreeNode.eq_member isMember
  refine ⟨m, next, n, object, read, inside, slice, fun other => ?_⟩
  exact absurd (slice.unique other) (by decide)

end FlowTypes
