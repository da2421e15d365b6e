import FlowTypes.Proofs.Extent.Sources

/-! Spans nest as the nodes do. A node covers the tokens from its first to its last, the tokens of its
parts are among them, and tokens stand in order. -/
namespace FlowTypes

/-- A stretch of a file that lies inside of another one. -/
structure Span.Inside (inner outer : Span) : Prop where
  file : inner.start.file = outer.start.file ∧ inner.stop.file = outer.stop.file
  start : outer.start.offset ≤ inner.start.offset
  ordered : inner.start.offset ≤ inner.stop.offset
  stop : inner.stop.offset ≤ outer.stop.offset

/-- The places of the names that belong to a node: attributes, functions and classes. -/
def TreeNode.nameSpans : TreeNode → List Span
  | expr (.member _ _ _ span) => [span]
  | stmt (.function d) => [d.nameSpan]
  | stmt (.classDef d) => [d.nameSpan]
  | _ => []

section

variable {source file : String} {ts : TokenList} {i j i' j' k : Nat}

theorem TokenList.Of.span_inside (tokens : ts.Of source file) (lower : i ≤ i') (some : i' < j')
    (upper : j' ≤ j) : (ts.span i' j').Inside (ts.span i j) where
  file := by
    have inFile := fun k => tokens.tiled.file_eq _ (ts.get_mem k)
    exact ⟨(inFile i').1.trans (inFile i).1.symm, (inFile (j' - 1)).2.trans (inFile (j - 1)).2.symm⟩
  start := (tokens.ordered lower).1
  ordered := Nat.le_trans (tokens.ordered (show i' ≤ j' - 1 by omega)).1 (tokens.span_get (j' - 1))
  stop := (tokens.ordered (show j' - 1 ≤ j - 1 by omega)).2

theorem Laid.inside (tokens : ts.Of source file) (laid : Laid ts i j u) :
    u.node.span.Inside (ts.span i j) := by
  obtain ⟨i', j', lower, some, upper, span, -⟩ := laid.tight
  rw [span]
  exact tokens.span_inside lower some upper

theorem TokenList.Names.inside {span : Span} (tokens : ts.Of source file)
    (names : ts.Names i j isName text span) : span.Inside (ts.span i j) := by
  obtain ⟨m, lower, upper, -, -, rfl⟩ := names
  exact tokens.span_inside lower (Nat.lt_succ_self m) upper

theorem TreeNode.Named.inside {t : TreeNode} (tokens : ts.Of source file) (named : t.Named ts i j) :
    ∀ span ∈ t.nameSpans, span.Inside (ts.span i j) := by
  intro span found
  unfold TreeNode.nameSpans at found
  split at found
  · obtain rfl := List.mem_singleton.mp found
    have names : ts.Names i j (·.isNameLike = true) _ span := named
    exact names.inside tokens
  · case h_2 d =>
    obtain rfl := List.mem_singleton.mp found
    have names : ts.Names i j (·.kind = .identifier) _ d.nameSpan := named
    exact names.inside tokens
  · case h_3 d =>
    obtain rfl := List.mem_singleton.mp found
    have names : ts.Names i j (·.kind = .identifier) _ d.nameSpan := named
    exact names.inside tokens
  · cases found

theorem Laid.inside_text (tokens : ts.Of source file) (laid : Laid ts i j u) :
    u.node.span.Inside ⟨⟨0, file⟩, ⟨source.utf8ByteSize, file⟩⟩ := by
  obtain ⟨i', j', -, some, -, span, laid⟩ := laid.tight
  have ordered := (laid.inside tokens).ordered
  rw [span] at ordered ⊢
  have inFile := fun k => tokens.tiled.file_eq _ (ts.get_mem k)
  have stop := (tokens.tiled.stop_le _ (ts.get_mem (j' - 1))).2
  rw [Text.byteSize_eq_utf8ByteSize, String.ofList_toList] at stop
  exact ⟨⟨(inFile i').1, (inFile (j' - 1)).2⟩, Nat.zero_le _, ordered, stop⟩

end

/-- The span of a module is the whole text, every node has its end behind its start, and whatever is
directly inside of a node, be it another node or a name, has its span inside of that of the node. -/
theorem spans_nest {source file : String} {firstId next : NodeId} {m : Module}
    (read : Module.parse source file firstId = .ok (m, next)) :
    m.node.span = ⟨⟨0, file⟩, ⟨source.utf8ByteSize, file⟩⟩ ∧
    (∀ s ∈ m.body, s.node.span.Inside m.node.span) ∧
    ∀ t ∈ m.nodes, t.node.span.start.offset ≤ t.node.span.stop.offset ∧
      (∀ u ∈ t.parts, u.node.span.Inside t.node.span) ∧
      ∀ span ∈ t.nameSpans, span.Inside t.node.span := by
  obtain ⟨ts, k, tokens, isEnd, whole, laid⟩ := Module.parse_laid read
  rw [tokens.span_eof isEnd] at whole
  refine ⟨whole, fun s member => ?_, fun t found => ?_⟩
  · rw [whole]
    have found : TreeNode.stmt s ∈ m.nodes :=
      List.mem_flatMap.mpr ⟨s, member, TreeNode.mem_all_self⟩
    exact (laid.each _ found).inside_text tokens
  · have inside := (laid.each t found).inside_text tokens
    cases laid.each t found with
    | across lower some upper span named parts =>
      rw [span] at inside ⊢
      exact ⟨inside.ordered, fun u part => (parts u part).inside tokens, named.inside tokens⟩

/-- A decorated method in a class whose base is in parentheses, and a call with a bare generator. -/
def Text.nested : String := "class a((b)):\n  @c\n  def f(x=('é')): return g(y for y in (x).z)\n"

theorem nested_spans_nest : ∃ m next, Module.parse Text.nested "m" 0 = .ok (m, next) ∧
    m.node.span = ⟨⟨0, "m"⟩, ⟨Text.nested.utf8ByteSize, "m"⟩⟩ ∧
    m.nodes.length = 14 ∧
    ∀ t ∈ m.nodes, ∀ u ∈ t.parts, u.node.span.Inside t.node.span := by
  have counted : (Module.parse Text.nested "m" 0).toOption.map (·.1.nodes.length) = some 14 := by
    decide +kernel
  cases read : Module.parse Text.nested "m" 0 with
  | error e =>
    rw [read] at counted
    cases counted
  | ok result =>
    rw [read] at counted
    obtain ⟨whole, -, nodes⟩ := spans_nest read
    exact ⟨result.1, result.2, rfl, whole, Option.some.inj counted, fun t found => (nodes t found).2.1⟩

end FlowTypes
