import FlowTypes.Proofs.Assembly.Modules
import FlowTypes.Proofs.SourceNames

/-! Trees that are well formed. Most of what an analysis relies on is checked where a statement is read.
Two things are not: the targets of a comprehension are taken as they come, and behind `from` an import may
follow at once, without a module. Main statement: these are the only exceptions. -/
namespace FlowTypes

/-- The clauses of a comprehension. -/
def Expr.clauses : Expr → List (Clause Expr)
  | comprehension _ _ _ _ clauses => clauses
  | _ => []

/-- The module that names are imported from, and how many levels up it is. -/
def Stmt.source? : Stmt → Option (String × Nat)
  | importFrom _ source level _ _ => some (source, level)
  | _ => none

namespace TreeNode

/-- Targets can be assigned to, an import says from where, and what is tried is followed by a handler
or by something to be done in any case. -/
def WellFormed : TreeNode → Prop
  | expr e => ∀ c ∈ e.clauses, c.target.isAssignable = true
  | stmt s => s.Checked ∧ ∀ imported ∈ s.source?, imported.2 = 0 → imported.1 ≠ ""
  | _ => True

instance : DecidablePred WellFormed
  | expr e => inferInstanceAs (Decidable (∀ c ∈ e.clauses, c.target.isAssignable = true))
  | stmt s => inferInstanceAs
    (Decidable (s.Checked ∧ ∀ imported ∈ s.source?, imported.2 = 0 → imported.1 ≠ ""))
  | parameter _ | handler _ | imported _ => .isTrue trivial

/-- A clause of a comprehension has a target that nothing can be assigned to. -/
def HasStrayTarget : TreeNode → Prop
  | expr e => ∃ c ∈ e.clauses, c.target.isAssignable = false
  | _ => False

/-- The statement starts with `from`, and the next token is `import`. -/
def IsBareImport (ts : TokenList) : TreeNode → Prop
  | stmt (.importFrom n _ _ _ _) => ∃ i, (ts.get i).span.start = n.span.start ∧
      ts.kind i = .kwFrom ∧ ts.kind (i + 1) = .kwImport
  | _ => False

end TreeNode

section

variable {source file : String} {ts : TokenList} {i j k : Nat}

theorem TokenList.Of.value_ne (tokens : ts.Of source file)
    (nameLike : (ts.get k).isNameLike = true) : (ts.get k).value ≠ "" := by
  intro empty
  by_cases isName : ts.kind k = .identifier
  · obtain ⟨after, before, -, start, stop⟩ := tokens.slice (k := k) (by rw [isName]; rfl)
    have positive := tokens.tiled.start_lt_stop _ (ts.get_mem k) (by
      rw [show (ts.get k).kind = .identifier from isName]
      rfl)
    rw [empty, String.toList_empty, List.append_nil] at stop
    omega
  · rw [Token.isNameLike_of_layout isName (by simp [empty])] at nameLike
    cases nameLike

/-- A module without a name is not asked for, but where no name can be. -/
theorem TokenList.NamesModule.ne_iff (tokens : ts.Of source file)
    (names : ts.NamesModule i name level) :
    (level = 0 → name ≠ "") ↔ ts.kind (i + 1) ≠ .kwImport := by
  unfold TokenList.NamesModule at names
  split at names
  · case isTrue isImport =>
    constructor
    · exact fun named => absurd names.2 (named names.1)
    · exact fun notImport => absurd isImport notImport
  · case isFalse notImport =>
    constructor
    · exact fun _ => notImport
    · rintro - same rfl
      obtain ⟨nameLike, starts⟩ := names same
      apply tokens.value_ne nameLike
      apply String.toList_injective
      simpa using starts

theorem TreeNode.isBareImport_iff (tokens : ts.Of source file)
    (start : n.span.start = (ts.get i).span.start) (isFrom : ts.kind i = .kwFrom) :
    (stmt (.importFrom n name level names isStar)).IsBareImport ts ↔ ts.kind (i + 1) = .kwImport := by
  constructor
  · rintro ⟨i', start', isFrom', isImport⟩
    have same : i' = i := by
      apply tokens.eq_of_start
      · rw [isFrom']
        rfl
      · rw [isFrom]
        rfl
      · rw [start', start]
    rw [← same]
    exact isImport
  · exact fun isImport => ⟨i, start.symm, isFrom, isImport⟩

theorem TreeNode.wellFormed_iff {t : TreeNode} (tokens : ts.Of source file) (regular : t.Regular)
    (span : t.node.span = ts.span i j) (named : t.Named ts i j) :
    t.WellFormed ↔ ¬ t.HasStrayTarget ∧ ¬ t.IsBareImport ts := by
  cases t with
  | expr e => simp [WellFormed, HasStrayTarget, IsBareImport]
  | stmt s =>
    have checked : s.Checked := regular
    cases s with
    | importFrom n name level names isStar =>
      obtain ⟨isFrom, namesModule⟩ := named
      have start : n.span.start = (ts.get i).span.start :=
        (congrArg Span.start span : n.span.start = (ts.span i j).start)
      rw [isBareImport_iff tokens start isFrom, ← ne_eq, ← namesModule.ne_iff tokens]
      simp [WellFormed, HasStrayTarget, Stmt.source?, checked]
    | _ => simp [WellFormed, HasStrayTarget, IsBareImport, Stmt.source?, checked]
  | _ => simp [WellFormed, HasStrayTarget, IsBareImport]

end

/-- A node of a tree that was read is well formed, but for two exceptions: comprehensions with a target
that nothing can be assigned to, and imports from no module. -/
theorem wellFormed_or_exception {source file : String} {firstId next : NodeId} {m : Module}
    (read : Module.parse source file firstId = .ok (m, next)) :
    ∃ ts : TokenList, ts.Of source file ∧
      ∀ t ∈ m.nodes, t.WellFormed ↔ ¬ t.HasStrayTarget ∧ ¬ t.IsBareImport ts := by
  obtain ⟨ts, k, tokens, -, -, laid⟩ := Module.parse_laid read
  refine ⟨ts, tokens, fun t found => ?_⟩
  have regular := Module.isRegular_parse read t found
  cases laid.each t found with
  | across _ _ _ span named _ => exact t.wellFormed_iff tokens regular span named

/-- Where the nodes of a text are that are not well formed, if it is read without an error. -/
def Text.illFormed? (source : String) : Option (List Span) :=
  (Module.parse source "m" 0).toOption.map fun r =>
    (r.1.nodes.filter (¬ ·.WellFormed)).map (·.node.span)

/-- Statements that are checked, an import of either kind, and both exceptions. -/
def Text.mixed : String :=
  "from import a\nfor x, [y] in z: x.u += 1\ntry: (k for 1 in k)\nfinally: from .b import c\n"

/-- Nothing but a comprehension. -/
def Text.stray : String := "[x for 1 in y]"

/-- Nothing but an import. -/
def Text.bare : String := "from import x"

theorem Text.illFormed_read :
    illFormed? mixed = some [⟨⟨0, "m"⟩, ⟨14, "m"⟩⟩, ⟨⟨45, "m"⟩, ⟨59, "m"⟩⟩] ∧
    illFormed? stray = some [⟨⟨0, "m"⟩, ⟨14, "m"⟩⟩] ∧
    illFormed? bare = some [⟨⟨0, "m"⟩, ⟨13, "m"⟩⟩] := by
  decide +kernel

theorem mixed_wellFormed : ∃ m next ts, Module.parse Text.mixed "m" 0 = .ok (m, next) ∧
    TokenList.Of Text.mixed "m" ts ∧
    (m.nodes.filter (¬ ·.WellFormed)).map (·.node.span) =
      [⟨⟨0, "m"⟩, ⟨14, "m"⟩⟩, ⟨⟨45, "m"⟩, ⟨59, "m"⟩⟩] ∧
    ∀ t ∈ m.nodes, t.WellFormed ↔ ¬ t.HasStrayTarget ∧ ¬ t.IsBareImport ts := by
  obtain ⟨m, next, read, found⟩ := Module.exists_of_parse Text.illFormed_read.1
  obtain ⟨ts, tokens, wellFormed⟩ := wellFormed_or_exception read
  exact ⟨m, next, ts, read, tokens, found, wellFormed⟩

/-- Texts that are read without an error, though their trees are not well formed. -/
theorem illFormed_accepted :
    (∃ m next, Module.parse Text.stray "m" 0 = .ok (m, next) ∧ ∃ t ∈ m.nodes, ¬ t.WellFormed) ∧
    ∃ m next, Module.parse Text.bare "m" 0 = .ok (m, next) ∧ ∃ t ∈ m.nodes, ¬ t.WellFormed := by
  have accepted : ∀ {source span}, Text.illFormed? source = some [span] →
      ∃ m next, Module.parse source "m" 0 = .ok (m, next) ∧ ∃ t ∈ m.nodes, ¬ t.WellFormed := by
    intro source span illFormed
    obtain ⟨m, next, read, found⟩ := Module.exists_of_parse illFormed
    have found : span ∈ (m.nodes.filter (¬ ·.WellFormed)).map (·.node.span) := by
      rw [found]
      exact List.mem_singleton_self _
    obtain ⟨t, found, -⟩ := List.mem_map.mp found
    obtain ⟨inside, fails⟩ := List.mem_filter.mp found
    exact ⟨m, next, read, t, inside, of_decide_eq_true fails⟩
  exact ⟨accepted Text.illFormed_read.2.1, accepted Text.illFormed_read.2.2⟩

end FlowTypes
