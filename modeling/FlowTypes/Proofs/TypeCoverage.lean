import FlowTypes.Proofs.Coverage.Bodies
import FlowTypes.Proofs.Coverage.Files
import FlowTypes.Proofs.TypeMap
import FlowTypes.Proofs.UncalledFunctions

/-! Which expressions the map of types has. The walk comes to an expression as a value, as the target of
an assignment or as an index, and notes a type for it in most of these places. Main statement: in the end
the map has a type for every expression of every file that was read, except for return annotations, for
slices that are indices and for the stars of targets. -/
namespace FlowTypes

/-! ### Definitions of a file -/

namespace State

variable {s : State} {p : Path} {tree : Module}

theorem Numbered.definition_eq (numbered : s.Numbered) {d' : Definition}
    (held : s.tree? p = some tree) (inside : d.phrase.treeNode ∈ tree.nodes)
    (known : s.Knows d'.phrase) (same : d'.node.id = d.node.id) : d' = d := by
  obtain ⟨tree', ⟨q, status, found, content⟩, t, member, within⟩ := known
  have held' : s.tree? q = some tree' := by
    rw [tree?, found]
    exact content
  have inside' : d'.phrase.treeNode ∈ tree'.nodes :=
    List.mem_flatMap.mpr ⟨t, member, Phrase.treeNode_mem_all within⟩
  have shared : d'.phrase.treeNode.node.id = d.phrase.treeNode.node.id := by
    rw [d.node_phrase, d'.node_phrase, same]
  by_cases file : q.components = p.components
  · rw [tree?, status?_congr file, ← tree?, held] at held'
    cases held'
    have distinct := (List.nodup_cons.mp (numbered.distinct held)).2
    have nodes := List.inj_on_of_nodup_map distinct inside' inside shared
    have phrases : d'.phrase = d.phrase := by
      cases d' <;> cases d <;> cases nodes <;> rfl
    have found := congrArg Phrase.definition? phrases
    rw [Phrase.definition?_phrase, Phrase.definition?_phrase] at found
    exact Option.some.inj found
  · -- Different files have no identities in common.
    have apart := numbered.apart held' held file
    refine absurd (List.mem_cons_of_mem _ (List.mem_map_of_mem inside)) (apart ?_)
    rw [← shared]
    exact List.mem_cons_of_mem _ (List.mem_map_of_mem inside')

/-- The walk has been everywhere in a file. -/
structure Explored (s : State) (m : Module) : Prop where
  regular : m.IsRegular
  body : ∀ t ∈ m.body, s.Visited (.stmt t)
  /-- Where a definition was met its body has been walked. -/
  bodies : ∀ d : Definition, d.phrase.treeNode ∈ m.nodes → s.Visited (.met d) →
    ∀ q ∈ d.sites, s.Visited q

end State

theorem Session.explored (session : Session s) (done : s.uncalled = [])
    (held : s.tree? p = some tree) : s.Explored tree := by
  obtain ⟨regular, body⟩ := session.files held
  refine ⟨regular, body, fun d inside visited => ?_⟩
  obtain ⟨fn, met⟩ := Option.isSome_iff_exists.mp visited.own
  obtain ⟨d', own, found, walked⟩ := session.bodies done met
  have known := session.sourced.functions fn _ d' found rfl
  have numbered := session.called.numbered State.initial_numbered
  obtain rfl := numbered.definition_eq held inside known own
  exact walked

/-! ### Places of expressions -/

/-- The expressions that a statement assigns to. -/
def Stmt.targets : Stmt → List Expr
  | assign _ targets _ => targets
  | declare _ target _ _ | forLoop _ target _ _ _ _ => [target]
  | withBlock _ items _ _ => items.flatMap (·.target.toList)
  | _ => []

/-- The targets that a target consists of. -/
def Expr.targets : Expr → List Expr
  | tuple _ es | list _ es => es
  | starred _ e => [e]
  | _ => []

namespace Module

/-- An expression of a file is assigned to. -/
inductive Assigns (m : Module) : Expr → Prop
  | stmt {t : Stmt} {e : Expr} (inside : .stmt t ∈ m.nodes) (target : e ∈ t.targets) : Assigns m e
  | clause {n : Node} {kind : ComprehensionKind} {element : Expr} {value : Option Expr}
      {clauses : List (Clause Expr)} {c : Clause Expr}
      (inside : .expr (.comprehension n kind element value clauses) ∈ m.nodes)
      (clause : c ∈ clauses) : Assigns m c.target
  | part {e part : Expr} (assigned : Assigns m e) (target : part ∈ e.targets) : Assigns m part

/-- Something stands in the return annotation of a function. -/
def Annotates (m : Module) (t : TreeNode) : Prop :=
  ∃ d hint, .stmt (.function d) ∈ m.nodes ∧ hint ∈ d.returns.toList ∧ t ∈ (TreeNode.expr hint).all

/-- The expressions for which no type is noted. -/
inductive Overlooks (m : Module) : Expr → Prop
  | hint {e : Expr} (inside : m.Annotates (.expr e)) : Overlooks m e
  /-- A slice that is an index has no type of its own. -/
  | slice {n node : Node} {object : Expr} {lower upper step : Option Expr}
      (inside : .expr (.subscript n object (.slice node lower upper step)) ∈ m.nodes) :
      Overlooks m (.slice node lower upper step)
  /-- A value goes to what is behind the star. -/
  | star {n : Node} {e : Expr} (assigned : m.Assigns (.starred n e)) : Overlooks m (.starred n e)

end Module

namespace State

variable {s : State} {m : Module}

/-- How the walk has come to a node. -/
inductive Reaches (s : State) (m : Module) : TreeNode → Prop
  | stmt {t : Stmt} (visited : s.Visited (.stmt t)) : Reaches s m (.stmt t)
  | value {e : Expr} (visited : s.Visited (.value e)) : Reaches s m (.expr e)
  | target {e : Expr} (assigned : m.Assigns e) (visited : s.Visited (.target e)) :
      Reaches s m (.expr e)
  | index {n : Node} {object i : Expr} (inside : .expr (.subscript n object i) ∈ m.nodes)
      (visited : s.Visited (.index i)) : Reaches s m (.expr i)
  | hint {t : TreeNode} (inside : m.Annotates t) : Reaches s m t
  | parameter {p : Parameter Expr} (exprs : ∀ e ∈ p.exprs, s.Visited (.value e)) :
      Reaches s m (.parameter p)
  | handler {h : Handler Stmt} (exception : ∀ e ∈ h.exception.toList, s.Visited (.value e))
      (body : ∀ t ∈ h.body, s.Visited (.stmt t)) : Reaches s m (.handler h)
  | imported (a : Alias) : Reaches s m (.imported a)

namespace Visited

theorem noted (visited : s.Visited (.noted node)) : (s.nodeTypes.get? node).isSome = true :=
  visited.own

theorem value_site (visited : s.Visited (.value e)) (site : q ∈ e.sites) : s.Visited q :=
  visited.part (List.mem_append_left _ (List.mem_append_right _ site))

theorem stmt_site (visited : s.Visited (.stmt t)) (site : q ∈ t.sites) : s.Visited q :=
  visited.part (List.mem_append_right _ site)

theorem stmt_expr (visited : s.Visited (.stmt t)) (inside : .stmt t ∈ m.nodes) (part : e ∈ t.exprs) :
    s.Reaches m (.expr e) := by
  have value : .value e ∈ t.sites → s.Reaches m (.expr e) := fun site =>
    .value (visited.stmt_site site)
  have target : e ∈ t.targets → .target e ∈ t.sites → s.Reaches m (.expr e) := fun target site =>
    .target (.stmt inside target) (visited.stmt_site site)
  cases t with
  | assign n targets v =>
    rcases List.mem_cons.mp part with rfl | part
    · exact value List.mem_cons_self
    · exact target part (List.mem_cons_of_mem _ (List.mem_map_of_mem part))
  | augment n t op v =>
    apply value
    simp only [Stmt.exprs, List.mem_cons, List.not_mem_nil, or_false] at part
    rcases part with rfl | rfl <;> simp [Stmt.sites]
  | declare n t hint v =>
    simp only [Stmt.exprs, List.mem_cons] at part
    rcases part with rfl | rfl | part
    · exact target List.mem_cons_self (by simp [Stmt.sites])
    · exact value List.mem_cons_self
    · exact value (by simp [Stmt.sites, Option.mem_toList.mp part])
  | function d =>
    simp only [Stmt.exprs, List.mem_append] at part
    rcases part with part | part | part
    · exact value (by simp [Stmt.sites, part])
    · exact .hint ⟨d, e, inside, part, TreeNode.mem_all_self⟩
    · exact value (List.mem_map_of_mem (List.mem_append_right _ part))
  | forLoop n t iter =>
    simp only [Stmt.exprs, List.mem_cons, List.not_mem_nil, or_false] at part
    rcases part with rfl | rfl
    · exact target List.mem_cons_self (by simp [Stmt.sites])
    · exact value List.mem_cons_self
  | withBlock n items body isAsync =>
    obtain ⟨item, member, part⟩ := List.mem_flatMap.mp part
    have site : ∀ q ∈ item.sites, q ∈ (Stmt.withBlock n items body isAsync).sites :=
      fun q site => List.mem_append_left _ (List.mem_flatMap.mpr ⟨item, member, site⟩)
    rcases List.mem_cons.mp part with rfl | part
    · exact value (site _ List.mem_cons_self)
    · apply target
      · exact List.mem_flatMap.mpr ⟨item, member, part⟩
      · exact site _ (List.mem_cons_of_mem _ (List.mem_map_of_mem part))
  | _ => exact value (List.mem_append_left _ (List.mem_map_of_mem part))

theorem value_other (visited : s.Visited (.value e)) (other : u ∈ e.others) : s.Reaches m u := by
  cases e with
  | lambda n parameters body =>
    obtain ⟨p, member, rfl⟩ := List.mem_map.mp other
    refine .parameter fun e part => visited.value_site ?_
    exact List.mem_map_of_mem (List.mem_flatMap.mpr ⟨p, member, part⟩)
  | _ => cases other

theorem stmt_other (visited : s.Visited (.stmt t)) (other : u ∈ t.others) : s.Reaches m u := by
  cases t with
  | function d =>
    obtain ⟨p, member, rfl⟩ := List.mem_map.mp other
    refine .parameter fun e part => visited.stmt_site (List.mem_map_of_mem ?_)
    exact List.mem_append_right _ (List.mem_flatMap.mpr ⟨p, member, part⟩)
  | tryBlock n body handlers otherwise final =>
    obtain ⟨h, member, rfl⟩ := List.mem_map.mp other
    apply Reaches.handler
    · intro e part
      apply visited.stmt_site
      apply List.mem_append_left
      exact List.mem_map_of_mem (List.mem_flatMap.mpr ⟨h, member, part⟩)
    · intro t part
      apply visited.stmt_site
      apply List.mem_append_right
      apply List.mem_map_of_mem
      exact List.mem_append_right _ (List.mem_append_left _ (List.mem_flatMap.mpr ⟨h, member, part⟩))
  | imports | importFrom =>
    obtain ⟨a, _, rfl⟩ := List.mem_map.mp other
    exact .imported a
  | _ => cases other

end Visited

namespace Explored

variable (explored : s.Explored m)

include explored

theorem value_part (inside : .expr e ∈ m.nodes) (visited : s.Visited (.value e))
    (part : q ∈ e.parts) : s.Reaches m (.expr q) := by
  cases e with
  | comprehension n kind element value clauses =>
    simp only [Expr.parts, List.mem_cons, List.mem_append] at part
    rcases part with rfl | part | part
    · exact .value (visited.value_site (by simp [Expr.sites]))
    · -- Only the keys of a dict come with values.
      have regular : value.isSome = true → kind = .dict := explored.regular _ inside
      obtain rfl := Option.mem_toList.mp part
      obtain rfl := regular rfl
      exact .value (visited.value_site (by simp [Expr.sites]))
    · obtain ⟨c, member, part⟩ := List.mem_flatMap.mp part
      have site : ∀ q ∈ c.sites, s.Visited q := by
        intro q site
        apply visited.value_site
        exact List.mem_append_left _ (List.mem_flatMap.mpr ⟨c, member, site⟩)
      simp only [Clause.exprs, List.mem_cons] at part
      rcases part with rfl | rfl | part
      · exact .target (.clause inside member) (site _ (by simp [Clause.sites]))
      · exact .value (site _ (by simp [Clause.sites]))
      · exact .value (site _ (by simp [Clause.sites, part]))
  | subscript n object i =>
    simp only [Expr.parts, List.mem_cons, List.not_mem_nil, or_false] at part
    rcases part with rfl | rfl
    · exact .value (visited.value_site List.mem_cons_self)
    · exact .index inside (visited.value_site (by simp [Expr.sites]))
  | lambda n parameters body =>
    rcases List.mem_cons.mp part with rfl | part
    · have met : s.Visited (.met (.lambda n parameters q)) :=
        visited.part (by simp [Site.parts, Phrase.definition?])
      exact .value (explored.bodies (.lambda n parameters q) inside met _ List.mem_cons_self)
    · exact .value (visited.value_site (List.mem_map_of_mem part))
  | _ => exact .value (visited.value_site (List.mem_map_of_mem part))

theorem index_part (inside : .expr (.subscript n object i) ∈ m.nodes)
    (visited : s.Visited (.index i)) (part : q ∈ i.parts) : s.Reaches m (.expr q) := by
  have within : .expr i ∈ m.nodes := Module.mem_nodes_of_mem_parts inside (by simp [Expr.parts])
  cases i with
  | slice => exact .value (visited.part (List.mem_map_of_mem part))
  | _ => exact explored.value_part within (visited.part List.mem_cons_self) part

theorem target_part (inside : .expr e ∈ m.nodes) (assigned : m.Assigns e)
    (visited : s.Visited (.target e)) (part : q ∈ e.parts) : s.Reaches m (.expr q) := by
  cases e with
  | name => cases part
  | tuple n es | list n es =>
    apply Reaches.target (.part assigned part)
    exact visited.part (List.mem_append_left _ (List.mem_map_of_mem part))
  | starred n e =>
    obtain rfl := List.mem_singleton.mp part
    exact .target (.part assigned part) (visited.part List.mem_cons_self)
  | member n object =>
    obtain rfl := List.mem_singleton.mp part
    exact .value (visited.part (by simp [Site.parts]))
  | subscript n object i =>
    simp only [Expr.parts, List.mem_cons, List.not_mem_nil, or_false] at part
    rcases part with rfl | rfl
    · exact .value (visited.part (by simp [Site.parts]))
    · exact .index inside (visited.part (by simp [Site.parts]))
  | _ => exact explored.value_part inside (visited.part List.mem_cons_self) part

theorem stmt_stmt (inside : .stmt t ∈ m.nodes) (visited : s.Visited (.stmt t)) (part : u ∈ t.stmts) :
    s.Visited (.stmt u) := by
  cases t with
  | function d =>
    have met : s.Visited (.met (.function d)) :=
      visited.part (by simp [Site.parts, Phrase.definition?])
    exact explored.bodies (.function d) inside met _ (List.mem_map_of_mem part)
  | forLoop n t iter body otherwise =>
    apply visited.stmt_site
    exact List.mem_cons_of_mem _ (List.mem_cons_of_mem _ (List.mem_map_of_mem part))
  | withBlock => exact visited.stmt_site (List.mem_append_right _ (List.mem_map_of_mem part))
  | assign | augment | declare => cases part
  | _ => exact visited.stmt_site (List.mem_append_right _ (List.mem_map_of_mem part))

theorem reaches_part (inside : t ∈ m.nodes) (reaches : s.Reaches m t) (part : u ∈ t.parts) :
    s.Reaches m u := by
  cases reaches with
  | stmt visited =>
    rcases Stmt.mem_inside part with ⟨e, member, rfl⟩ | ⟨r, member, rfl⟩ | other
    · exact visited.stmt_expr inside member
    · exact .stmt (explored.stmt_stmt inside visited member)
    · exact visited.stmt_other other
  | value visited =>
    rcases Expr.mem_inside part with ⟨q, member, rfl⟩ | other
    · exact explored.value_part inside visited member
    · exact visited.value_other other
  | @target e assigned visited =>
    rcases Expr.mem_inside part with ⟨q, member, rfl⟩ | other
    · exact explored.target_part inside assigned visited member
    · cases e with
      | lambda => exact (visited.part List.mem_cons_self).value_other other
      | _ => cases other
  | @index n object i within visited =>
    rcases Expr.mem_inside part with ⟨q, member, rfl⟩ | other
    · exact explored.index_part within visited member
    · cases i with
      | lambda => exact (visited.part List.mem_cons_self).value_other other
      | _ => cases other
  | hint annotates =>
    obtain ⟨d, hint, function, returns, within⟩ := annotates
    have inner := TreeNode.mem_all_trans within u (TreeNode.mem_all_of_part part)
    exact .hint ⟨d, hint, function, returns, inner⟩
  | parameter exprs =>
    obtain ⟨e, member, rfl⟩ := List.mem_map.mp part
    exact .value (exprs e member)
  | handler exception body =>
    rcases List.mem_append.mp part with part | part
    · obtain ⟨e, member, rfl⟩ := List.mem_map.mp part
      exact .value (exception e member)
    · obtain ⟨t, member, rfl⟩ := List.mem_map.mp part
      exact .stmt (body t member)
  | imported => cases part

theorem reaches : ∀ t ∈ m.nodes, s.Reaches m t := by
  apply Module.nodes_induction (P := s.Reaches m)
  · exact fun t member => .stmt (explored.body t member)
  · exact fun t inside reaches u part => explored.reaches_part inside reaches part

/-- A type was noted for every expression that is not overlooked. -/
theorem noted (inside : .expr e ∈ m.nodes) :
    (s.nodeTypes.get? e.id).isSome = true ∨ m.Overlooks e := by
  have value : ∀ {e}, s.Visited (.value e) → (s.nodeTypes.get? e.id).isSome = true :=
    fun visited => (visited.part (List.mem_append_right _ List.mem_cons_self)).noted
  cases explored.reaches _ inside with
  | value visited => exact .inl (value visited)
  | target assigned visited =>
    cases e with
    | starred => exact .inr (.star assigned)
    | name | tuple | list | member | subscript =>
      exact .inl (visited.part (by simp [Site.parts, Expr.id, Expr.node])).noted
    | _ => exact .inl (value (visited.part List.mem_cons_self))
  | index within visited =>
    cases e with
    | slice => exact .inr (.slice within)
    | _ => exact .inl (value (visited.part List.mem_cons_self))
  | hint annotates => exact .inr (.hint annotates)

end Explored
end State

/-! ### The map of types -/

/-- When a session has been finished, the map of types has an entry for every expression of every file
that was read, wherever it stands, but for those that are overlooked. -/
theorem Session.typeMap_covers {s s' : State} {files : FileSystem} {limits : Limits}
    {answer : Except Error Unit} (session : Session s)
    (ran : (Call.finish.run (Walker.of files limits)).run s = .ok (answer, s')) {p : Path}
    {tree : Module} (held : s'.tree? p = some tree) {e : Expr} (inside : .expr e ∈ tree.nodes) :
    (s'.typeMap.get? e.id).isSome = true ∨ tree.Overlooks e := by
  obtain ⟨_, _, _, _, done⟩ := Call.rounds_finish ran
  have explored := (session.call ran).explored done held
  apply (explored.noted inside).imp_left
  intro noted
  rw [State.get?_typeMap, Option.isSome_or, noted, Bool.or_true]

/-- A name in every part of a program. -/
def everyPart : FileSystem := (MemoryTree.file {} "a.py" ("@a\nclass C(b):\n" ++
  " c=[d[e:] for d in f if g]\n def m(h,i:j=k):\n  try:return lambda l=n:o\n  except p:pass\n")).fileSystem

/-- The names in a module that have an entry. -/
def State.entries (s : State) (m : Module) : List String :=
  m.nodes.filterMap fun
    | .expr (.name n name) => if (s.typeMap.get? n.id).isSome then some name else none
    | _ => none

theorem everyPart_covered : ∃ s s' answer tree, Session s ∧
    (Call.finish.run (Walker.of everyPart {})).run s = .ok (answer, s') ∧
    s'.tree? (.ofString "/a.py") = some tree ∧
    s'.entries tree = ["a", "b", "c", "d", "e", "d", "f", "g", "j", "k", "n", "o", "p"] ∧
    ∀ e, .expr e ∈ tree.nodes → (s'.typeMap.get? e.id).isSome = true ∨ tree.Overlooks e := by
  obtain ⟨s, s', answer, session, finished, found⟩ := Session.exists_whole everyPart
    (P := fun s' => (s'.tree? (.ofString "/a.py")).map s'.entries =
      some ["a", "b", "c", "d", "e", "d", "f", "g", "j", "k", "n", "o", "p"]) (by decide +kernel)
  obtain ⟨tree, held, entries⟩ := Option.map_eq_some_iff.mp found
  exact ⟨s, s', answer, tree, session, finished, held, entries, fun e inside =>
    session.typeMap_covers finished held inside⟩

/-- A function with a return annotation. It assigns to a target with a star what is found under an index
that is a slice. -/
def corners : FileSystem := (MemoryTree.file {} "a.py" "def f()->x:*a=1[:]").fileSystem

/-- The annotation, the target and the index, and what the index is for. -/
def Module.corners? (m : Module) : Option (List Expr × Expr) :=
  match m.body with
  | [.function d] =>
    match d.returns, d.body with
    | some hint, [.assign _ [target] (.subscript _ object index)] =>
      some ([hint, target, index], object)
    | _, _ => none
  | _ => none

theorem Module.mem_nodes_corners {m : Module} (found : m.corners? = some (es, object)) :
    ∀ e ∈ object :: es, .expr e ∈ m.nodes := by
  have top : ∀ t ∈ m.body, .stmt t ∈ m.nodes := fun t => mem_nodes_of_mem_body
  unfold corners? at found
  split at found
  · next d body =>
    rw [body] at top
    have function := top _ List.mem_cons_self
    split at found
    · next returns inner =>
      cases found
      have below : ∀ t ∈ d.body, .stmt t ∈ m.nodes := fun t member =>
        mem_nodes_of_mem_all function (Stmt.mem_all_of_mem_stmts member)
      rw [inner] at below
      have assign := below _ List.mem_cons_self
      have subscript := mem_nodes_of_mem_exprs assign List.mem_cons_self
      simp only [List.forall_mem_cons]
      refine ⟨?_, ?_, ?_, ?_, List.forall_mem_nil _⟩
      · exact mem_nodes_of_mem_parts subscript List.mem_cons_self
      · exact mem_nodes_of_mem_exprs function (by simp [Stmt.exprs, returns])
      · exact mem_nodes_of_mem_exprs assign (List.mem_cons_of_mem _ List.mem_cons_self)
      · exact mem_nodes_of_mem_parts subscript (by simp [Expr.parts])
    · cases found
  · cases found

/-- Neither the annotation nor the target nor the index has an entry. -/
theorem corners_uncovered : ∃ s s' answer tree es object, Session s ∧
    (Call.finish.run (Walker.of corners {})).run s = .ok (answer, s') ∧
    s'.tree? (.ofString "/a.py") = some tree ∧ tree.corners? = some (es, object) ∧
    es.length = 3 ∧ ∀ e ∈ es, .expr e ∈ tree.nodes ∧ s'.typeMap.get? e.id = none := by
  obtain ⟨s, s', answer, session, finished, found⟩ := Session.exists_whole corners
    (P := fun s' => ((s'.tree? (.ofString "/a.py")).bind Module.corners?).map
      (·.1.map fun e => s'.typeMap.get? e.id) = some [none, none, none]) (by decide +kernel)
  obtain ⟨⟨es, object⟩, found, types⟩ := Option.map_eq_some_iff.mp found
  obtain ⟨tree, held, found⟩ := Option.bind_eq_some_iff.mp found
  have number : es.length = 3 := by simpa using congrArg List.length types
  refine ⟨s, s', answer, tree, es, object, session, finished, held, found, number, ?_⟩
  intro e member
  constructor
  · exact Module.mem_nodes_corners found e (List.mem_cons_of_mem _ member)
  · have type := List.mem_map_of_mem (f := fun e => s'.typeMap.get? e.id) member
    rw [types] at type
    simpa using type

end FlowTypes
