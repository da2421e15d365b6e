import FlowTypes.Analysis.Session
import FlowTypes.Proofs.Watch.Parts

/-! Where a walk comes to. Coming to a place of the source, it goes on to other places; the bodies of
functions wait until the functions are applied. -/
namespace FlowTypes

/-- What a walk can have done. -/
inductive Site
  /-- A type was noted for a node. -/
  | noted (node : NodeId)
  /-- A definition was met. -/
  | met (d : Definition)
  /-- An expression was evaluated. -/
  | value (e : Expr)
  /-- Something was assigned to an expression. -/
  | target (e : Expr)
  /-- An expression was used as an index. -/
  | index (e : Expr)
  | stmt (s : Stmt)

def Clause.sites (c : Clause Expr) : List Site :=
  .value c.iter :: .target c.target :: c.conditions.map .value

def WithItem.sites (item : WithItem) : List Site :=
  .value item.context :: item.target.toList.map .target

/-- Where evaluating an expression leads to. -/
def Expr.sites : Expr → List Site
  | comprehension _ kind element value clauses =>
    clauses.flatMap (·.sites) ++ .value element :: match kind with
      | .dict => value.toList.map .value
      | _ => []
  | subscript _ object index => [.value object, .index index]
  | lambda _ parameters _ => (parameters.flatMap (·.exprs)).map .value
  | e => e.parts.map .value

/-- Where a statement leads to. -/
def Stmt.sites : Stmt → List Site
  | assign _ targets value => .value value :: targets.map .target
  | augment _ target _ value => [.value target, .value value, .target target]
  | declare _ target hint value => .value hint :: value.toList.map .value ++ [.target target]
  | function d => (d.decorators ++ d.parameters.flatMap (·.exprs)).map .value
  | forLoop _ target iter body otherwise _ =>
    .value iter :: .target target :: (body ++ otherwise).map .stmt
  | withBlock _ items body _ => items.flatMap (·.sites) ++ body.map .stmt
  | s => s.exprs.map .value ++ s.stmts.map .stmt

/-- Where applying a function leads to. -/
def Definition.sites : Definition → List Site
  | function d => d.body.map .stmt
  | lambda _ _ body => [.value body]

/-- Where the walk of a part of a compound statement leads to. -/
def Walker.Part.sites : Walker.Part → List Site
  | .plain body => body.map .stmt
  | .handler h => h.exception.toList.map .value ++ h.body.map .stmt

namespace Site

/-- What coming to a place leads to. -/
def parts : Site → List Site
  | noted _ | met _ => []
  | value e => (Phrase.expr e).definition?.toList.map met ++ e.sites ++ [noted e.id]
  | target (.name n _) => [noted n.id]
  | target (.tuple n es) | target (.list n es) => es.map target ++ [noted n.id]
  | target (.member n object _ _) => [value object, noted n.id]
  | target (.subscript n object i) => [value object, index i, noted n.id]
  | target (.starred _ e) => [target e]
  | target e => [value e]
  | index (.slice _ lower upper step) =>
    (lower.toList ++ (upper.toList ++ step.toList)).map value
  | index e => [value e]
  | stmt s => (Phrase.stmt s).definition?.toList.map met ++ s.sites

/-- To come to the place is to come to what it leads to, in the same scope. -/
def Plain : Site → Prop
  | noted _ | met _ | stmt (.classDef _) => False
  | _ => True

end Site

theorem Stmt.mem_sites_tryBlock {q : Site} {n : Node} :
    q ∈ (Walker.tryParts body handlers otherwise).flatMap (·.sites) ++ final.map .stmt ↔
      q ∈ (Stmt.tryBlock n body handlers otherwise final).sites := by
  have last : (if otherwise.isEmpty then [] else [Walker.Part.plain otherwise]).flatMap (·.sites) =
      otherwise.map Site.stmt := by
    cases otherwise <;> simp [Walker.Part.sites]
  rw [Walker.tryParts, List.flatMap_append, last]
  simp only [Stmt.sites, Stmt.exprs, Stmt.stmts, Walker.Part.sites, List.flatMap_cons,
    List.flatMap_map, List.map_append, List.map_flatMap, List.mem_append, List.mem_flatMap]
  constructor
  · rintro (((body | ⟨h, there, exception | body⟩) | otherwise) | final)
    · exact .inr (.inl body)
    · exact .inl ⟨h, there, exception⟩
    · exact .inr (.inr (.inl ⟨h, there, body⟩))
    · exact .inr (.inr (.inr (.inl otherwise)))
    · exact .inr (.inr (.inr (.inr final)))
  · rintro (⟨h, there, exception⟩ | body | ⟨h, there, body⟩ | otherwise | final)
    · exact .inl (.inl (.inr ⟨h, there, .inl exception⟩))
    · exact .inl (.inl (.inl body))
    · exact .inl (.inl (.inr ⟨h, there, .inr body⟩))
    · exact .inl (.inr otherwise)
    · exact .inr final

/-! ### Where a walk may come to -/

/-- The statements in the blocks of a statement, if it is not a definition. These are walked in the
scope of the statement. -/
def Stmt.blocks : Stmt → List Stmt
  | branch _ _ yes no => yes ++ no
  | whileLoop _ _ body otherwise | forLoop _ _ _ body otherwise _ => body ++ otherwise
  | tryBlock _ body handlers otherwise final =>
    body ++ (handlers.flatMap (·.body) ++ (otherwise ++ final))
  | withBlock _ _ body _ => body
  | _ => []

/-- The expressions and the statements that a walk may come to. -/
structure Setting where
  expr : Expr → Prop
  stmt : Stmt → Prop
  parts : ∀ {e q : Expr}, expr e → q ∈ e.parts → expr q
  exprs : ∀ {t : Stmt} {e : Expr}, stmt t → e ∈ t.exprs → expr e
  blocks : ∀ {t u : Stmt}, stmt t → u ∈ t.blocks → stmt u

namespace Setting

variable {D : Setting}

/-- The walk may come to the place. -/
def Allows (D : Setting) : Site → Prop
  | .noted _ => True
  | .met (.function d) => D.stmt (.function d)
  | .met (.lambda node parameters body) => D.expr (.lambda node parameters body)
  | .value e | .target e | .index e => D.expr e
  | .stmt t => D.stmt t

theorem allows_exprSites (has : ∀ x ∈ Expr.parts e, D.expr x) : ∀ q ∈ e.sites, D.Allows q := by
  cases e with
  | comprehension n kind element value clauses =>
    simp only [Expr.parts, Clause.exprs, List.forall_mem_cons, List.forall_mem_append,
      List.forall_mem_flatMap] at has
    simp only [Expr.sites, Clause.sites, List.forall_mem_cons, List.forall_mem_append,
      List.forall_mem_flatMap, List.forall_mem_map]
    obtain ⟨element, value, clauses⟩ := has
    refine ⟨fun c member => ?_, element, ?_⟩
    · obtain ⟨target, iter, conditions⟩ := clauses c member
      exact ⟨iter, target, conditions⟩
    · cases kind with
      | dict => exact List.forall_mem_map.mpr value
      | _ => exact List.forall_mem_nil _
  | subscript n object index =>
    obtain ⟨object, index⟩ := List.forall_mem_cons.mp has
    exact List.forall_mem_cons.mpr
      ⟨object, List.forall_mem_singleton.mpr (index _ List.mem_cons_self)⟩
  | lambda n parameters body =>
    exact List.forall_mem_map.mpr fun x member => has x (List.mem_cons_of_mem _ member)
  | _ => exact List.forall_mem_map.mpr has

theorem allows_stmtSites (plain : (Site.stmt t).Plain) (exprs : ∀ x ∈ t.exprs, D.expr x)
    (blocks : ∀ u ∈ t.blocks, D.stmt u) : ∀ q ∈ t.sites, D.Allows q := by
  cases t with
  | assign n targets value =>
    obtain ⟨value, targets⟩ := List.forall_mem_cons.mp exprs
    exact List.forall_mem_cons.mpr ⟨value, List.forall_mem_map.mpr targets⟩
  | augment n target op value =>
    simp only [Stmt.exprs, List.forall_mem_cons] at exprs
    simp only [Stmt.sites, List.forall_mem_cons]
    exact ⟨exprs.1, exprs.2.1, exprs.1, List.forall_mem_nil _⟩
  | declare n target hint value =>
    simp only [Stmt.exprs, List.forall_mem_cons] at exprs
    simp only [Stmt.sites, List.cons_append, List.forall_mem_cons, List.forall_mem_append,
      List.forall_mem_map]
    exact ⟨exprs.2.1, exprs.2.2, exprs.1, List.forall_mem_nil _⟩
  | function d =>
    simp only [Stmt.exprs, List.forall_mem_append] at exprs
    simp only [Stmt.sites, List.forall_mem_map, List.forall_mem_append]
    exact ⟨exprs.1, exprs.2.2⟩
  | forLoop n target iter body otherwise =>
    simp only [Stmt.exprs, List.forall_mem_cons] at exprs
    simp only [Stmt.sites, List.forall_mem_cons, List.forall_mem_map]
    exact ⟨exprs.2.1, exprs.1, blocks⟩
  | withBlock n items body =>
    simp only [Stmt.exprs, WithItem.exprs, List.forall_mem_flatMap, List.forall_mem_cons] at exprs
    simp only [Stmt.sites, WithItem.sites, List.forall_mem_append, List.forall_mem_flatMap,
      List.forall_mem_cons, List.forall_mem_map]
    exact ⟨exprs, blocks⟩
  | classDef => cases plain
  | _ =>
    exact List.forall_mem_append.mpr ⟨List.forall_mem_map.mpr exprs, List.forall_mem_map.mpr blocks⟩

/-- Where the walk may come to a place it may come to what the place leads to. -/
theorem Allows.parts (allows : D.Allows q) (plain : q.Plain) : ∀ r ∈ q.parts, D.Allows r := by
  have noted : ∀ {node : NodeId}, ∀ r ∈ [Site.noted node], D.Allows r :=
    List.forall_mem_singleton.mpr trivial
  cases q with
  | noted | met => cases plain
  | value e =>
    have sites := allows_exprSites fun x part => D.parts allows part
    refine List.forall_mem_append.mpr ⟨List.forall_mem_append.mpr ⟨?_, sites⟩, noted⟩
    cases e with
    | lambda => exact List.forall_mem_singleton.mpr allows
    | _ => exact List.forall_mem_nil _
  | target e =>
    have inside : ∀ x ∈ e.parts, D.expr x := fun x part => D.parts allows part
    cases e with
    | name => exact noted
    | tuple n es | list n es =>
      exact List.forall_mem_append.mpr ⟨List.forall_mem_map.mpr inside, noted⟩
    | member n object =>
      exact List.forall_mem_cons.mpr ⟨inside object List.mem_cons_self, noted⟩
    | subscript n object i =>
      obtain ⟨object, index⟩ := List.forall_mem_cons.mp inside
      exact List.forall_mem_cons.mpr
        ⟨object, List.forall_mem_cons.mpr ⟨index i List.mem_cons_self, noted⟩⟩
    | starred n e => exact List.forall_mem_singleton.mpr (inside e List.mem_cons_self)
    | _ => exact List.forall_mem_singleton.mpr allows
  | index e =>
    cases e with
    | slice => exact List.forall_mem_map.mpr fun x part => D.parts allows part
    | _ => exact List.forall_mem_singleton.mpr allows
  | stmt t =>
    have sites := allows_stmtSites plain (fun x part => D.exprs allows part)
      fun u inside => D.blocks allows inside
    refine List.forall_mem_append.mpr ⟨?_, sites⟩
    cases t with
    | function => exact List.forall_mem_singleton.mpr allows
    | _ => exact List.forall_mem_nil _

end Setting
end FlowTypes
