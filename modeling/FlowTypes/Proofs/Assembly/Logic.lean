import FlowTypes.Grammar.Cursor
import FlowTypes.Proofs.Assembly.Nodes
import Mathlib.Logic.Relation

/-! How trees are put together. Reading shifts tokens, and reduces the nodes read last to a new one;
the identity of a node is the first that is free when it is made. -/
namespace FlowTypes

open Relation (ReflTransGen)

/-! ### Shifting and reducing -/

namespace Cursor

/-- The place behind the current token. -/
def shift (c : Cursor) : Cursor := { c with rest := c.rest.tail, previous := c.current }

/-- The place after an identity was given away. -/
def number (c : Cursor) : Cursor := { c with nextId := c.nextId + 1 }

end Cursor

/-- A step of reading, with the nodes that are not yet inside of another one. -/
inductive AssemblyStep : List TreeNode × Cursor → List TreeNode × Cursor → Prop
  | shift (stack : List TreeNode) (c : Cursor) : AssemblyStep (stack, c) (stack, c.shift)
  | reduce (stack : List TreeNode) {t : TreeNode} {c : Cursor} (own : t.node.id = c.nextId)
      (regular : t.Regular) : AssemblyStep (stack ++ t.parts, c) (stack ++ [t], c.number)
  /-- A node gives way to what is inside of it. -/
  | dissolve (stack : List TreeNode) (t : TreeNode) (c : Cursor) :
      AssemblyStep (stack ++ [t], c) (stack ++ t.parts, c)
  /-- Some nodes that were read are not part of any tree. -/
  | drop {stack stack' : List TreeNode} (c : Cursor) (fewer : stack'.Sublist stack) :
      AssemblyStep (stack, c) (stack', c)

abbrev Assembles : List TreeNode × Cursor → List TreeNode × Cursor → Prop :=
  ReflTransGen AssemblyStep

/-! ### What results are made of -/

/-- Results of readers and the outermost nodes in them, in the order of the source. -/
class Content (α : Type) where
  nodes : α → List TreeNode

open Content (nodes)

namespace Content

variable {α β : Type} [Content α] [Content β]

instance : Content Expr := ⟨fun e => [.expr e]⟩
instance : Content Stmt := ⟨fun s => [.stmt s]⟩
instance : Content (Parameter Expr) := ⟨fun p => [.parameter p]⟩
instance : Content (Handler Stmt) := ⟨fun h => [.handler h]⟩
instance : Content Alias := ⟨fun a => [.imported a]⟩
instance : Content (Argument Expr) := ⟨fun a => [.expr a.value]⟩
instance : Content (Clause Expr) := ⟨fun c => c.exprs.map .expr⟩
instance : Content WithItem := ⟨fun item => item.exprs.map .expr⟩
instance : Content Token := ⟨fun _ => []⟩
instance : Content String := ⟨fun _ => []⟩
instance : Content Nat := ⟨fun _ => []⟩
instance : Content Bool := ⟨fun _ => []⟩
instance : Content Unit := ⟨fun _ => []⟩
instance : Content (List α) := ⟨fun xs => xs.flatMap nodes⟩
instance : Content (Array α) := ⟨fun xs => xs.toList.flatMap nodes⟩
instance : Content (Option α) := ⟨fun x => x.toList.flatMap nodes⟩
instance : Content (α × β) := ⟨fun x => nodes x.1 ++ nodes x.2⟩

instance : Content (Parser.Round α β) :=
  ⟨fun | .again state => nodes state | .done result => nodes result⟩

@[simp] theorem nodes_expr (e : Expr) : nodes e = [.expr e] := rfl
@[simp] theorem nodes_stmt (s : Stmt) : nodes s = [.stmt s] := rfl
@[simp] theorem nodes_parameter : nodes p = [.parameter p] := rfl
@[simp] theorem nodes_handler : nodes h = [.handler h] := rfl
@[simp] theorem nodes_imported (a : Alias) : nodes a = [.imported a] := rfl
@[simp] theorem nodes_argument {a : Argument Expr} : nodes a = [.expr a.value] := rfl
@[simp] theorem nodes_clause {c : Clause Expr} : nodes c = c.exprs.map .expr := rfl
@[simp] theorem nodes_withItem {item : WithItem} : nodes item = item.exprs.map .expr := rfl
@[simp] theorem nodes_token (t : Token) : nodes t = [] := rfl
@[simp] theorem nodes_string (s : String) : nodes s = [] := rfl
@[simp] theorem nodes_nat (n : Nat) : nodes n = [] := rfl
@[simp] theorem nodes_bool (b : Bool) : nodes b = [] := rfl
@[simp] theorem nodes_unit (u : Unit) : nodes u = [] := rfl
@[simp] theorem nodes_list {xs : List α} : nodes xs = xs.flatMap nodes := rfl
@[simp] theorem nodes_array {xs : Array α} : nodes xs = xs.toList.flatMap nodes := rfl
@[simp] theorem nodes_option {x : Option α} : nodes x = x.toList.flatMap nodes := rfl
@[simp] theorem nodes_prod {x : α × β} : nodes x = nodes x.1 ++ nodes x.2 := rfl

@[simp] theorem flatMap_exprs {es : List Expr} : es.flatMap nodes = es.map .expr :=
  List.map_eq_flatMap.symm

@[simp] theorem flatMap_stmts {ss : List Stmt} : ss.flatMap nodes = ss.map .stmt :=
  List.map_eq_flatMap.symm

@[simp] theorem flatMap_parameters {ps : List (Parameter Expr)} :
    ps.flatMap nodes = ps.map .parameter :=
  List.map_eq_flatMap.symm

@[simp] theorem flatMap_handlers {hs : List (Handler Stmt)} : hs.flatMap nodes = hs.map .handler :=
  List.map_eq_flatMap.symm

@[simp] theorem flatMap_imported {names : List Alias} : names.flatMap nodes = names.map .imported :=
  List.map_eq_flatMap.symm

@[simp] theorem flatMap_arguments {arguments : List (Argument Expr)} :
    arguments.flatMap nodes = (arguments.map (·.value)).map .expr := by
  rw [List.map_map]
  exact List.map_eq_flatMap.symm

@[simp] theorem flatMap_clauses {clauses : List (Clause Expr)} :
    clauses.flatMap nodes = (clauses.flatMap (·.exprs)).map .expr :=
  List.map_flatMap.symm

@[simp] theorem flatMap_withItems {items : List WithItem} :
    items.flatMap nodes = (items.flatMap (·.exprs)).map .expr :=
  List.map_flatMap.symm

@[simp] theorem flatMap_entries {entries : List (Option Expr × Expr)} :
    entries.flatMap nodes = (entries.flatMap fun e => e.1.toList ++ [e.2]).map .expr := by
  rw [List.map_flatMap]
  congr
  funext e
  simp

@[simp] theorem nodes_again (a : α) : nodes (Parser.Round.again a : Parser.Round α β) = nodes a :=
  rfl

@[simp] theorem nodes_done (b : β) : nodes (Parser.Round.done b : Parser.Round α β) = nodes b :=
  rfl

/-- Results without nodes. -/
class Bare (α : Type) [Content α] : Prop where
  nodes_eq (a : α) : nodes a = []

instance : Bare Token := ⟨fun _ => rfl⟩
instance : Bare String := ⟨fun _ => rfl⟩
instance : Bare Nat := ⟨fun _ => rfl⟩
instance : Bare Bool := ⟨fun _ => rfl⟩
instance : Bare Unit := ⟨fun _ => rfl⟩
instance [Bare α] : Bare (List α) := ⟨fun _ => List.flatMap_eq_nil_iff.mpr fun a _ => Bare.nodes_eq a⟩
instance [Bare α] : Bare (Option α) :=
  ⟨fun _ => List.flatMap_eq_nil_iff.mpr fun a _ => Bare.nodes_eq a⟩

end Content

end FlowTypes
