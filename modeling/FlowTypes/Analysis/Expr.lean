import FlowTypes.Analysis.Call
import FlowTypes.Analysis.Operation
import FlowTypes.Analysis.Target

/-! Types of expressions. -/
namespace FlowTypes.Analysis

def numberType : NumberKind → TypeId
  | .int | .long => .int
  | .float => .float
  | .imaginary => .complex

def constantType : Constant → TypeId
  | .true => .true
  | .false => .false
  | .none => .none
  | .ellipsis => .unknown

/-- The string literals among expressions. -/
def stringValues (elements : List Expr) : List String :=
  elements.filterMap fun
    | .string _ value => some value
    | _ => none

/-- The number that a literal index stands for. -/
def literalIndex? : Expr → Option Nat
  | .number _ .int text => Text.readWord text
  | _ => none

/-- The scope of a comprehension, one for each scope around it. -/
def comprehensionScope (node : NodeId) (scope : ScopeId) : Analysis ScopeId := modifyGet fun s =>
  match s.blocks.get? (node, scope) with
  | some inner => (inner, s)
  | none =>
    let (inner, scopes) := s.scopes.alloc .plain (some scope) (s.scopes.get scope).path
    (inner, { s with heap.scopes := scopes, blocks := s.blocks.insert (node, scope) inner })

end FlowTypes.Analysis

namespace FlowTypes.Walker

open Analysis

variable (w : Walker)

/-- The types of an entry. One without a key stands for the entries of another dict. -/
def entry (scope : ScopeId) (e : Option Expr × Expr) : Analysis (Option (TypeId × TypeId)) := do
  let mapped ← w.expr scope e.2
  match e.1 with
  | some key => return some (← w.expr scope key, mapped)
  | none =>
    match ← typeOf mapped with
    | .dict d => return some (d.key, d.value)
    | _ => return none

def dict (scope : ScopeId) (entries : List (Option Expr × Expr)) : Analysis TypeId := do
  let pairs := (← entries.mapM (w.entry scope)).filterMap id
  let key ← unionAll (pairs.map (·.1))
  let value ← unionAll (pairs.map (·.2))
  newDict key value

/-- Walks a clause of a comprehension. -/
def clause (scope : ScopeId) (span : Span) (c : Clause Expr) : Analysis Unit := do
  let element ← w.element (← w.expr scope c.iter) span
  w.assign scope c.target element
  c.conditions.forM fun condition => discard (w.expr scope condition)

def comprehension (scope : ScopeId) (node : Node) (kind : ComprehensionKind) (element : Expr)
    (value : Option Expr) (clauses : List (Clause Expr)) : Analysis TypeId := do
  let inner ← comprehensionScope node.id scope
  clauses.forM (w.clause inner node.span)
  let element ← w.expr inner element
  match kind with
  | .list | .generator => newListOf element
  | .set => return (← get).builtins.setInstance
  | .dict =>
    match value with
    | some value => newDict element (← w.expr inner value)
    | none => newDict element .unknown

/-- The type of an attribute on every alternative that has it. -/
def memberOf (object : TypeId) (name : String) (node : NodeRef) : Analysis (Option TypeId) := do
  (← alternatives object).foldlM (fun (acc : Option TypeId) alternative => do
    if (← get).types.isUnknown alternative then return some (← unionOpt acc .unknown)
    else
      match ← attribute? alternative name with
      | some (bindings, value) =>
        addRefs bindings node
        return some (← unionOpt acc value)
      | none => return acc) none

def member (scope : ScopeId) (e object : Expr) (name : String) (nameSpan : Span) :
    Analysis TypeId := do
  let object ← w.expr scope object
  match ← memberOf object name ⟨e.id, e.text, e.span⟩ with
  | some type => return type
  | none =>
    report .info nameSpan s!"attribute `{name}` not found on {← display object}"
    return .unknown

/-- A part of a sequence is a sequence of the same type. -/
def sliceOf (id : TypeId) : Analysis TypeId := do
  match ← typeOf id with
  | .list _ | .tuple _ | .str => return id
  | _ => return .unknown

/-- The item of one alternative under an index. -/
def itemOf (index : TypeId) (literal : Option Nat) (span : Span) (id : TypeId) :
    Analysis TypeId := do
  match ← typeOf id with
  | .list d => return d.element
  | .tuple d =>
    match literal.bind fun i => d.elements[i]? with
    | some element => return element
    | none => unionAll d.elements
  | .dict d => return d.value
  | .str => return .str
  | .instanceOf _ => w.resultOf id "__getitem__" (.of [index]) span
  | _ => return .unknown

def subscript (scope : ScopeId) (node : Node) (object i : Expr) : Analysis TypeId := do
  let object ← w.expr scope object
  let index ← w.index scope i
  match i with
  | .slice _ _ _ _ => unionOver (← alternatives object) sliceOf
  | _ => unionOver (← alternatives object) (w.itemOf index (literalIndex? i) node.span)

/-- The type of an expression that may be left out. -/
def valueOf (scope : ScopeId) : Option Expr → Analysis TypeId
  | some value => w.expr scope value
  | none => return .none

/-- What an expression yields of its value. -/
def yielded (value : TypeId) (isFrom : Bool) (span : Span) : Analysis TypeId :=
  if isFrom then w.element value span else return value

def yieldExpr (scope : ScopeId) (node : Node) (value : Option Expr) (isFrom : Bool) :
    Analysis TypeId := do
  let value ← w.valueOf scope value
  yieldValue (← w.yielded value isFrom node.span)
  return .unknown

def infer (scope : ScopeId) (e : Expr) : Analysis TypeId := do
  match e with
  | .number _ kind _ => return numberType kind
  | .string _ _ => return .str
  | .constant _ value => return constantType value
  | .name n name => readName scope name ⟨n.id, name, n.span⟩
  | .list _ elements =>
    let types ← elements.mapM (w.expr scope)
    newList (← unionAll types) types (stringValues elements)
  | .tuple _ elements => newTuple (← elements.mapM (w.expr scope))
  | .set _ elements =>
    elements.forM fun e => discard (w.expr scope e)
    return (← get).builtins.setInstance
  | .dict _ entries => w.dict scope entries
  | .comprehension n kind element value clauses =>
    w.comprehension scope n kind element value clauses
  | .member _ object name nameSpan => w.member scope e object name nameSpan
  | .subscript n object index => w.subscript scope n object index
  | .slice _ lower upper step =>
    w.slice scope [lower, upper, step]
    return .unknown
  | .call n callee arguments => w.callExpr scope n callee arguments
  | .unary n op operand => w.unary op (← w.expr scope operand) n.span
  | .binary n op left right =>
    let left ← w.expr scope left
    let right ← w.expr scope right
    w.binary left op right n.span
  | .conditional _ condition body otherwise =>
    discard (w.expr scope condition)
    let body ← w.expr scope body
    let otherwise ← w.expr scope otherwise
    union body otherwise
  | .lambda n parameters body => w.lambda scope n parameters body
  | .yield n value isFrom => w.yieldExpr scope n value isFrom
  | .await _ value | .starred _ value => w.expr scope value

def exprStep (scope : ScopeId) (e : Expr) : Analysis TypeId := do
  let type ← w.infer scope e
  recordType e.id type
  return type

end FlowTypes.Walker
