import FlowTypes.Types.Store

/-! Types as text. A type that is met again while it is being written appears as its number, and the
outer occurrence is then labelled with that number. -/
namespace FlowTypes

/-- The types being written around a place, with their numbers, innermost first. -/
abbrev Enclosing := List (TypeId × Nat)

/-- How many numbers have been given out, and which types have been referred to. -/
structure Labels where
  count : Nat := 0
  used : List TypeId := []

abbrev Printer := StateM Labels

/-- Writes a type that may contain itself. A label ends in `suffix`; without one there is none. -/
def Printer.labelled (enclosing : Enclosing) (id : TypeId) (opening closing : String)
    (suffix : Option String) (body : Enclosing → Printer String) : Printer String := do
  match enclosing.lookup id with
  | some number =>
    modify fun l => { l with used := id :: l.used }
    return s!"#{number}"
  | none =>
    let number := (← get).count + 1
    modify fun l => { l with count := number }
    let text ← body ((id, number) :: enclosing)
    let isUsed := (← get).used.contains id
    modify fun l => { l with used := l.used.filter (· ≠ id) }
    let label := match suffix with
      | some suffix => if isUsed then s!"=#{number}{suffix}" else ""
      | none => ""
    return opening ++ text ++ label ++ closing

/-- Keeps the first of equal texts. -/
def distinctTexts (texts : List String) : List String :=
  texts.foldl (fun kept t => if kept.contains t then kept else kept ++ [t]) []

namespace TypeStore

def instanceName (s : TypeStore) (d : InstanceType) : String :=
  match s.get d.classId with
  | .classType c => c.name
  | _ => "?"

/-- The text of a type with at most so many types around a place. -/
def printWithin (s : TypeStore) : Nat → Enclosing → TypeId → Printer String
  | 0, _, _ => return "?"
  | n + 1, enclosing, id =>
    match s.get id with
    | .unknown => return "?"
    | .none | .cont => return "None"
    | .bool _ => return "bool"
    | .int => return "int"
    | .float => return "float"
    | .complex => return "complex"
    | .str => return "str"
    | .dict _ => return "dict"
    | .classType d => return s!"<{d.name}>"
    | .instanceOf d => return s.instanceName d
    | .module d => return d.name
    | .list d =>
      Printer.labelled enclosing id "[" "]" none fun enclosing => printWithin s n enclosing d.element
    | .tuple d =>
      let (opening, closing) := if d.elements.length = 1 then ("", "") else ("(", ")")
      Printer.labelled enclosing id opening closing (some ":") fun enclosing => do
        let parts ← d.elements.mapM fun e => printWithin s n enclosing e
        return ", ".intercalate parts
    | .union types =>
      Printer.labelled enclosing id "\x7b" "\x7d" (some ":") fun enclosing => do
        let parts ← types.mapM fun t => printWithin s n enclosing t
        return " | ".intercalate parts
    | .function _ =>
      let origin := s.originOf id
      match ((s.function? origin).map (·.arrows)).getD [] with
      | [] => return "? -> ?"
      | arrows =>
        Printer.labelled enclosing origin "" "" (some ": ") fun enclosing => do
          let parts ← arrows.mapM fun arrow => do
            let arguments ← printWithin s n enclosing arrow.arguments
            let result ← printWithin s n enclosing arrow.result
            return s!"{arguments} -> {result}"
          return " | ".intercalate (distinctTexts parts)

/-- The text of a type. Types around a place are distinct, so the size of the store bounds them. -/
def display (s : TypeStore) (id : TypeId) : String :=
  (s.printWithin (s.size + 2) [] id |>.run {}).1

end TypeStore
end FlowTypes
