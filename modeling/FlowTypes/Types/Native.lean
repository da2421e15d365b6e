import FlowTypes.Ident

/-! What the functions do that the analysis knows by itself. -/
namespace FlowTypes

inductive NativeOp
  /-- Always gives the same type. -/
  | returns (type : TypeId)
  | firstArgument
  /-- What iterating over the first argument gives. -/
  | elementOfFirst
  | listOfFirst
  | tupleOfFirst
  | dictOfFirst
  | minMax
  | sum
  | range
  | enumerate
  | zip
  | round
  | getAttr
  | listAppend
  | listExtend
  | listInsert
  | listPop
  | dictKeys
  | dictValues
  | dictItems
  | dictGet
  | strSplit
deriving Repr, DecidableEq

end FlowTypes
