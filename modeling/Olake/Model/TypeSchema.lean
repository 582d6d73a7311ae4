/-
The types of columns and the tree they are cast along (types/data_types.go and
types/type_schema.go).

Each type of the tree has a weight, and the tree is searched by these.  A type that has no
weight (null, an object, an array, an unknown one) has nothing in common with another but the
root.
-/
import Olake.Lib.SearchTree
import Olake.Model.Filter

namespace Olake.Typeutils

export SearchTree (Tree)

def TypeWeights : DataType → Option Nat
  | .bool => some 0
  | .int32 => some 1
  | .int64 => some 2
  | .float64 => some 3
  | .float32 => some 4
  | .string => some 5
  | .timestampNano => some 9
  | .timestampMicro => some 8
  | .timestampMilli => some 7
  | .timestamp => some 6
  | _ => none

def typecastTree : Tree DataType :=
  .node .string
    (.node .float64
      (.node .int64
        (.node .int32
          (.node .bool .nil .nil)
          .nil)
        .nil)
      (.node .float32 .nil .nil))
    (.node .timestampNano
      (.node .timestampMicro
        (.node .timestampMilli
          (.node .timestamp .nil .nil)
          .nil)
        .nil)
      .nil)

/-- `lowestCommonAncestor`: the loop goes down the tree. -/
def lowestCommonAncestor : Tree DataType → DataType → DataType → DataType
  | .nil, _, _ => .unknown
  | .node t left right, t1, t2 =>
    match TypeWeights t, TypeWeights t1, TypeWeights t2 with
    | none, _, _ => .unknown
    | some rootW, some wt1, some wt2 =>
      if rootW < wt1 ∧ rootW < wt2 then lowestCommonAncestor right t1 t2
      else if wt1 < rootW ∧ wt2 < rootW then lowestCommonAncestor left t1 t2
      else t
    | some _, _, _ => t

def GetCommonAncestorType (t1 t2 : DataType) : DataType := lowestCommonAncestor typecastTree t1 t2

def DataType.toIceberg : DataType → String
  | .bool => "boolean"
  | .int32 => "int"
  | .int64 => "long"
  | .float32 => "float"
  | .float64 => "double"
  | .timestamp | .timestampMilli | .timestampMicro | .timestampNano => "timestamptz"
  | _ => "string"

end Olake.Typeutils
