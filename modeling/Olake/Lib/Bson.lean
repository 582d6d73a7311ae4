/-
Filters of a document store, with type-bracketed comparison.

A filter compares the value of a field with a constant.  An ordering operator only
matches values of the constant's own bracket (numbers with numbers, strings with
strings), so a value of another bracket is neither above nor at or below it.  A field
that is missing counts as null, and null is `none` here, on both sides.
-/
import Mathlib.Order.Lattice

namespace Bson

inductive Op where
  | eq
  | ne
  | gt
  | gte
  | lt
  | lte

inductive Query (F V : Type) where
  | cmp (field : F) (op : Op) (value : Option V)
  | or (a b : Query F V)
  | and (a b : Query F V)

variable {F V B : Type} [LinearOrder V] [DecidableEq B]

def Op.eval (bracket : V → B) : Op → Option V → Option V → Bool
  | .eq, a, v => a = v
  | .ne, a, v => a ≠ v
  | .gt, some a, some v => bracket a = bracket v ∧ v < a
  | .gte, some a, some v => bracket a = bracket v ∧ v ≤ a
  | .lt, some a, some v => bracket a = bracket v ∧ a < v
  | .lte, some a, some v => bracket a = bracket v ∧ a ≤ v
  | .gte, none, none => true
  | .lte, none, none => true
  | _, _, _ => false

def Query.eval (bracket : V → B) (doc : F → Option V) : Query F V → Bool
  | .cmp field op value => op.eval bracket (doc field) value
  | .or a b => a.eval bracket doc || b.eval bracket doc
  | .and a b => a.eval bracket doc && b.eval bracket doc

variable {bracket : V → B} {doc : F → Option V}

/-- `a` has the bracket of `v` and lies beyond it. -/
def Beyond (bracket : V → B) (a v : V) : Prop := bracket a = bracket v ∧ v < a

end Bson
