/-
Conditions of a SQL query, in three-valued logic.

A condition compares columns with parameters; a comparison with NULL on either side
is unknown, and a row is selected only when the whole condition is true.  `Holds` is
that last notion.  It takes `AND` and `OR` to "and" and "or" (`holds_and`,
`holds_or`) although it does not take `NOT` to "not", which is why a condition and
its apparent negation need not select complementary rows.
-/
import Mathlib.Order.Lattice

namespace Sql

/-- A truth value; `none` is unknown. -/
abbrev Truth := Option Bool

def Truth.and : Truth → Truth → Truth
  | some true, t => t
  | some false, _ => some false
  | none, some false => some false
  | none, _ => none

def Truth.or : Truth → Truth → Truth
  | some false, t => t
  | some true, _ => some true
  | none, some true => some true
  | none, _ => none

theorem Truth.and_eq_true {s t : Truth} : s.and t = some true ↔ s = some true ∧ t = some true := by
  rcases s with _ | _ | _ <;> rcases t with _ | _ | _ <;> simp [Truth.and]

theorem Truth.or_eq_true {s t : Truth} : s.or t = some true ↔ s = some true ∨ t = some true := by
  rcases s with _ | _ | _ <;> rcases t with _ | _ | _ <;> simp [Truth.or]

inductive Comparison where
  | lt
  | le
  | eq
  | gt
  | ge

/-- A condition over columns `C`; a parameter is given by its position, counted from
1, and the SQL function `F` it is wrapped in. -/
inductive Cond (C F : Type) where
  | cmp (column : C) (op : Comparison) (wrap : F) (position : Nat)
  | isNull (column : C)
  | and (a b : Cond C F)
  | or (a b : Cond C F)

variable {C F V : Type} [LinearOrder V]

def Comparison.Rel : Comparison → V → V → Prop
  | .lt, a, b => a < b
  | .le, a, b => a ≤ b
  | .eq, a, b => a = b
  | .gt, a, b => b < a
  | .ge, a, b => b ≤ a

instance (op : Comparison) (a b : V) : Decidable (op.Rel a b) := by
  cases op <;> unfold Comparison.Rel <;> infer_instance

/-- NULL is not comparable. -/
def Comparison.eval (op : Comparison) : Option V → Option V → Truth
  | some a, some b => some (decide (op.Rel a b))
  | _, _ => none

/-- The parameter at a position; the wrapping function maps NULL to NULL. -/
def argument (wrap : F → V → V) (args : List (Option V)) (f : F) (position : Nat) : Option V :=
  ((args[position - 1]?).getD none).map (wrap f)

def Cond.eval (wrap : F → V → V) (args : List (Option V)) (row : C → Option V) :
    Cond C F → Truth
  | .cmp c op f i => op.eval (row c) (argument wrap args f i)
  | .isNull c => some (row c).isNone
  | .and a b => (a.eval wrap args row).and (b.eval wrap args row)
  | .or a b => (a.eval wrap args row).or (b.eval wrap args row)

abbrev Holds (wrap : F → V → V) (args : List (Option V)) (row : C → Option V) (c : Cond C F) : Prop :=
  c.eval wrap args row = some true

variable {wrap : F → V → V} {args : List (Option V)} {row : C → Option V}

theorem holds_and :
    Holds wrap args row (.and a b) ↔ Holds wrap args row a ∧ Holds wrap args row b :=
  Truth.and_eq_true

theorem holds_or : Holds wrap args row (.or a b) ↔ Holds wrap args row a ∨ Holds wrap args row b :=
  Truth.or_eq_true

theorem holds_isNull : Holds wrap args row (.isNull c : Cond C F) ↔ row c = none := by
  simp [Holds, Cond.eval]

theorem holds_cmp : Holds wrap args row (.cmp c op f i) ↔
    ∃ a b, row c = some a ∧ argument wrap args f i = some b ∧ op.Rel a b := by
  unfold Holds Cond.eval
  cases row c <;> cases argument wrap args f i <;> simp [Comparison.eval]

end Sql
