/-
Lexicographic bounds written out as a SQL condition.

A condition compares columns with literals: an OR of groups, each an AND of atoms.
For a bound on several columns there is one group per column: the columns before it
are equal to their literals, and the column itself is beyond or below its own.  On a
row without NULLs such a condition is the lexicographic order of the row against the
list of the literals' values (`holds_upper`, `holds_lower`).
-/
import Mathlib.Data.List.Lex
import Olake.Lib.Sql

namespace Sql

open List Option

/-- A column, by its place in the row, against a literal. -/
structure Atom (L : Type) where
  column : Nat
  op : Comparison
  literal : L

variable {L V : Type} [LinearOrder V]

section Conditions

variable (value : Nat → L → V) (row : List (Option V))

/-- `value i l` is what column `i` is compared with for the literal `l`. -/
def Atom.eval (a : Atom L) : Truth := a.op.eval (row[a.column]?).join (some (value a.column a.literal))

def conjunction (atoms : List (Atom L)) : Truth :=
  atoms.foldr (fun a t => (a.eval value row).and t) (some true)

def disjunction (groups : List (List (Atom L))) : Truth :=
  groups.foldr (fun g t => (conjunction value row g).or t) (some false)

variable {value row}

theorem conjunction_eq_true :
    conjunction value row atoms = some true ↔ ∀ a ∈ atoms, a.eval value row = some true := by
  induction atoms with
  | nil => simp [conjunction]
  | cons a rest ih =>
    rw [forall_mem_cons, ← ih]
    exact Truth.and_eq_true

theorem disjunction_eq_true :
    disjunction value row groups = some true ↔ ∃ g ∈ groups, conjunction value row g = some true := by
  induction groups with
  | nil => simp [disjunction]
  | cons g rest ih =>
    rw [exists_mem_cons_iff, ← ih]
    exact Truth.or_eq_true

theorem eval_eq_true_of_some {a : Atom L} (h : row[a.column]? = some (some x)) :
    a.eval value row = some true ↔ a.op.Rel x (value a.column a.literal) := by
  simp [Atom.eval, h, Comparison.eval]

end Conditions

/-! ### Bounds -/

/-- The group of a bound for one column. -/
def boundGroup (op : Comparison) (values : List L) (column : Nat) : List (Atom L) :=
  (List.range column).filterMap (fun i => values[i]?.map (Atom.mk i .eq)) ++
    (values[column]?.map (Atom.mk column op)).toList

/-- What the literals stand for, column by column. -/
def readValues (value : Nat → L → V) (values : List L) : List V := values.mapIdx value

/-- The values that a row with `k` columns is compared with. -/
def boundKey (value : Nat → L → V) (k : Nat) (values : List L) : List V :=
  (readValues value values).take k

section Bounds

variable {value : Nat → L → V} {key : List V} {values : List L}

omit [LinearOrder V] in
theorem length_boundKey (h : k ≤ values.length) : (boundKey value k values).length = k := by
  simp [boundKey, readValues, h]

theorem holds_boundGroup (hlen : key.length ≤ values.length) (hcol : column < key.length) :
    conjunction value (key.map some) (boundGroup op values column) = some true ↔
      (∀ j, j < column → key[j]? = (boundKey value key.length values)[j]?) ∧
        ∃ a v, key[column]? = some a ∧ (boundKey value key.length values)[column]? = some v ∧ op.Rel a v := by
  have hread : ∀ j (hj : j < key.length),
      (boundKey value key.length values)[j]? = some (value j values[j]) := by
    intro j hj
    rw [boundKey, getElem?_take_of_lt hj, readValues, getElem?_mapIdx,
      getElem?_eq_getElem (hj.trans_le hlen), map_some]
  have hatom : ∀ (o : Comparison) (j : Nat) (hj : j < key.length),
      (Atom.mk j o values[j]).eval value (key.map some) = some true ↔ o.Rel key[j] (value j values[j]) := by
    intro o j hj
    exact eval_eq_true_of_some (by simp)
  rw [conjunction_eq_true, boundGroup]
  simp only [mem_append, mem_filterMap, mem_range, or_imp, forall_and]
  refine and_congr ?_ ?_
  · constructor
    · intro h j hj
      have hjk : j < key.length := hj.trans hcol
      have heq := (hatom .eq j hjk).1 (h _ ⟨j, hj, by simp⟩)
      rw [hread j hjk, getElem?_eq_getElem hjk]
      exact congrArg some heq
    · rintro h _ ⟨j, hj, hmap⟩
      have hjk : j < key.length := hj.trans hcol
      rw [getElem?_eq_getElem (hjk.trans_le hlen)] at hmap
      cases hmap
      refine (hatom .eq j hjk).2 ?_
      have heq := h j hj
      rw [hread j hjk, getElem?_eq_getElem hjk] at heq
      exact some.inj heq
  · rw [hread column hcol, getElem?_eq_getElem hcol, getElem?_eq_getElem (hcol.trans_le hlen)]
    simpa using hatom op column hcol

/-- The first place where two lists of one length differ. -/
theorem lt_iff_exists_getElem? {a b : List V} (h : a.length = b.length) :
    a < b ↔ ∃ i, i < a.length ∧ (∀ j, j < i → a[j]? = b[j]?) ∧
      ∃ x y, a[i]? = some x ∧ b[i]? = some y ∧ x < y := by
  rw [List.lt_iff_exists]
  constructor
  · rintro (⟨-, hlt⟩ | ⟨i, hi, hi', heq, hlt⟩)
    · omega
    · refine ⟨i, hi, fun j hj => ?_, a[i], b[i], by simp, by simp, hlt⟩
      rw [List.getElem?_eq_getElem (hj.trans hi), List.getElem?_eq_getElem (hj.trans hi')]
      exact congrArg some (heq j hj)
  · rintro ⟨i, hi, heq, x, y, hx, hy, hlt⟩
    obtain ⟨hi, rfl⟩ := List.getElem?_eq_some_iff.1 hx
    obtain ⟨hi', rfl⟩ := List.getElem?_eq_some_iff.1 hy
    refine .inr ⟨i, hi, hi', fun j hj => ?_, hlt⟩
    have hjj := heq j hj
    rw [List.getElem?_eq_getElem (hj.trans hi), List.getElem?_eq_getElem (hj.trans hi')] at hjj
    exact some.inj hjj

theorem holds_upper (hlen : key.length ≤ values.length) :
    disjunction value (key.map some) ((List.range key.length).map (boundGroup .lt values)) = some true ↔
      key < boundKey value key.length values := by
  rw [disjunction_eq_true, lt_iff_exists_getElem? (length_boundKey hlen).symm]
  simp only [List.mem_map, List.mem_range]
  constructor
  · rintro ⟨_, ⟨i, hi, rfl⟩, hgroup⟩
    exact ⟨i, hi, (holds_boundGroup hlen hi).1 hgroup⟩
  · rintro ⟨i, hi, hlt⟩
    exact ⟨_, ⟨i, hi, rfl⟩, (holds_boundGroup hlen hi).2 hlt⟩

/-- A lower bound on all columns, strict in every one. -/
theorem holds_beyond (hlen : key.length ≤ values.length)
    (h : disjunction value (key.map some) ((List.range key.length).map (boundGroup .gt values)) =
      some true) : boundKey value key.length values < key := by
  rw [lt_iff_exists_getElem? (length_boundKey hlen), length_boundKey hlen]
  obtain ⟨_, hgroup, htrue⟩ := disjunction_eq_true.1 h
  obtain ⟨i, hi, rfl⟩ := mem_map.1 hgroup
  rw [mem_range] at hi
  obtain ⟨heq, a, v, ha, hv, hlt⟩ := (holds_boundGroup hlen hi).1 htrue
  exact ⟨i, hi, fun j hj => (heq j hj).symm, v, a, hv, ha, hlt⟩

/-- A lower bound on all columns: strict in every column but the last. -/
theorem holds_lower (hlen : key.length ≤ values.length) (hpos : 0 < key.length) :
    disjunction value (key.map some) ((List.range key.length).map (fun column =>
        boundGroup (if column = key.length - 1 then .ge else .gt) values column)) = some true ↔
      boundKey value key.length values ≤ key := by
  have hlength : (boundKey value key.length values).length = key.length := length_boundKey hlen
  rw [disjunction_eq_true, le_iff_lt_or_eq, lt_iff_exists_getElem? hlength, hlength]
  simp only [List.mem_map, List.mem_range]
  constructor
  · rintro ⟨_, ⟨i, hi, rfl⟩, hgroup⟩
    obtain ⟨heq, a, v, ha, hv, hrel⟩ := (holds_boundGroup hlen hi).1 hgroup
    have heq' : ∀ j, j < i → (boundKey value key.length values)[j]? = key[j]? :=
      fun j hj => (heq j hj).symm
    by_cases hlast : i = key.length - 1
    · rw [if_pos hlast] at hrel
      rcases lt_or_eq_of_le (show v ≤ a from hrel) with hlt | rfl
      · exact .inl ⟨i, hi, heq', v, a, hv, ha, hlt⟩
      · refine .inr (ext_getElem? fun j => ?_)
        rcases Nat.lt_trichotomy j i with hj | rfl | hj
        · exact heq' j hj
        · rw [hv, ha]
        · rw [getElem?_eq_none (by omega), getElem?_eq_none (by omega)]
    · rw [if_neg hlast] at hrel
      exact .inl ⟨i, hi, heq', v, a, hv, ha, hrel⟩
  · rintro (⟨i, hi, heq, v, a, hv, ha, hlt⟩ | heq)
    · refine ⟨_, ⟨i, hi, rfl⟩, (holds_boundGroup hlen hi).2 ⟨fun j hj => (heq j hj).symm, a, v, ha, hv, ?_⟩⟩
      split
      · exact le_of_lt hlt
      · exact hlt
    · have hi : key.length - 1 < key.length := by omega
      refine ⟨_, ⟨key.length - 1, hi, rfl⟩,
        (holds_boundGroup hlen hi).2 ⟨fun j _ => by rw [heq], key[key.length - 1], key[key.length - 1],
          by simp, by simp [heq], ?_⟩⟩
      rw [if_pos rfl]
      exact le_refl _

end Bounds

end Sql
