/-
Which rows the two cursor conditions select.

Both builders prepare the same parameter for a cursor column, so the two conditions
compare a row with the same values (`compared`).  In terms of these values the
threshold filter is a conjunction over both columns, while the incremental condition
looks at the secondary column only where the primary one is NULL.  They are never
both true of a row (`not_both`); neither is true of a row whose primary column is at
or below its value while its secondary one is beyond, and of a row that has to be
compared with a NULL.
-/
import Olake.Model.Jdbc

namespace Olake.Jdbc

open Sql Option

variable {C V : Type} {db : Database V} {driver : DriverType} {stream : Stream C V}
  {state row : C → Option V}

/-! ### The values compared with -/

/-- The parameter does not depend on the side of the cursor and on its position. -/
theorem cursorCondition_eq (driver : DriverType) (stream : Stream C V) (c : C) (v : Option V) :
    ∃ prepared : Option (Wrap × Option V), ∀ isBackfill position,
      cursorCondition driver stream isBackfill position c v =
        prepared.map fun p => (.cmp c (if isBackfill then .le else .gt) p.1 position, p.2) := by
  unfold cursorCondition IncrementalValueFormatter
  by_cases hformat : driver.requiresFormatter = true
  swap
  · exact ⟨some (.plain, v), fun _ _ => if_neg hformat⟩
  simp only [hformat, if_true]
  cases stream.column c with
  | none => exact ⟨none, fun _ _ => rfl⟩
  | some column =>
    cases v with
    | none => exact ⟨some (.plain, none), fun _ _ => rfl⟩
    | some v =>
      dsimp only [bind_some]
      cases column.reformat v with
      | none => exact ⟨none, fun _ _ => rfl⟩
      | some f =>
        cases driver with
        | mysql | postgres | mssql => exact ⟨some (.plain, some f), fun _ _ => rfl⟩
        | oracle | db2 =>
          cases column.dbDatatype with
          | none => exact ⟨none, fun _ _ => rfl⟩
          | some t =>
            simp only [bind_some, map_some]
            split
            · first
              | exact ⟨some (.castTimestamp, some f), fun _ _ => rfl⟩
              | exact ⟨(column.format f).map fun text => (.timestampFormat, some text),
                  fun _ _ => by rw [map_map]; rfl⟩
            · exact ⟨some (.plain, some f), fun _ _ => rfl⟩

/-- The value the database compares a cursor column with, given the stored one. -/
def compared (db : Database V) (driver : DriverType) (stream : Stream C V) (c : C)
    (v : Option V) : Option V :=
  match cursorCondition driver stream true 1 c v with
  | some (.cmp _ _ w _, argument) => argument.map (db.wrap w)
  | _ => none

/-- A comparison the builders made, and the value it is made with. -/
theorem cursorCondition_some (db : Database V) {argument : Option V}
    (h : cursorCondition driver stream isBackfill position c v = some (condition, argument)) :
    ∃ w, condition = .cmp c (if isBackfill then .le else .gt) w position ∧
      argument.map (db.wrap w) = compared db driver stream c v := by
  obtain ⟨prepared, heq⟩ := cursorCondition_eq driver stream c v
  rw [heq] at h
  cases prepared with
  | none => cases h
  | some p =>
    cases h
    simp [compared, heq]

theorem compared_none (db : Database V) (driver : DriverType) (stream : Stream C V) (c : C) :
    compared db driver stream c none = none := by
  cases driver <;> cases hcolumn : stream.column c <;>
    simp [compared, cursorCondition, IncrementalValueFormatter, DriverType.requiresFormatter, hcolumn]

/-- For a column of the schema, a comparison is built with a stored NULL, and with every
value that has one to compare with. -/
theorem cursorCondition_isSome (db : Database V)
    (h : stream.column c ≠ none ∧ (v = none ∨ compared db driver stream c v ≠ none))
    (isBackfill : Bool) (position : Nat) :
    ∃ p, cursorCondition driver stream isBackfill position c v = some p := by
  obtain ⟨prepared, heq⟩ := cursorCondition_eq driver stream c v
  cases prepared with
  | some p => exact ⟨_, heq isBackfill position⟩
  | none =>
    exfalso
    obtain ⟨hc, rfl | h⟩ := h
    · have h1 := heq true 1
      obtain ⟨column, hcolumn⟩ := ne_none_iff_exists'.1 hc
      cases driver <;> simp [cursorCondition, IncrementalValueFormatter,
        DriverType.requiresFormatter, hcolumn] at h1
    · exact h (by simp [compared, heq])

/-- The cursor columns are in the schema, and the stored cursors can be compared with. -/
def Comparable (db : Database V) (driver : DriverType) (stream : Stream C V)
    (state : C → Option V) : Prop :=
  ∀ c, stream.column c ≠ none ∧ (state c = none ∨ compared db driver stream c (state c) ≠ none)

theorem ThresholdFilter_isSome (h : Comparable db driver stream state) :
    ∃ filter args, ThresholdFilter driver stream state = some (filter, args) := by
  unfold ThresholdFilter
  obtain ⟨p, hp⟩ := cursorCondition_isSome db (h stream.primaryCursor) true 1
  rw [hp]
  cases stream.secondaryCursor with
  | none => exact ⟨_, _, rfl⟩
  | some c =>
    obtain ⟨q, hq⟩ := cursorCondition_isSome db (h c) true 2
    simp only [hq]
    exact ⟨_, _, rfl⟩

theorem BuildIncrementalQuery_isSome (h : Comparable db driver stream state) :
    ∃ condition args, BuildIncrementalQuery driver stream state = some (condition, args) := by
  unfold BuildIncrementalQuery
  obtain ⟨p, hp⟩ := cursorCondition_isSome db (h stream.primaryCursor) false 1
  rw [hp]
  cases stream.secondaryCursor with
  | none => exact ⟨_, _, rfl⟩
  | some c =>
    obtain ⟨q, hq⟩ := cursorCondition_isSome db (h c) false 2
    simp only
    cases hv : state c with
    | none => exact ⟨_, _, rfl⟩
    | some v =>
      rw [hv] at hq
      simp only [hq]
      exact ⟨_, _, rfl⟩

/-! ### The rows selected -/

section Rows

variable [LinearOrder V]

/-- Both values are there and the first is at most the second. -/
def Below (a b : Option V) : Prop := ∃ x y, a = some x ∧ b = some y ∧ x ≤ y

/-- Both values are there and the first is greater. -/
def Beyond (a b : Option V) : Prop := ∃ x y, a = some x ∧ b = some y ∧ y < x

variable {args : List (Option V)} {condition : Cond C Wrap}

/-- A comparison is made with the argument at its position. -/
theorem holds_cursorCondition {argument : Option V}
    (h : cursorCondition driver stream isBackfill position c v = some (condition, argument))
    (harg : args[position - 1]? = some argument) : Holds db.wrap args row condition ↔
      if isBackfill then Below (row c) (compared db driver stream c v)
      else Beyond (row c) (compared db driver stream c v) := by
  obtain ⟨w, rfl, hval⟩ := cursorCondition_some db h
  have harg' : Sql.argument db.wrap args w position = compared db driver stream c v := by
    rw [← hval]
    simp [Sql.argument, harg]
  rw [holds_cmp, harg']
  cases isBackfill with
  | true | false => rfl

/-- The value the primary cursor column is compared with. -/
def primaryValue (db : Database V) (driver : DriverType) (stream : Stream C V)
    (state : C → Option V) : Option V :=
  compared db driver stream stream.primaryCursor (state stream.primaryCursor)

theorem holds_threshold (h : ThresholdFilter driver stream state = some (filter, args)) :
    Holds db.wrap args row filter ↔
      (row stream.primaryCursor = none ∨
        Below (row stream.primaryCursor) (primaryValue db driver stream state)) ∧
      ∀ c, stream.secondaryCursor = some c →
        row c = none ∨ Below (row c) (compared db driver stream c (state c)) := by
  unfold ThresholdFilter at h
  rw [bind_eq_some_iff] at h
  obtain ⟨⟨condition, argument⟩, hprimary, h⟩ := h
  cases hs : stream.secondaryCursor with
  | none =>
    rw [hs] at h
    cases h
    rw [holds_or, holds_isNull, holds_cursorCondition hprimary rfl]
    simp [primaryValue]
  | some c =>
    rw [hs] at h
    simp only [map_eq_some_iff] at h
    obtain ⟨⟨condition', argument'⟩, hsecondary, h⟩ := h
    cases h
    rw [holds_and, holds_or, holds_or, holds_isNull, holds_isNull,
      holds_cursorCondition hprimary rfl, holds_cursorCondition hsecondary rfl]
    simp [primaryValue]

theorem holds_incremental (h : BuildIncrementalQuery driver stream state = some (condition, args)) :
    Holds db.wrap args row condition ↔
      Beyond (row stream.primaryCursor) (primaryValue db driver stream state) ∨
      ∃ c, stream.secondaryCursor = some c ∧ row stream.primaryCursor = none ∧
        Beyond (row c) (compared db driver stream c (state c)) := by
  unfold BuildIncrementalQuery at h
  rw [bind_eq_some_iff] at h
  obtain ⟨⟨primaryCondition, argument⟩, hprimary, h⟩ := h
  cases hs : stream.secondaryCursor with
  | none =>
    rw [hs] at h
    cases h
    rw [holds_cursorCondition hprimary rfl]
    simp [primaryValue]
  | some c =>
    rw [hs] at h
    dsimp only at h
    cases hv : state c with
    | none =>
      rw [hv] at h
      cases h
      rw [holds_cursorCondition hprimary rfl]
      simp [primaryValue, hv, compared_none, Beyond]
    | some v =>
      rw [hv] at h
      simp only [map_eq_some_iff] at h
      obtain ⟨⟨secondaryCondition, argument'⟩, hsecondary, h⟩ := h
      cases h
      rw [holds_or, holds_and, holds_isNull, holds_cursorCondition hprimary rfl,
        holds_cursorCondition hsecondary rfl]
      simp [primaryValue, hv]

/-! ### Exactly one -/

variable {a b : Option V}

theorem Below.ne_none (h : Below a b) : a ≠ none ∧ b ≠ none := by
  obtain ⟨x, y, rfl, rfl, -⟩ := h
  exact ⟨by simp, by simp⟩

theorem beyond_iff : Beyond a b ↔ a ≠ none ∧ b ≠ none ∧ ¬ Below a b := by
  cases a <;> cases b <;> simp [Below, Beyond]

/-- Each cursor column that has to be compared is compared with a value, and a row at
or below the primary value is not beyond the secondary one. -/
structure Decided (db : Database V) (driver : DriverType) (stream : Stream C V)
    (state row : C → Option V) : Prop where
  primary : row stream.primaryCursor ≠ none → primaryValue db driver stream state ≠ none
  secondary : ∀ c, stream.secondaryCursor = some c → row c ≠ none →
    ¬ Beyond (row stream.primaryCursor) (primaryValue db driver stream state) →
    compared db driver stream c (state c) ≠ none ∧
      (row stream.primaryCursor ≠ none → Below (row c) (compared db driver stream c (state c)))

theorem not_both (hfilter : ThresholdFilter driver stream state = some (filter, args))
    (hquery : BuildIncrementalQuery driver stream state = some (condition, args')) :
    ¬ (Holds db.wrap args row filter ∧ Holds db.wrap args' row condition) := by
  rw [holds_threshold hfilter, holds_incremental hquery]
  simp only [beyond_iff]
  grind

/-- A row satisfies exactly one of the two conditions built from the same stored
cursors if and only if its columns are decided. -/
theorem exactly_one_iff {filter condition : Cond C Wrap} {args args' : List (Option V)}
    (hfilter : ThresholdFilter driver stream state = some (filter, args))
    (hquery : BuildIncrementalQuery driver stream state = some (condition, args')) :
    Xor (Holds db.wrap args row filter) (Holds db.wrap args' row condition) ↔
      Decided db driver stream state row := by
  have hnot : ¬ (Holds db.wrap args row filter ∧ Holds db.wrap args' row condition) :=
    not_both hfilter hquery
  rw [holds_threshold hfilter, holds_incremental hquery] at hnot
  rw [holds_threshold hfilter, holds_incremental hquery]
  constructor
  · intro h
    refine ⟨?_, ?_⟩ <;> grind [Xor, beyond_iff, Below.ne_none]
  · rintro ⟨hprimary, hsecondary⟩
    -- without a secondary column the primary one decides alone
    cases hs : stream.secondaryCursor <;> grind [Xor, beyond_iff]

end Rows

/-! ### A stream with two cursor columns -/

def twoCursors : Stream String Nat where
  primaryCursor := "updated_at"
  secondaryCursor := some "version"
  column _ := some
    { isTimestamp := false
      dbDatatype := none
      reformat := some
      format := fun _ => none }

/-- Postgres wraps no parameter. -/
def postgres : Database Nat := { cast := id, parse := id }

def cursorRow (updatedAt version : Option Nat) (c : String) : Option Nat :=
  if c = "updated_at" then updatedAt else if c = "version" then version else none

/-- The two conditions of the stream at the stored cursors 5 and 5. -/
def conditions : Cond String Wrap × Cond String Wrap :=
  (.and (.or (.isNull "updated_at") (.cmp "updated_at" .le .plain 1))
      (.or (.isNull "version") (.cmp "version" .le .plain 2)),
    .or (.cmp "updated_at" .gt .plain 1)
      (.and (.isNull "updated_at") (.cmp "version" .gt .plain 2)))

theorem exactly_one_old_row :
    Xor (Holds postgres.wrap [some 5, some 5] (cursorRow (some 3) (some 4)) conditions.1)
        (Holds postgres.wrap [some 5, some 5] (cursorRow (some 3) (some 4)) conditions.2) ↔
      Decided postgres .postgres twoCursors (fun _ => some 5) (cursorRow (some 3) (some 4)) :=
  exactly_one_iff rfl rfl

/-- A row whose version has moved on since the cursors were captured, while its
primary cursor has not, is read by neither. -/
theorem row_read_by_neither :
    ThresholdFilter .postgres twoCursors (fun _ => some 5) =
        some (conditions.1, [some 5, some 5]) ∧
      BuildIncrementalQuery .postgres twoCursors (fun _ => some 5) =
        some (conditions.2, [some 5, some 5]) ∧
      ¬ Holds postgres.wrap [some 5, some 5] (cursorRow (some 3) (some 9)) conditions.1 ∧
      ¬ Holds postgres.wrap [some 5, some 5] (cursorRow (some 3) (some 9)) conditions.2 :=
  ⟨rfl, rfl, by decide, by decide⟩

end Olake.Jdbc
