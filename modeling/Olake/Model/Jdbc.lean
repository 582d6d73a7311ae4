/-
The conditions the SQL drivers put on the cursor columns (pkg/jdbc/jdbc.go).

`ThresholdFilter` cuts the backfill of an incremental stream off at the cursor
values captured before it, `BuildIncrementalQuery` asks for the rows beyond the
stored values.  Both compare each cursor column with one parameter, which
`IncrementalValueFormatter` prepares for the drivers that need it.

Quoting of identifiers and the spelling of placeholders are left out; a placeholder
is its position in the argument list, which is also its place in the text for the
drivers that number none.
-/
import Olake.Lib.Sql

namespace Olake.Jdbc

open Sql

variable {C V : Type}

inductive DriverType where
  | mysql
  | postgres
  | oracle
  | db2
  | mssql
deriving DecidableEq, Repr

/-- `constants.DriversRequiringIncrementalFormatter`. -/
def DriverType.requiresFormatter : DriverType → Bool
  | .oracle => true
  | .db2 => true
  | .mssql => true
  | .mysql => false
  | .postgres => false

/-- How the parameter stands in the query: as it is, in `CAST(.. AS TIMESTAMP)`, or
in `TIMESTAMP_FORMAT(.., 'YYYY-MM-DD HH24:MI:SS.FF6')`. -/
inductive Wrap where
  | plain
  | castTimestamp
  | timestampFormat

/-- What the database makes of a wrapped parameter. -/
structure Database (V : Type) where
  cast : V → V
  parse : V → V

def Database.wrap (db : Database V) : Wrap → V → V
  | .plain => id
  | .castTimestamp => db.cast
  | .timestampFormat => db.parse

/-- The answer to the query for a column's type. -/
structure DbDatatype where
  /-- It contains "TIME ZONE". -/
  timeZone : Bool
  /-- It contains "TIMESTAMP". -/
  timestamp : Bool

/-- What is known of a cursor column. -/
structure ColumnType (V : Type) where
  /-- Its type in the schema is a timestamp. -/
  isTimestamp : Bool
  /-- `none`: the query failed. -/
  dbDatatype : Option DbDatatype
  /-- `ReformatValue` to the type in the schema. -/
  reformat : V → Option V
  /-- `Format("2006-01-02 15:04:05.000000")`; `none`: not a timestamp. -/
  format : V → Option V

structure Stream (C V : Type) where
  primaryCursor : C
  secondaryCursor : Option C
  /-- `none`: the schema has no such column. -/
  column : C → Option (ColumnType V)

section Builders

variable (driver : DriverType) (stream : Stream C V)

/-- `IncrementalValueFormatter`: the condition and its argument. -/
def IncrementalValueFormatter (cursorField : C) (position : Nat) (isBackfill : Bool)
    (lastCursorValue : Option V) : Option (Cond C Wrap × Option V) :=
  let op := if isBackfill then Comparison.le else .gt
  (stream.column cursorField).bind fun column =>
    match lastCursorValue with
    | none => some (.cmp cursorField op .plain position, none)
    | some v =>
      (column.reformat v).bind fun formatted =>
        match driver with
        | .oracle =>
          column.dbDatatype.map fun dbDatatype =>
            if column.isTimestamp ∧ ¬ dbDatatype.timeZone then
              (.cmp cursorField op .castTimestamp position, some formatted)
            else (.cmp cursorField op .plain position, some formatted)
        | .db2 =>
          column.dbDatatype.bind fun dbDatatype =>
            if column.isTimestamp ∧ dbDatatype.timestamp then
              (column.format formatted).map fun text =>
                (.cmp cursorField op .timestampFormat position, some text)
            else some (.cmp cursorField op .plain position, some formatted)
        | .mysql | .postgres | .mssql => some (.cmp cursorField op .plain position, some formatted)

/-- `createThresholdCondition` and `buildCursorCondition`, which differ in the
operator. -/
def cursorCondition (isBackfill : Bool) (position : Nat) (cursorField : C)
    (cursorValue : Option V) : Option (Cond C Wrap × Option V) :=
  if driver.requiresFormatter then
    IncrementalValueFormatter driver stream cursorField position isBackfill cursorValue
  else
    some (.cmp cursorField (if isBackfill then .le else .gt) .plain position, cursorValue)

variable (state : C → Option V)

/-- `ThresholdFilter` of a stream in incremental mode. -/
def ThresholdFilter : Option (Cond C Wrap × List (Option V)) :=
  (cursorCondition driver stream true 1 stream.primaryCursor (state stream.primaryCursor)).bind
    fun (condition, argument) =>
      let thresholdFilter := Cond.or (.isNull stream.primaryCursor) condition
      match stream.secondaryCursor with
      | none => some (thresholdFilter, [argument])
      | some secondaryCursor =>
        (cursorCondition driver stream true 2 secondaryCursor (state secondaryCursor)).map
          fun (secondaryCondition, secondaryArgument) =>
            (.and thresholdFilter (.or (.isNull secondaryCursor) secondaryCondition),
              [argument, secondaryArgument])

/-- `BuildIncrementalQuery`: the condition after `WHERE`. -/
def BuildIncrementalQuery : Option (Cond C Wrap × List (Option V)) :=
  (cursorCondition driver stream false 1 stream.primaryCursor (state stream.primaryCursor)).bind
    fun (condition, argument) =>
      match stream.secondaryCursor with
      | none => some (condition, [argument])
      | some secondaryCursor =>
        match state secondaryCursor with
        | none => some (condition, [argument])
        | some v =>
          (cursorCondition driver stream false 2 secondaryCursor (some v)).map
            fun (secondaryCondition, secondaryArgument) =>
              (.or condition (.and (.isNull stream.primaryCursor) secondaryCondition),
                [argument, secondaryArgument])

end Builders

end Olake.Jdbc
