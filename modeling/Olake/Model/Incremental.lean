/-
The incremental sync of a stream (drivers/abstract/incremental.go).

A process reads the rows beyond the stored cursors, commits them together with a
metadata state that holds the largest cursors read and the ID of the thread that
read them, and then stores these cursors.  The thread ID is made of the cursors the
read started from.  A process that finds its own thread ID in the metadata knows
that the cursors were committed but not stored: it takes them over and reads
nothing.

What a cursor value becomes on its way through `FormatCursorValue`, the state file
and the typing on the way back is part of the column's type, since it differs
between integers, strings and timestamps.  The row filter of the stream is left out.
-/
import Olake.Model.Backfill
import Olake.Model.Jdbc

namespace Olake.Incremental

open Sql Utf8

variable {V : Type}

/-! ### Cursor columns -/

/-- What the driver does with the values of a cursor column. -/
structure CursorColumn (V : Type) where
  /-- `typeutils.Compare` of two values that are not nil. -/
  compare : V → V → Ordering
  /-- `FormatCursorValue`, read back with `ReformatCursorValue`. -/
  format : V → V
  /-- A formatted value that went through JSON and `ReformatCursorValue`. -/
  json : V → V
  /-- The `%v` form. -/
  print : V → Bytes

def int64Column : CursorColumn Int where
  compare a b := Ord.compare a b
  format n := n
  json n :=
    match ReformatValue .int64 (Value.int64 (.ofInt n)).reload with
    | some (.int64 m) => m.toInt
    | _ => n
  print := printInt

/-- A column of timestamps, in nanoseconds.  The state holds their text, with nine
digits after the second, or six for DB2, which JSON does not change.  The printed
time is taken to be the number of nanoseconds. -/
def timestampColumn (driver : Jdbc.DriverType) : CursorColumn Int where
  compare a b := Ord.compare a b
  format t := if driver = .db2 then t - t % 1000 else t
  json t := t
  print := printInt

/-! ### Rows and cursors -/

inductive Field where
  | primary
  | secondary

structure Row (V : Type) where
  key : Nat
  primary : Option V
  secondary : Option V
deriving DecidableEq

def Row.column (r : Row V) : Field → Option V
  | .primary => r.primary
  | .secondary => r.secondary

structure Cursors (V : Type) where
  primary : Option V
  secondary : Option V
deriving DecidableEq

def Cursors.column (c : Cursors V) : Field → Option V
  | .primary => c.primary
  | .secondary => c.secondary

/-- The stream: its cursor columns, what the query builder knows of them, and the
database it is read from. -/
structure Stream (V : Type) where
  primary : CursorColumn V
  /-- `none`: the cursor field names one column. -/
  secondary : Option (CursorColumn V)
  driver : Jdbc.DriverType
  columnType : Field → Jdbc.ColumnType V
  db : Jdbc.Database V
  ulid : Bytes
  streamID : Bytes

namespace Stream

variable (S : Stream V)

/-- The stream as the query builder sees it. -/
def jdbc : Jdbc.Stream Field V where
  primaryCursor := .primary
  secondaryCursor := S.secondary.map fun _ => .secondary
  column f := some (S.columnType f)

def mapCursors (f : CursorColumn V → V → V) (c : Cursors V) : Cursors V where
  primary := c.primary.map (f S.primary)
  secondary :=
    match S.secondary with
    | some K => c.secondary.map (f K)
    | none => c.secondary

/-- `Compare(data, max) == 1` picks the data, anything else the maximum so far. -/
def pickMax (K : CursorColumn V) : Option V → Option V → Option V
  | none, largest => largest
  | some a, none => some a
  | some a, some b => if K.compare a b = .gt then some a else some b

/-- `getMaxIncrementCursorFromData`; without a secondary cursor that value is nil. -/
def getMaxIncrementCursorFromData (largest : Cursors V) (r : Row V) : Cursors V where
  primary := pickMax S.primary r.primary largest.primary
  secondary :=
    match S.secondary with
    | some K => pickMax K r.secondary largest.secondary
    | none => none

def printCursor (K : CursorColumn V) : Option V → Bytes
  | none => ascii "<nil>"
  | some v => K.print v

/-- The thread ID, from `%v_%v` of the cursors. -/
def threadID (c : Cursors V) : Bytes :=
  generateThreadID S.ulid S.streamID
    (printCursor S.primary c.primary ++ ascii "_" ++
      match S.secondary with
      | some K => printCursor K c.secondary
      | none => ascii "<nil>")

/-- `prevPrimaryCursor != nil && (secondaryCursor == "" || prevSecondaryCursor != nil)`. -/
def hasCursors (c : Cursors V) : Bool :=
  c.primary.isSome && (S.secondary.isNone || c.secondary.isSome)

end Stream

/-! ### The sync -/

/-- The source table, the stored cursors, the metadata state at the destination (the
thread ID and the cursors of the last commit), and the rows committed there.
`committed` are the cursors of the last commit, of the backfill or of an incremental
read, as they were in the process. -/
structure World (V : Type) where
  table : List (Row V)
  backfilled : Bool
  stored : Cursors V
  metadata : Option (Bytes × Cursors V)
  dest : List (Row V)
  committed : Cursors V
deriving DecidableEq

/-- How far the two `SetCursor` calls came. -/
inductive Saved where
  | nothing
  | primary
  | both

/-- What the outside does to one attempt. -/
structure Env where
  /-- A new process, which loads the state; otherwise a retry in the old one. -/
  newProcess : Bool
  /-- The process ends before its backfill has finished. -/
  backfillFails : Bool
  /-- The read fails, or the process dies in it. -/
  readFails : Bool
  outcome : CloseOutcome
  /-- Less than both: the context was done by then, or the process died. -/
  saved : Saved

/-- An attempt that nothing disturbs, in a process of its own. -/
def Env.undisturbed : Env where
  newProcess := true
  backfillFails := false
  readFails := false
  outcome := .committed
  saved := .both

inductive Action (V : Type) where
  /-- New rows at the source. -/
  | append (rows : List (Row V))
  | sync (env : Env)

section Steps

variable [LinearOrder V] (S : Stream V) (records : Bool)

/-- `SELECT MAX(..)`. -/
def sqlMax (values : List (Option V)) : Option V :=
  values.foldl
    (fun m v =>
      match m, v with
      | none, v => v
      | some a, none => some a
      | some a, some b => some (max a b)) none

/-- `GetMaxCursorValues`. -/
def maxCursors (table : List (Row V)) : Cursors V where
  primary := sqlMax (table.map Row.primary)
  secondary := if S.secondary.isSome then sqlMax (table.map Row.secondary) else none

/-- The backfill: the cursors are captured, and the rows up to them are read.
`none`: the filter cannot be built. -/
def backfill (w : World V) : Option (World V) :=
  let captured := maxCursors S w.table
  let stored := S.mapCursors CursorColumn.format captured
  (Jdbc.ThresholdFilter S.driver S.jdbc stored.column).map fun (filter, args) =>
    { w with
      backfilled := true
      stored := stored
      dest := w.dest ++ w.table.filter fun r => Holds S.db.wrap args r.column filter
      committed := captured }

/-- The deferred `SetCursor` calls. -/
def saveCursors (saved : Saved) (c : Cursors V) (w : World V) : World V :=
  match saved with
  | .nothing => w
  | .primary => { w with stored := { w.stored with primary := c.primary } }
  | .both =>
    { w with
      stored := if S.secondary.isSome then c else { w.stored with primary := c.primary } }

/-- `handleWriterCleanup` and what follows: the rows are committed with the metadata
state if there are any, and a close without an error lets the cursors be stored. -/
def closeWriter (env : Env) (id : Bytes) (rows : List (Row V)) (largest : Cursors V)
    (w : World V) : World V :=
  let formatted := S.mapCursors CursorColumn.format largest
  let w' :=
    if env.outcome.durable ∧ rows ≠ [] then
      { w with
        dest := w.dest ++ rows
        metadata := if records then some (toValid id, formatted) else w.metadata
        committed := largest }
    else w
  if env.outcome = .committed then saveCursors S env.saved formatted w' else w'

/-- The cursors of the metadata state, as the process reads them. -/
def adopted (m : Cursors V) : Cursors V := S.mapCursors CursorColumn.json m

def incremental (env : Env) (w : World V) : World V :=
  let id := S.threadID w.stored
  if w.metadata.map Prod.fst = some id then
    match w.metadata with
    | some (_, m) =>
      let m := adopted S m
      -- a nil cursor in the metadata state is taken for a changed cursor field
      if S.hasCursors m then
        if env.outcome = .committed then saveCursors S env.saved m w else w
      else w
    | none => w
  else if env.readFails then w
  else
    match Jdbc.BuildIncrementalQuery S.driver S.jdbc w.stored.column with
    | none => w
    | some (condition, args) =>
      let rows := w.table.filter fun r => Holds S.db.wrap args r.column condition
      closeWriter S records env id rows
        (rows.foldl S.getMaxIncrementCursorFromData w.stored) w

/-- One attempt: a new process loads the state, and backfills the stream first if
that has not been done or a stored cursor is nil. -/
def sync (env : Env) (w : World V) : World V :=
  if env.newProcess then
    let w := { w with stored := S.mapCursors CursorColumn.json w.stored }
    if w.backfilled && S.hasCursors w.stored then incremental S records env w
    else if env.backfillFails then w
    else
      match backfill S w with
      | some w' => incremental S records env w'
      | none => w
  else if w.backfilled then incremental S records env w
  else w

def step : Action V → World V → World V
  | .append rows, w => { w with table := w.table ++ rows }
  | .sync env, w => sync S records env w

end Steps

end Olake.Incremental
