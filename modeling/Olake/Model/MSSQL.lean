/-
The SQL Server driver's CDC (drivers/mssql/internal/cdc.go).

Each stream has its own LSN (a hex string of fixed length, compared as the number
it writes): the cursor in the state file, the target of the last
pass in the driver's `lsnMap`, and the LSN of the last commit in the metadata of
its table.  A call of `StreamChanges` is about one stream only, though it runs with
a writer open for every stream of the sync.
-/
import Olake.Lib.Log
import Olake.Model.StreamChanges

namespace Olake.MSSQL

/-! ### The change tables -/

/-- A row of a change table, with its `__$operation` code. -/
structure ChangeRow (Row : Type) where
  operation : Nat
  row : Row
deriving DecidableEq, Repr

/-- What the change table of one stream holds for one `__$start_lsn`. -/
structure Change (Row : Type) where
  lsn : Nat
  rows : List (ChangeRow Row)
deriving DecidableEq, Repr

variable {S Row : Type}

/-- The rows a change is emitted as: the before-image of an update (operation 3) is
skipped. -/
def Change.emitted (c : Change Row) : List Row :=
  (c.rows.filter (fun r => r.operation != 3)).map ChangeRow.row

/-- The change tables, filled by the capture agent up to `maxLSN`. -/
structure ChangeTables (S Row : Type) where
  changes : S → List (Change Row)
  maxLSN : Nat
  increasing : ∀ s, Log.Increasing Change.lsn (changes s)
  captured : ∀ s, ∀ c ∈ changes s, c.lsn ≤ maxLSN

/-- The capture agent has gone on. -/
def ChangeTables.Grows (t t' : ChangeTables S Row) : Prop :=
  t.maxLSN ≤ t'.maxLSN ∧
    ∀ s, ∃ new, t'.changes s = t.changes s ++ new ∧ ∀ c ∈ new, t.maxLSN < c.lsn

/-! ### The driver's state -/

/-- The change tables, the cursors of the state file, and the field `lsnMap`. -/
structure World (S Row : Type) where
  tables : ChangeTables S Row
  cursor : S → Nat
  lsnMap : S → Option Nat

structure Input (streams : List S) where
  /-- `m.streams[streamIndex]`. -/
  stream : S
  mem_streams : stream ∈ streams
  /-- `currentMaxLSN` returns an error. -/
  maxLSNFails : Bool
  /-- The start LSNs that `prepareCaptureInstances` finds; `none` is an error. -/
  captureInstances : Option (List Nat)
  /-- How `fetchTableChangesInLSNRange` ends. -/
  fetch : Exit

abbrev System (S Row : Type) := Olake.System (World S Row) S Row Nat

abbrev Attempt (streams : List S) := Olake.Attempt streams (Input streams)

/-- `newestValidInstance`: the last instance of the list that starts at or before
`currentLSN`, with its index.  The code walks the list from its end. -/
def newestValidInstance : List Nat → Nat → Option (Nat × Nat)
  | [], _ => none
  | startLSN :: instances, currentLSN =>
    match newestValidInstance instances currentLSN with
    | some (i, l) => some (i + 1, l)
    | none => if startLSN ≤ currentLSN then some (0, startLSN) else none

/-- The target of a pass: the newest LSN, or the start of the next instance of the
list when that comes first. -/
def clampTarget (instances : List Nat) (captureIdx : Nat) (targetLSN : Nat) : Nat :=
  match instances[captureIdx + 1]? with
  | none => targetLSN
  | some startLSN => if startLSN < targetLSN then startLSN else targetLSN

/-- `advanceLSN`: the LSN after the given one. -/
def advanceLSN (lsn : Nat) : Nat := lsn + 1

/-- The changes that a capture instance has after `fromLSN` and up to `toLSN`.  It holds
the changes from its start on. -/
def changesInLSNRange (changes : List (Change Row)) (startLSN fromLSN toLSN : Nat) :
    List (Change Row) :=
  changes.filter fun c => startLSN ≤ c.lsn ∧ advanceLSN fromLSN ≤ c.lsn ∧ c.lsn ≤ toLSN

/-- `fetchTableChangesInLSNRange`: the rows of these changes. -/
def fetchTableChangesInLSNRange (changes : List (Change Row)) (startLSN fromLSN toLSN : Nat) :
    List Row :=
  (changesInLSNRange changes startLSN fromLSN toLSN).flatMap Change.emitted

/-- The part of `StreamChanges` behind the check of the metadata. -/
def streamForward [DecidableEq S] {streams : List S} (i : Input streams) (w : World S Row) :
    Streamed (World S Row) S Row Nat :=
  let failed (exit : Exit) : Streamed (World S Row) S Row Nat :=
    { world := w, pushed := [], final := fun _ => none, exit := exit }
  let lsnInState := w.cursor i.stream
  if i.maxLSNFails then failed .err
  else if w.tables.maxLSN ≤ lsnInState then
    -- no changes yet
    { world := w, pushed := [], final := fun _ => none, exit := .ok }
  else
    match i.captureInstances with
    | none => failed .err
    | some captureInstances =>
      match newestValidInstance captureInstances lsnInState with
      | none => failed .err
      | some (captureIdx, startLSN) =>
        if i.fetch ≠ .ok then failed i.fetch
        else
          let targetLSN := clampTarget captureInstances captureIdx w.tables.maxLSN
          { world := { w with lsnMap := Function.update w.lsnMap i.stream (some targetLSN) }
            pushed := (fetchTableChangesInLSNRange (w.tables.changes i.stream) startLSN
              lsnInState targetLSN).map (fun r => (i.stream, r))
            final := fun _ => some targetLSN
            exit := .ok }

def StreamChanges [DecidableEq S] {streams : List S} (i : Input streams) (w : World S Row)
    (metadataStates : S → Option Nat) : Streamed (World S Row) S Row Nat :=
  match metadataStates i.stream with
  | none => streamForward i w
  | some mtState =>
    if w.cursor i.stream < mtState then
      -- metadata ahead of state: genuine crash-recovery path
      { world := { w with lsnMap := Function.update w.lsnMap i.stream (some mtState) }
        pushed := [], final := fun _ => some mtState, exit := .ok }
    else streamForward i w

def PostCDC [DecidableEq S] {streams : List S} (i : Input streams) (ctxDone : Bool)
    (w : World S Row) : World S Row × Exit :=
  if ctxDone then (w, .err)
  else
    match w.lsnMap i.stream with
    | none => (w, .ok)
    | some lsn => ({ w with cursor := Function.update w.cursor i.stream lsn }, .ok)

def Grows (w w' : World S Row) : Prop :=
  ∃ t, w.tables.Grows t ∧ w' = { w with tables := t }

def driver [DecidableEq S] {streams : List S} :
    DriverInterface S Row Nat (World S Row) (Input streams) where
  StreamChanges := StreamChanges
  PostCDC := PostCDC
  newProcess w := { w with lsnMap := fun _ => none }
  merge _ final := final

end Olake.MSSQL
