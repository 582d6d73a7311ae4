/-
The legacy writer (destination/iceberg/legacy-writer/writer.go) with positional deletes,
and the Java side of it (`addToTablePerSchema` of IcebergTableOperator.java,
PositionalDeltaWriter.java).

Go looks a superseded row up in the index and sends its location along with the record.
Java deletes that location, in the partition the record goes to, and keeps track of the
rows of the batch itself (`insertedRows`): of two rows of an id in a batch it deletes
the first.  It answers with the files the rows of the batch landed in, as ranges of
records, and Go puts them into the index, file by file.

What the outside decides is an argument: the path of the n-th data file (`alloc`), when
a file has reached its size, and the order in which Java walks its maps.  The writer of
a backfill only appends.  Errors are left out; a thread that fails is aborted.
-/
import Olake.Lib.Groups
import Olake.Lib.RollingFiles
import Olake.Lib.Run
import Olake.Model.Iceberg.Rows

namespace Olake.Legacy

open Iceberg IcebergWriter
export Iceberg (Table)
export IcebergWriter (Record)

variable {P Id K V D : Type}

/-- A data file and the rows written to it. -/
abbrev RollingFileWriter (P Id K V D : Type) := Rolling.File P V (Record Id K V D)

/-- A record as Go sends it: the row, its `RecordType`, and the location it supersedes. -/
structure RecordWrapper (P Id K V D : Type) where
  row : Record Id K V D
  op : Op
  delete : Option (RowLocation P)

structure PathOffset (P V : Type) where
  partition : V
  path : P
  position : Nat

/-- The records of a batch from `batchStartIdx` on, and the rows of a file they are. -/
structure Range where
  batchStartIdx : Nat
  startPosition : Nat
  count : Nat

/-- The ranges of each file, the files in the order they came up. -/
abbrev FilePositionMaps (P : Type) := List (P × List Range)

/-- `IcebergTableOperator` with its writer.  A writer that was just created holds
nothing, so it is not told apart from none. -/
structure IcebergTableOperator (P Id K V D : Type) where
  upsert : Bool
  keepDeletes : Bool
  /-- The open data file of each partition. -/
  dataWriters : V → Option (RollingFileWriter P Id K V D)
  completedDataFiles : List (RollingFileWriter P Id K V D)
  insertedRows : Id → Option (PathOffset P V)
  /-- The positions to delete, in one file for each partition. -/
  deleteSink : List (V × List (RowLocation P))
  /-- The delete files and the data files of the writers that are complete. -/
  filesToCommit : List (List (V × List (RowLocation P)) × List (RollingFileWriter P Id K V D))
  /-- How many data file paths have been handed out. -/
  allocated : Nat

/-- A new operator; deletes are always kept, as rows. -/
def IcebergTableOperator.new (upsert : Bool) (allocated : Nat) : IcebergTableOperator P Id K V D where
  upsert := upsert
  keepDeletes := true
  dataWriters _ := none
  completedDataFiles := []
  insertedRows _ := none
  deleteSink := []
  filesToCommit := []
  allocated := allocated

section Java

variable [DecidableEq P] [DecidableEq Id] [DecidableEq V] (alloc : Nat → P)

/-! ### Rows -/

variable (o : IcebergTableOperator P Id K V D)

/-- `dataWriterFor`: the open file of the partition, or one for the next path. -/
def dataWriterFor (values : V) : IcebergTableOperator P Id K V D × RollingFileWriter P Id K V D :=
  match o.dataWriters values with
  | some writer => (o, writer)
  | none =>
    let writer := ⟨alloc o.allocated, [], values⟩
    ({ o with
        dataWriters := Function.update o.dataWriters values (some writer)
        allocated := o.allocated + 1 }, writer)

/-- `write` of a `RollingFileWriter`: a file that is full is closed, and the next one
opened. -/
def writeRow (writer : RollingFileWriter P Id K V D)
    (values : V) (row : Record Id K V D) (full : Bool) : IcebergTableOperator P Id K V D :=
  let writer := { writer with rows := writer.rows ++ [row] }
  if full then
    { o with
      dataWriters := Function.update o.dataWriters values
        (some ⟨alloc o.allocated, [], writer.partitionValues⟩)
      completedDataFiles := Rolling.keep writer o.completedDataFiles
      allocated := o.allocated + 1 }
  else { o with dataWriters := Function.update o.dataWriters values (some writer) }

/-- `deleteSink.delete`. -/
def sinkDelete (loc : RowLocation P) (partition : V) : IcebergTableOperator P Id K V D :=
  { o with deleteSink := Groups.extend o.deleteSink partition [loc] }

def sinkPrevious (previous : Option (PathOffset P V)) : IcebergTableOperator P Id K V D :=
  match previous with
  | some p => sinkDelete o ⟨p.path, p.position⟩ p.partition
  | none => o

variable (record : RecordWrapper P Id K V D)

/-- The deletion of the location that came with the record, in the record's partition. -/
def sinkGiven : IcebergTableOperator P Id K V D :=
  match record.delete with
  | some loc => sinkDelete o loc record.row.values
  | none => o

def willWrite : Bool :=
  o.keepDeletes || record.op != .d

def supersedePrevious (identifier : Id) : IcebergTableOperator P Id K V D :=
  let previous := o.insertedRows identifier
  sinkPrevious { o with insertedRows := Function.update o.insertedRows identifier none } previous

/-- `write` of the `PositionalDeltaWriter`. -/
def writeDelta (full : Bool) : IcebergTableOperator P Id K V D :=
  let values := record.row.values
  let o := sinkGiven o record
  if willWrite o record then
    let got := dataWriterFor alloc o values
    let landing := ⟨values, got.2.filePath, got.2.rows.length⟩
    let o := writeRow alloc got.1 got.2 values record.row full
    let previous := o.insertedRows record.row.id
    sinkPrevious { o with insertedRows := Function.update o.insertedRows record.row.id (some landing) } previous
  else supersedePrevious o record.row.id

/-- `write` of the `OlakePartitionedFanoutWriter`. -/
def writeAppend (full : Bool) : IcebergTableOperator P Id K V D :=
  let got := dataWriterFor alloc o record.row.values
  writeRow alloc got.1 got.2 record.row.values record.row full

def write (full : Bool) : IcebergTableOperator P Id K V D :=
  if o.upsert then writeDelta alloc o record full else writeAppend alloc o record full

/-! ### Batches -/

/-- The records of a batch in a row that land one after the other in a file. -/
structure WriteRun (P : Type) where
  currentPath : P
  runStartIdx : Nat
  runStartPos : Nat
  runCount : Nat

/-- `addRange`; there is nothing to add before the first record. -/
def addRange (maps : FilePositionMaps P) : Option (WriteRun P) → FilePositionMaps P
  | none => maps
  | some run => Groups.extend maps run.currentPath [⟨run.runStartIdx, run.runStartPos, run.runCount⟩]

/-- The run after a record that lands at the location. -/
def track (maps : FilePositionMaps P) (run : Option (WriteRun P)) (i : Nat) (loc : RowLocation P) :
    FilePositionMaps P × Option (WriteRun P) :=
  match run with
  | some r =>
    if r.currentPath = loc.path ∧ loc.position = r.runStartPos + r.runCount then
      (maps, some { r with runCount := r.runCount + 1 })
    else (addRange maps run, some ⟨loc.path, i, loc.position, 1⟩)
  | none => (addRange maps run, some ⟨loc.path, i, loc.position, 1⟩)

/-- `_op_type` "i" is written as "c". -/
def normalise : RecordWrapper P Id K V D :=
  if record.row.op = .i then { record with row := { record.row with op := .c } } else record

variable {record}

/-- The loop of `addToTablePerSchema`, from the i-th record on; with each record comes
whether its file is full after it. -/
def addRecords (o : IcebergTableOperator P Id K V D) (maps : FilePositionMaps P)
    (run : Option (WriteRun P)) (i : Nat) :
    List (RecordWrapper P Id K V D × Bool) →
      IcebergTableOperator P Id K V D × FilePositionMaps P × Option (WriteRun P)
  | [] => (o, maps, run)
  | (record, full) :: rest =>
    let record := normalise record
    let got := dataWriterFor alloc o record.row.values
    let tracked := track maps run i ⟨got.2.filePath, got.2.rows.length⟩
    addRecords (write alloc got.1 record full) tracked.1 tracked.2 (i + 1) rest

def addToTablePerSchema (events : List (RecordWrapper P Id K V D × Bool)) :
    IcebergTableOperator P Id K V D × FilePositionMaps P :=
  let added := addRecords alloc o [] none 0 events
  -- `batchCompleted`
  ({ added.1 with insertedRows := fun _ => none }, addRange added.2.1 added.2.2)

/-- One turn of the loop that closes the data files. -/
def closeWriter (values : V) : IcebergTableOperator P Id K V D :=
  match o.dataWriters values with
  | none => o
  | some writer =>
    { o with
      dataWriters := Function.update o.dataWriters values none
      completedDataFiles := Rolling.keep writer o.completedDataFiles }

def completeWriter (order : List V) (o : IcebergTableOperator P Id K V D) :
    IcebergTableOperator P Id K V D :=
  let o := order.foldl closeWriter o
  { o with
    insertedRows := fun _ => none
    completedDataFiles := []
    deleteSink := []
    filesToCommit := o.filesToCommit ++ [(o.deleteSink, o.completedDataFiles)] }

/-- The files of a commit. -/
def delta : IdDelta P Id K V D where
  data := (o.filesToCommit.flatMap Prod.snd).map (fun f => (f.filePath, f.partitionValues, f.rows))
  equalityDeletes := []
  positionDeletes := o.filesToCommit.flatMap Prod.fst
  vectors := []

end Java

/-! ### The side of Go -/

structure LegacyWriter (P Id : Type) where
  indexThread : StreamIndexThread P Id
  resolveUpsertOp : Bool

section Go

variable [DecidableEq P] [DecidableEq Id] [DecidableEq V] (alloc : Nat → P) (hasData : D → Bool)

/-- The superseded location and the operation of a record; `seenRecords` are the ids
that the batch has had. -/
def resolve (w : LegacyWriter P Id) (seenRecords : List Id) (record : Record Id K V D) :
    RecordWrapper P Id K V D :=
  if record.op != .r && record.op != .c then
    let previous := w.indexThread.Lookup record.id
    let opType := if w.resolveUpsertOp && previous.isNone && !(record.id ∈ seenRecords : Bool) &&
        record.op == .u then .c else record.op
    ⟨{ record with op := opType }, opType, previous⟩
  else ⟨record, record.op, none⟩

/-- The loop of `Write`: the records that are sent. -/
def protoRecords (w : LegacyWriter P Id) (seenRecords : List Id) :
    List (Record Id K V D × Bool) → List (RecordWrapper P Id K V D × Bool)
  | [] => []
  | (record, full) :: rest =>
    if hasData record.data then
      (resolve w seenRecords record, full) :: protoRecords w (record.id :: seenRecords) rest
    else protoRecords w seenRecords rest

/-- The index changes of a range. -/
def putRange (sentRecords : List (RecordWrapper P Id K V D)) (path : P)
    (thread : StreamIndexThread P Id) (r : Range) : StreamIndexThread P Id :=
  (List.range r.count).foldl (fun thread i =>
    match sentRecords[r.batchStartIdx + i]? with
    | some record => thread.Put record.row.id ⟨path, r.startPosition + i⟩
    | none => thread) thread

/-- The index changes of a batch, file by file. -/
def putMaps (sentRecords : List (RecordWrapper P Id K V D)) (thread : StreamIndexThread P Id)
    (maps : FilePositionMaps P) : StreamIndexThread P Id :=
  maps.foldl (fun thread fileMap => fileMap.2.foldl (putRange sentRecords fileMap.1) thread) thread

def Write (w : LegacyWriter P Id) (o : IcebergTableOperator P Id K V D)
    (records : List (Record Id K V D × Bool)) :
    LegacyWriter P Id × IcebergTableOperator P Id K V D :=
  let sent := protoRecords hasData w [] records
  if sent.isEmpty then (w, o)
  else
    let added := addToTablePerSchema alloc o sent
    ({ w with indexThread := putMaps (sent.map Prod.fst) w.indexThread added.2 }, added.1)

/-! ### The life of a table

One writer thread at a time writes to the table, and nobody else does. -/

/-- Where the records of a batch land, and the rows they become. -/
def landings (o : IcebergTableOperator P Id K V D) :
    List (RecordWrapper P Id K V D × Bool) → Landings P Id K V D
  | [] => []
  | (record, full) :: rest =>
    let record := normalise record
    let got := dataWriterFor alloc o record.row.values
    (⟨got.2.filePath, got.2.rows.length⟩, record.row) :: landings (write alloc got.1 record full) rest

end Go

/-- A writer thread: the writers on both sides, and the rows in the order they were
written. -/
structure Thread (P Id K V D : Type) where
  writer : LegacyWriter P Id
  operator : IcebergTableOperator P Id K V D
  written : Landings P Id K V D

/-- The destination, the open writer thread, and the rows that are committed, in the
order they were written. -/
structure System (P Id K V D : Type) where
  table : IdTable P Id K V D
  index : StreamIndex P Id
  written : Landings P Id K V D
  allocated : Nat
  thread : Option (Thread P Id K V D)

def System.start : System P Id K V D := ⟨.empty, fun _ => none, [], 0, none⟩

inductive Event (Id K V D : Type) where
  /-- A new writer thread, of a backfill or with upserts. -/
  | new (upsert resolveUpsertOp : Bool)
  | write (records : List (Record Id K V D × Bool))
  /-- The schema evolves, or is read again. -/
  | complete (order : List V)
  /-- The thread closes, and its files are committed. -/
  | close (order : List V)
  | abort

section Life

variable [DecidableEq P] [DecidableEq Id] [DecidableEq V] (alloc : Nat → P) (hasData : D → Bool)
  (covers : FileMatch P Id K V D)

/-- `Write` on a thread. -/
def Thread.write (t : Thread P Id K V D) (records : List (Record Id K V D × Bool)) :
    Thread P Id K V D :=
  let next := Write alloc hasData t.writer t.operator records
  ⟨next.1, next.2, t.written ++ landings alloc t.operator (protoRecords hasData t.writer [] records)⟩

/-- `Close` on the thread and the server. -/
def close (order : List V) (s : System P Id K V D) (t : Thread P Id K V D) : System P Id K V D :=
  let o := completeWriter order t.operator
  match commitThread (idReader covers) s.table (delta o) with
  | none => { s with thread := none, allocated := o.allocated, written := s.written ++ t.written }
  | some table =>
    { table := table
      index := t.writer.indexThread.Commit s.index
      written := s.written ++ t.written
      allocated := o.allocated
      thread := none }

/-- What an event does.  Without an open thread only a new one can be opened. -/
def step (e : Event Id K V D) (s : System P Id K V D) : System P Id K V D :=
  match e, s.thread with
  | .new upsert resolveUpsertOp, none =>
    { s with thread := some ⟨⟨.new s.index, resolveUpsertOp⟩, .new upsert s.allocated, []⟩ }
  | .write records, some t => { s with thread := some (t.write alloc hasData records) }
  | .complete order, some t =>
    { s with thread := some { t with operator := completeWriter order t.operator } }
  | .close order, some t => close covers order s t
  | .abort, some t => { s with thread := none, allocated := t.operator.allocated }
  | _, _ => s

end Life

end Olake.Legacy
