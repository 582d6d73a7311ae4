/-
The arrow writer (destination/iceberg/arrow-writer/writer.go).

A writer thread keeps one writer per partition directory.  Records are first sorted into
the partitions (`extract`), and their superseded rows noted: by id in an equality delete
and, for a row of the same thread, by its position; or, with a row index, by the position
the index gives.  Then the batches are written to rolling files (`Write`).  A commit
publishes all files of the thread at once.

What the outside decides is an argument: the path of the n-th file (`alloc`), the order
in which Go walks the map of partitions, and when a file has reached its size.
Serialization and errors are left out; a thread that fails is aborted.
-/
import Mathlib.Algebra.GroupWithZero.Nat
import Olake.Lib.RollingFiles
import Olake.Lib.Run
import Olake.Model.Iceberg.Rows

namespace Olake.Arrow

open Iceberg IcebergWriter
export Iceberg (Table)
export IcebergWriter (Record)

variable {P Id K V D : Type}

/-- A file and the rows written to it; their number is `currentRowCount`. -/
abbrev RollingWriter (P V α : Type) := Rolling.File P V α

/-- The writer of one partition directory. -/
structure Writer (P Id K V D : Type) where
  dataWriter : Option (RollingWriter P V (Record Id K V D))
  equalityDeleteWriter : Option (RollingWriter P V Id)
  positionalDeleteWriter : Option (RollingWriter P V (RowLocation P))
  olakeIDPosition : Id → Option (RowLocation P)
  data : List (Record Id K V D)
  equalityDeletes : List Id
  positionalDeletes : List (RowLocation P)

def Writer.new : Writer P Id K V D := ⟨none, none, none, fun _ => none, [], [], []⟩

structure PendingVector (P V : Type) where
  path : P
  positions : List Nat
  partitionValues : V

/-- The files that are finished, `createdFiles`; a file keeps its partition values. -/
structure CreatedFiles (P Id K V D : Type) where
  dataFiles : List (RollingWriter P V (Record Id K V D))
  eqDeleteFiles : List (RollingWriter P V Id)
  posDeleteFiles : List (RollingWriter P V (RowLocation P))

structure ArrowWriter (P Id K V D : Type) where
  upsertMode : Bool
  deleteMode : UpdateType
  resolveUpsertOp : Bool
  writers : K → Option (Writer P Id K V D)
  createdFiles : CreatedFiles P Id K V D
  indexThread : Option (StreamIndexThread P Id)
  pendingVectors : List (PendingVector P V)
  /-- What the deletion vector writer of the server has received. -/
  vectors : List (RowLocation P)
  /-- How many file paths the server has handed out. -/
  allocated : Nat

/-- `New`.  There is an index exactly in the modes that need one. -/
def New (upsertMode resolveUpsertOp : Bool) (deleteMode : UpdateType) (index : StreamIndex P Id)
    (allocated : Nat) : ArrowWriter P Id K V D where
  upsertMode := upsertMode
  deleteMode := deleteMode
  resolveUpsertOp := resolveUpsertOp
  writers _ := none
  createdFiles := ⟨[], [], []⟩
  indexThread := if deleteMode.NeedsTableIndex then some (.new index) else none
  pendingVectors := []
  vectors := []
  allocated := allocated

/-- Which files of a partition are full after a batch. -/
structure Full where
  data : Bool
  equalityDelete : Bool
  positionalDelete : Bool

section Writing

variable (alloc : Nat → P)

/-! ### Sorting records into partitions -/

/-- The writer in place, or one for the next path (`createWriter`). -/
def orCreate {α : Type} (existing : Option (RollingWriter P V α)) (values : V) (allocated : Nat) :
    RollingWriter P V α × Nat :=
  match existing with
  | some rw => (rw, allocated)
  | none => (⟨alloc allocated, [], values⟩, allocated + 1)

/-- The writer of a partition directory with all its rolling writers, and the number of
paths handed out for it: the first half of `getOrCreateWriter`. -/
def withRollingWriters (w : ArrowWriter P Id K V D) (writer : Writer P Id K V D) (values : V) :
    Writer P Id K V D × Nat :=
  let data := orCreate alloc writer.dataWriter values w.allocated
  let writer := { writer with dataWriter := some data.1 }
  if w.upsertMode && w.deleteMode != .deletionVector then
    if w.indexThread.isNone then
      let eq := orCreate alloc writer.equalityDeleteWriter values data.2
      let pos := orCreate alloc writer.positionalDeleteWriter values eq.2
      ({ writer with equalityDeleteWriter := some eq.1, positionalDeleteWriter := some pos.1 }, pos.2)
    else
      let pos := orCreate alloc writer.positionalDeleteWriter values data.2
      ({ writer with positionalDeleteWriter := some pos.1 }, pos.2)
  else (writer, data.2)

variable [DecidableEq K]

/-- `w.writers[pKey] = writer`. -/
def setWriter (w : ArrowWriter P Id K V D) (pKey : K) (writer : Writer P Id K V D) :
    ArrowWriter P Id K V D :=
  { w with writers := Function.update w.writers pKey (some writer) }

def getOrCreateWriter (w : ArrowWriter P Id K V D) (pKey : K) (values : V) :
    ArrowWriter P Id K V D × Writer P Id K V D :=
  let created := withRollingWriters alloc w ((w.writers pKey).getD .new) values
  (setWriter { w with allocated := created.2 } pKey created.1, created.1)

def nextLocation (writer : Writer P Id K V D) : Option (RowLocation P) :=
  writer.dataWriter.map (fun dw => ⟨dw.filePath, dw.rows.length + writer.data.length⟩)

variable [DecidableEq Id] (full : Full) (w : ArrowWriter P Id K V D) (writer : Writer P Id K V D)

def storedOp (rec : Record Id K V D) : Op :=
  match rec.op, w.indexThread with
  | .i, _ => .c
  | .u, some thread =>
    if w.upsertMode && (thread.Lookup rec.id).isNone && w.resolveUpsertOp then .c else .u
  | op, _ => op

def storedRow (rec : Record Id K V D) : Record Id K V D :=
  { rec with op := storedOp w rec }

/-- The deletes of `indexRecord`: the index is asked for all but "r" and "c". -/
def indexDeletes (upsertMode : Bool) (thread : StreamIndexThread P Id) (rec : Record Id K V D) :
    List (RowLocation P) :=
  if upsertMode && rec.op != .r && rec.op != .c then (thread.Lookup rec.id).toList else []

/-- The deletes without an index: by id for the first record of an id in the partition,
and by position for a row of the same thread. -/
def dedupRecord (rec : Record Id K V D) (loc : RowLocation P) : Writer P Id K V D :=
  if rec.op = .r then writer
  else
    let writer :=
      match writer.olakeIDPosition rec.id with
      | none => { writer with equalityDeletes := writer.equalityDeletes ++ [rec.id] }
      | some prev => { writer with positionalDeletes := writer.positionalDeletes ++ [prev] }
    { writer with olakeIDPosition := Function.update writer.olakeIDPosition rec.id (some loc) }

/-- What `extract` does with a record whose writer and location are known. -/
def placeRecord (rec : Record Id K V D) (loc : RowLocation P) : ArrowWriter P Id K V D :=
  let writer := { writer with data := writer.data ++ [storedRow w rec] }
  match w.indexThread with
  | some thread =>
    setWriter { w with indexThread := some (thread.Put rec.id loc) } rec.pKey { writer with
      positionalDeletes := writer.positionalDeletes ++ indexDeletes w.upsertMode thread rec }
  | none => setWriter w rec.pKey (if w.upsertMode then dedupRecord writer rec loc else writer)

/-- One turn of `extract`. -/
def extractRecord (rec : Record Id K V D) : ArrowWriter P Id K V D :=
  let got := getOrCreateWriter alloc w rec.pKey rec.values
  match nextLocation got.2 with
  | none => got.1
  | some loc => placeRecord got.1 got.2 rec loc

def extract (records : List (Record Id K V D)) : ArrowWriter P Id K V D :=
  records.foldl (extractRecord alloc) w

/-! ### Writing the batches -/

/-- `flush`: an empty file is not uploaded. -/
def flush {α : Type} (rw : RollingWriter P V α) (files : List (RollingWriter P V α)) :
    List (RollingWriter P V α) :=
  Rolling.keep rw files

/-- `checkAndFlush`; `full` says that the file has reached its size. -/
def checkAndFlush {α : Type} (full : Bool) (rw : RollingWriter P V α)
    (files : List (RollingWriter P V α)) (allocated : Nat) :
    RollingWriter P V α × List (RollingWriter P V α) × Nat :=
  if full then (⟨alloc allocated, [], rw.partitionValues⟩, flush rw files, allocated + 1)
  else (rw, files, allocated)

def writeOpen {α : Type} (full : Bool) (rw : Option (RollingWriter P V α)) (rows : List α)
    (files : List (RollingWriter P V α)) (allocated : Nat) :
    Option (RollingWriter P V α) × List (RollingWriter P V α) × Nat :=
  match rw with
  | none => (none, files, allocated)
  | some rw =>
    let checked := checkAndFlush alloc full { rw with rows := rw.rows ++ rows } files allocated
    (some checked.1, checked.2)

def deletionVectorBatchSize : Nat := 100000

def sendPendingVectors : ArrowWriter P Id K V D :=
  { w with
    vectors := w.vectors ++
      w.pendingVectors.flatMap (fun v => v.positions.map (RowLocation.mk v.path))
    pendingVectors := [] }

/-- One turn of the loop of `queueVectorDeletes`. -/
def queueVectorDelete [DecidableEq P] (values : V) (pending : List (PendingVector P V))
    (d : RowLocation P) : List (PendingVector P V) :=
  if pending.any (fun v => v.path = d.path) then
    pending.map (fun v =>
      if v.path = d.path then { v with positions := v.positions ++ [d.position] } else v)
  else pending ++ [⟨d.path, [d.position], values⟩]

def queueVectorDeletes [DecidableEq P] (deletes : List (RowLocation P)) (values : V) :
    ArrowWriter P Id K V D :=
  let w := { w with pendingVectors := deletes.foldl (queueVectorDelete values) w.pendingVectors }
  if (w.pendingVectors.map (fun v => v.positions.length)).sum < deletionVectorBatchSize then w
  else sendPendingVectors w

/-- `Write` for the superseded positions of a partition. -/
def writePositionalDeletes [DecidableEq P] : ArrowWriter P Id K V D × Writer P Id K V D :=
  if w.deleteMode = .deletionVector then
    match writer.dataWriter with
    | some dw => (queueVectorDeletes w writer.positionalDeletes dw.partitionValues, writer)
    | none => (w, writer)
  else if writer.positionalDeletes.isEmpty then (w, writer)
  else
    let written := writeOpen alloc full.positionalDelete writer.positionalDeleteWriter
      writer.positionalDeletes w.createdFiles.posDeleteFiles w.allocated
    ({ w with
        createdFiles := { w.createdFiles with posDeleteFiles := written.2.1 }
        allocated := written.2.2 },
      { writer with positionalDeleteWriter := written.1 })

/-- `Write` for the superseded ids of a partition. -/
def writeEqualityDeletes : ArrowWriter P Id K V D × Writer P Id K V D :=
  let written := writeOpen alloc full.equalityDelete writer.equalityDeleteWriter
    writer.equalityDeletes w.createdFiles.eqDeleteFiles w.allocated
  ({ w with
      createdFiles := { w.createdFiles with eqDeleteFiles := written.2.1 }
      allocated := written.2.2 },
    { writer with equalityDeleteWriter := written.1 })

/-- `Write` for the rows of a partition. -/
def writeData : ArrowWriter P Id K V D × Writer P Id K V D :=
  let written := writeOpen alloc full.data writer.dataWriter writer.data w.createdFiles.dataFiles
    w.allocated
  ({ w with
      createdFiles := { w.createdFiles with dataFiles := written.2.1 }
      allocated := written.2.2 },
    { writer with dataWriter := written.1 })

/-- `Write` for the deletes of a partition. -/
def writeDeletes [DecidableEq P] : ArrowWriter P Id K V D × Writer P Id K V D :=
  if w.upsertMode then
    let pos := writePositionalDeletes alloc full w writer
    writeEqualityDeletes alloc full pos.1 pos.2
  else (w, writer)

/-- One turn of the loop of `Write`. -/
def writePartition [DecidableEq P] (full : K → Full) (w : ArrowWriter P Id K V D) (pKey : K) :
    ArrowWriter P Id K V D :=
  match w.writers pKey with
  | none => w
  | some writer =>
    if writer.data.isEmpty then w
    else
      let deletes := writeDeletes alloc (full pKey) w writer
      let written := writeData alloc (full pKey) deletes.1 deletes.2
      setWriter written.1 pKey
        { written.2 with data := [], equalityDeletes := [], positionalDeletes := [] }

/-- `Write`; `order` is the order in which Go walks the partitions. -/
def Write [DecidableEq P] (order : List K) (full : K → Full) (w : ArrowWriter P Id K V D)
    (records : List (Record Id K V D)) : ArrowWriter P Id K V D :=
  order.foldl (writePartition alloc full) (extract alloc w records)

/-! ### Finishing the files -/

def flushOpen {α : Type} (rw : Option (RollingWriter P V α)) (files : List (RollingWriter P V α)) :
    List (RollingWriter P V α) :=
  match rw with
  | some rw => flush rw files
  | none => files

/-- `completeWriters` for the delete files of a partition. -/
def completeDeletes (upsertMode : Bool) (files : CreatedFiles P Id K V D)
    (writer : Writer P Id K V D) : CreatedFiles P Id K V D × Writer P Id K V D :=
  if upsertMode then
    ({ files with
        eqDeleteFiles := flushOpen writer.equalityDeleteWriter files.eqDeleteFiles
        posDeleteFiles := flushOpen writer.positionalDeleteWriter files.posDeleteFiles },
      { writer with equalityDeleteWriter := none, positionalDeleteWriter := none })
  else (files, writer)

/-- One turn of the loop of `completeWriters`. -/
def completeWriter (pKey : K) : ArrowWriter P Id K V D :=
  match w.writers pKey with
  | none => w
  | some writer =>
    let deletes := completeDeletes w.upsertMode w.createdFiles writer
    let files := { deletes.1 with
      dataFiles := flushOpen writer.dataWriter deletes.1.dataFiles }
    setWriter { w with createdFiles := files } pKey { deletes.2 with
      dataWriter := none, data := [], equalityDeletes := [], positionalDeletes := [] }

def completeWriters (order : List K) (w : ArrowWriter P Id K V D) : ArrowWriter P Id K V D :=
  order.foldl completeWriter w

/-- `EvolveSchema`, as far as files go. -/
def EvolveSchema (order : List K) (w : ArrowWriter P Id K V D) : ArrowWriter P Id K V D :=
  completeWriters order w

/-- The files that are registered for the commit. -/
def delta : IdDelta P Id K V D where
  data := w.createdFiles.dataFiles.map (fun f => (f.filePath, f.partitionValues, f.rows))
  equalityDeletes := w.createdFiles.eqDeleteFiles.map (fun f => (f.partitionValues, f.rows))
  positionDeletes := w.createdFiles.posDeleteFiles.map (fun f => (f.partitionValues, f.rows))
  vectors := w.vectors

end Writing

/-! ### The life of a table

One writer thread at a time writes to the table, and nobody else does. -/

/-- The destination, the open writer thread, and the rows in the order they were
written: those that are committed, and those of the thread. -/
structure System (P Id K V D : Type) where
  table : IdTable P Id K V D
  index : StreamIndex P Id
  written : Landings P Id K V D
  allocated : Nat
  thread : Option (ArrowWriter P Id K V D × Landings P Id K V D)

def System.start : System P Id K V D := ⟨.empty, fun _ => none, [], 0, none⟩

inductive Event (Id K V D : Type) where
  /-- A new writer thread, of a backfill or with upserts. -/
  | new (upsertMode resolveUpsertOp : Bool)
  | write (order : List K) (full : K → Full) (records : List (Record Id K V D))
  | evolve (order : List K)
  /-- The thread closes, and its files are committed. -/
  | close (order : List K)
  | abort

section Life

variable [DecidableEq P] [DecidableEq Id] [DecidableEq K] (alloc : Nat → P)
  (covers : FileMatch P Id K V D) (deleteMode : UpdateType)

/-- The row that a record becomes, and where it lands. -/
def landing (w : ArrowWriter P Id K V D) (rec : Record Id K V D) :
    Option (RowLocation P × Record Id K V D) :=
  let got := getOrCreateWriter alloc w rec.pKey rec.values
  (nextLocation got.2).map (fun loc => (loc, storedRow got.1 rec))

/-- The rows of a batch and where they land, one after the other. -/
def landings (w : ArrowWriter P Id K V D) :
    List (Record Id K V D) → Landings P Id K V D
  | [] => []
  | rec :: rest => (landing alloc w rec).toList ++ landings (extractRecord alloc w rec) rest

/-- `Close` on the thread and the server. -/
def close (order : List K) (s : System P Id K V D) (w : ArrowWriter P Id K V D)
    (written : Landings P Id K V D) : System P Id K V D :=
  let w := sendPendingVectors (completeWriters order w)
  match commitThread (idReader covers) s.table (delta w) with
  | none => { s with thread := none, allocated := w.allocated, written := s.written ++ written }
  | some table =>
    { table := table
      index := match w.indexThread with
        | some thread => thread.Commit s.index
        | none => s.index
      written := s.written ++ written
      allocated := w.allocated
      thread := none }

/-- What an event does.  Without an open thread only a new one can be opened. -/
def step (e : Event Id K V D) (s : System P Id K V D) : System P Id K V D :=
  match e, s.thread with
  | .new upsertMode resolveUpsertOp, none =>
    { s with thread := some (New upsertMode resolveUpsertOp deleteMode s.index s.allocated, []) }
  | .write order full records, some (w, written) =>
    { s with thread := some (Write alloc order full w records, written ++ landings alloc w records) }
  | .evolve order, some (w, written) => { s with thread := some (EvolveSchema order w, written) }
  | .close order, some (w, written) => close covers order s w written
  | .abort, some (w, _) => { s with thread := none, allocated := w.allocated }
  | _, _ => s

end Life

end Olake.Arrow
