/-
The row index of a table as it is kept on disk (pkg/indexdb/pebble.go), and how it is
filled from the table (destination/iceberg/index.go, TableIndexScanner.java,
OlakeTableIndexer.java).

A scan emits every row of the data files with its location, the files sorted by their
sequence numbers and then by their paths.  Java sends the entries in batches, and Go puts
them into the index, so of two entries of an id the later one stays.  Every now and then
Go writes out what it has, and after the last entry it writes the snapshot that was
scanned.

Rows without an identifier are not indexed.  Errors of the database are left out.
-/
import Mathlib.Data.List.Sort
import Mathlib.Data.Prod.Lex
import Olake.Model.Iceberg.Rows

namespace Olake.TableIndex

open Iceberg IcebergWriter
export Iceberg (Table)
export IcebergWriter (Record)

variable {P K R E Id : Type}

/-! ### The database -/

/-- `pebbleIndex`: the rows, and the snapshot they were checkpointed at; 0 stands for
none. -/
structure Index (P Id : Type) where
  rows : StreamIndex P Id
  snapshot : Nat

namespace Index

/-- `Commit`: the changes and the checkpoint are one batch of the database. -/
def Commit (index : Index P Id) (batch : StreamIndexThread P Id) (snapshotID : Option Nat) :
    Index P Id :=
  ⟨batch.Commit index.rows, snapshotID.getD index.snapshot⟩

def Truncate (_ : Index P Id) : Index P Id := ⟨fun _ => none, 0⟩

end Index

/-! ### The scan -/

/-- What `sortedOldestFirst` compares files by. -/
def age (f : DataFile P K R) : Nat ×ₗ P := toLex (f.sequence, f.path)

def sortedOldestFirst [LinearOrder P] (files : List (DataFile P K R)) : List (DataFile P K R) :=
  files.insertionSort (fun f g => age f ≤ age g)

/-- `putIfAbsent` for every file, by its path. -/
def unique [DecidableEq P] (files : List (DataFile P K R)) : List (DataFile P K R) :=
  files.foldl (fun kept f => if f.path ∈ kept.map DataFile.path then kept else kept ++ [f]) []

/-- `currentDataFiles`.  `planFiles` gives a file once for each of its splits. -/
def currentDataFiles [LinearOrder P] (t : Table P K R E) : List (DataFile P K R) :=
  sortedOldestFirst (unique t.data)

/-- An identifier and where its row is. -/
abbrev Entry (P Id : Type) := RowLocation P × Id

variable (identifier : R → Option Id)

/-- `emitFile`: every row that has an identifier, deleted or not. -/
def emitFile (f : DataFile P K R) : List (Entry P Id) :=
  f.rows.zipIdx.filterMap (fun row => (identifier row.1).map (fun id => (⟨f.path, row.2⟩, id)))

/-- The loop of `scan`. -/
def emitFiles (files : List (DataFile P K R)) : List (Entry P Id) :=
  files.flatMap (emitFile identifier)

/-! ### The stream from Java to Go -/

/-- `TableIndexScanBatch`. -/
structure ScanBatch (P Id : Type) where
  snapshotId : Nat
  entries : List (Entry P Id)

/-- `BATCH_SIZE`. -/
def batchSize : Nat := 10000

/-- `BatchEmitter`: the batch that is being filled, and those that were sent. -/
structure BatchEmitter (P Id : Type) where
  snapshotId : Nat
  batch : List (Entry P Id)
  sent : List (ScanBatch P Id)

namespace BatchEmitter

/-- `begin`. -/
def start (snapshotId : Nat) : BatchEmitter P Id := ⟨snapshotId, [], []⟩

variable (e : BatchEmitter P Id)

def send : BatchEmitter P Id :=
  { e with batch := [], sent := e.sent ++ [⟨e.snapshotId, e.batch⟩] }

def accept (entry : Entry P Id) : BatchEmitter P Id :=
  let e := { e with batch := e.batch ++ [entry] }
  if batchSize ≤ e.batch.length then e.send else e

/-- `finish`: there is always at least one batch, so that Go learns the snapshot. -/
def finish : BatchEmitter P Id :=
  if !e.batch.isEmpty || e.sent.isEmpty then e.send else e

end BatchEmitter

def batches (snapshotId : Nat) (entries : List (Entry P Id)) : List (ScanBatch P Id) :=
  (entries.foldl BatchEmitter.accept (.start snapshotId)).finish.sent

/-! ### Filling the index -/

def indexScanFlushRows : Nat := 200000

/-- `drainTableIndexScan` between two batches. -/
structure Draining (P Id : Type) where
  index : Index P Id
  pending : StreamIndexThread P Id
  buffered : Nat
  snapshotID : Nat

namespace Draining

def start (index : Index P Id) : Draining P Id := ⟨index, .new index.rows, 0, 0⟩

/-- `flush`: the rows are written, and the checkpoint stays. -/
def flush (d : Draining P Id) : Draining P Id :=
  if d.buffered = 0 then d
  else
    let index := d.index.Commit d.pending none
    { d with index := index, pending := .new index.rows, buffered := 0 }

variable [DecidableEq Id]

/-- One turn of the loop. -/
def recv (d : Draining P Id) (batch : ScanBatch P Id) : Draining P Id :=
  let d := { d with
    snapshotID := batch.snapshotId
    pending := batch.entries.foldl (fun pending entry => pending.Put entry.2 entry.1) d.pending
    buffered := d.buffered + batch.entries.length }
  if indexScanFlushRows ≤ d.buffered then d.flush else d

end Draining

/-- `drainTableIndexScan`, for a stream that comes to its end. -/
def drainTableIndexScan [DecidableEq Id] (stream : List (ScanBatch P Id)) (index : Index P Id) :
    Index P Id :=
  let d := stream.foldl Draining.recv (.start index)
  d.index.Commit d.pending (some d.snapshotID)

/-- `fillTableIndex` without a snapshot to start from: the index is emptied, and filled
with the rows of the table. -/
def rebuild [LinearOrder P] [DecidableEq Id] (snapshotId : Nat)
    (t : Table P K R E) (index : Index P Id) : Index P Id :=
  drainTableIndexScan (batches snapshotId (emitFiles identifier (currentDataFiles t))) index.Truncate

end Olake.TableIndex
