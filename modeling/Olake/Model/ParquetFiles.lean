/-
The files of a parquet writer (destination/parquet/parquet.go: `Write`, `EvolveSchema`,
`Close` and what they call).

A partition has a list of files, of which only the newest is written to.  A roll seals it
and leaves it in the list; an evolution of the schema puts a new file in front of it and
leaves it open.  `Close` seals what is still open, uploads all files and commits.

A call that fails ends the run with an error, after which the thread closes its writer with a
context that is done.
-/
import Mathlib.Data.List.Basic

namespace Olake.ParquetFiles

/-- `FileMetadata`.  `file` says whether it is still open; `closed` and `uploaded` count how
often its footer was written and the file was uploaded. -/
structure FileMetadata (R : Type) where
  file : Bool := true
  rows : List R := []
  closed : Nat := 0
  uploaded : Nat := 0

/-- What the functions read of the writer's configuration.  `path` is
`getPartitionedFilePath`, `size` the size that the parquet writer reports for its rows. -/
structure Config (P R : Type) where
  path : R → P
  size : List R → Nat
  maxFileBytes : Nat
  checkIntervalForRoll : Nat
  normalization : Bool
  s3 : Bool
  backfill : Bool

/-- `partitionedFiles`, the newest file of a partition first. -/
abbrev Files (P R : Type) := List (P × List (FileMetadata R))

variable {P R : Type} [DecidableEq P] (c : Config P R)

def pendingDataFiles (partitionedFiles : Files P R) : List (FileMetadata R) :=
  partitionedFiles.flatMap (·.2)

def atPath (path : P) (change : List (FileMetadata R) → List (FileMetadata R)) : Files P R → Files P R
  | [] => [(path, change [])]
  | (path', files) :: rest =>
    if path' = path then (path', change files) :: rest else (path', files) :: atPath path change rest

def createNewPartitionFile (files : List (FileMetadata R)) : List (FileMetadata R) := {} :: files

def getOrCreatePartitionFile (files : List (FileMetadata R)) : FileMetadata R × List (FileMetadata R) :=
  match files with
  | [] => ({}, [])
  | last :: older => if last.file then (last, older) else ({}, last :: older)

def checkForRoll (index total : Nat) : Bool :=
  c.checkIntervalForRoll ≠ 0 && ((index + 1) % c.checkIntervalForRoll = 0 || index + 1 = total)

/-- `writer.Close` and `file.Close`. -/
def FileMetadata.finalize (pf : FileMetadata R) : FileMetadata R :=
  { pf with file := false, closed := pf.closed + 1 }

def rollPartitionFile (pf : FileMetadata R) : FileMetadata R :=
  if c.size pf.rows < c.maxFileBytes then pf else pf.finalize

/-- A turn of the loop in `Write`. -/
def writeRecord (index total : Nat) (record : R) (files : List (FileMetadata R)) :
    List (FileMetadata R) :=
  let (partitionFile, older) := getOrCreatePartitionFile files
  let written := { partitionFile with rows := partitionFile.rows ++ [record] }
  (if checkForRoll c index total then rollPartitionFile c written else written) :: older

/-- The loop of `Write` from an index on; each record comes with whether the calls made for it
succeed. -/
def writeFrom (index total : Nat) : List (R × Bool) → Files P R → Option (Files P R)
  | [], p => some p
  | (record, ok) :: rest, p =>
    if ok then writeFrom (index + 1) total rest (atPath (c.path record) (writeRecord c index total record) p)
    else none

inductive Op (R : Type) where
  | write (records : List (R × Bool))
  | evolveSchema (ok : Bool)

def step (p : Files P R) : Op R → Option (Files P R)
  | .write records => writeFrom c 0 records.length records p
  | .evolveSchema ok =>
    if !c.normalization then some p
    else if ok then some (p.map fun (path, files) => (path, createNewPartitionFile files))
    else none

def run (ops : List (Op R)) : Option (Files P R) := ops.foldlM (step c) []

/-- The records given to `Write`. -/
def accepted (ops : List (Op R)) : List R :=
  ops.flatMap fun | .write records => records.map Prod.fst | .evolveSchema _ => []

def closePqFiles (p : Files P R) : Files P R :=
  p.map fun (path, files) => (path, files.map fun pf => if pf.file then pf.finalize else pf)

def uploadPqFiles (dataFiles : List (FileMetadata R)) : List (FileMetadata R) :=
  dataFiles.map fun info => { info with uploaded := info.uploaded + 1 }

/-- What `Close` comes to, with the files as they then are. -/
inductive Closed (R : Type) where
  | aborted
  | nothing
  | onDisk (files : List (FileMetadata R))
  | committed (files : List (FileMetadata R))

/-- `Close`.  `finishState` says whether the finish state can be made, `ok` whether all calls
up to `writeFinish` succeed. -/
def Close (p : Files P R) (ctxDone finishState ok : Bool) : Closed R :=
  if !c.s3 then
    if ctxDone || !ok then .aborted else .onDisk (pendingDataFiles (closePqFiles p))
  else if !c.backfill && (pendingDataFiles p).isEmpty then
    if ctxDone then .aborted else .nothing
  else if !finishState || ctxDone || !ok then .aborted
  else .committed (uploadPqFiles (pendingDataFiles (closePqFiles p)))

end Olake.ParquetFiles
