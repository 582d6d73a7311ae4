/-
The backfill of a stream (drivers/abstract/backfill.go).

A chunk is written by a thread of its own, under an ID derived from the stream and
the chunk's bounds.  The destination keeps the IDs of the chunks it has committed,
so a thread that finds its ID there has nothing to write.

The threads of a stream run side by side, fail, are retried, and die with the
process.  The machine below takes one step of one of them at a time; between its
steps lie the points where the others can act and where a process can die.  The
state file is written at every change of the pending chunks, and writing it is one
step.
-/
import Olake.Model.State
import Olake.Model.StreamChanges

namespace Olake

open Binary64 Utf8

/-! ### Thread IDs -/

/-- The `%v` form of a value. -/
def Value.print : Value → Bytes
  | .null => ascii "<nil>"
  | .str s => s
  | .int64 n => printInt n.toInt
  | .float64 x => x.print

def joinBlank : List Bytes → Bytes
  | [] => []
  | [k] => k
  | k :: rest => k ++ 32 :: joinBlank rest

/-- The `%v` form of a bound; a `[]string` and an `[]interface{}` of strings look
alike. -/
def Bound.print : Bound → Bytes
  | .value v => v.print
  | .strings keys => 91 :: (joinBlank keys ++ [93])
  | .anys keys => 91 :: (joinBlank keys ++ [93])

/-- `generateThreadID`; an empty hash is replaced by a fresh ULID. -/
def generateThreadID (ulid streamID hash : Bytes) : Bytes :=
  streamID ++ ascii "_" ++ (if hash ≠ [] then hash else ulid)

/-- The `min[%v]-max[%v]` of a chunk. -/
def Chunk.print (c : Chunk) : Bytes :=
  ascii "min[" ++ c.min.print ++ ascii "]-max[" ++ c.max.print ++ ascii "]"

def Chunk.threadID (ulid streamID : Bytes) (c : Chunk) : Bytes :=
  generateThreadID ulid streamID c.print

/-! ### The destination's list of committed chunks -/

/-- The destinations a backfill can write to.  A local Parquet destination has no
two-phase commit. -/
inductive Destination where
  | parquetS3
  | parquetLocal
  | iceberg
deriving DecidableEq, Repr

/-- The `full_refresh_committed_ids` after the commit of a backfill thread with the
given rows: `commitBackfillMetadata` of the Parquet writer on S3, `updateJsonState`
of the Iceberg writer, which is not called when there is no file to commit. -/
def recordID {Row : Type} : Destination → Bytes → List Row → List Bytes → List Bytes
  | .parquetS3, id, _, ids => if id ∈ ids then ids else ids ++ [id]
  | .iceberg, id, rows, ids =>
    match rows with
    | [] => ids
    | _ => ids ++ [id]
  | .parquetLocal, _, _, ids => ids

/-! ### The threads of a stream -/

namespace Backfill

variable {Row H : Type} [DecidableEq H]

inductive Phase where
  /-- Its ID was in the list when the writer was created: nothing is read. -/
  | skipping
  /-- `ChunkIterator` runs. -/
  | reading
  /-- `handleWriterCleanup` closed the writer without an error. -/
  | closed
deriving DecidableEq, Repr

/-- Rows a thread committed for a chunk. -/
structure Batch (Row : Type) where
  chunk : Chunk
  rows : List Row

/-- The stream's backfill: the pending chunks of the state, the destination's list of
IDs, what was committed, and the running threads.  `chunks` are the chunks of the
backfill as they were split, `table` the rows at or below the cursor captured with
them, by the bounds they lie between, and `batches` what it has committed so far. -/
structure World (Row : Type) where
  chunks : List Chunk
  table : Source × Source → List Row
  pending : List Chunk
  ids : List Bytes
  batches : List (Batch Row)
  threads : Chunk → Option Phase

/-- What the outside decides. -/
inductive Action (Row : Type) where
  /-- A thread for the chunk creates its writer (the first one or a retry). -/
  | create (c : Chunk)
  /-- The thread returns an error before its writer is closed. -/
  | fail (c : Chunk)
  /-- The thread has read the rows and its writer is closed with this outcome. -/
  | close (c : Chunk) (rows : List Row) (outcome : CloseOutcome)
  /-- The deferred `RemoveChunk`, or nothing if the context is done. -/
  | finish (c : Chunk) (ctxDone : Bool)
  /-- The process ends and the next one loads the state. -/
  | restart
  /-- A backfill with newly split chunks starts: none is pending. -/
  | start (chunks : List Chunk) (table : Source × Source → List Row)

section Steps

variable (dest : Destination) (hash : Chunk → H) (ulid streamID : Bytes)

/-- `NewWriter` hands the thread the list of committed IDs of that moment. -/
def openThread (c : Chunk) (w : World Row) : World Row :=
  if c ∈ w.pending ∧ w.threads c = none then
    { w with
      threads := Function.update w.threads c
        (some (if c.threadID ulid streamID ∈ w.ids then .skipping else .reading)) }
  else w

def endThread (c : Chunk) (w : World Row) : World Row :=
  { w with threads := Function.update w.threads c none }

/-- The thread after `handleWriterCleanup`: an error of the close ends it without
touching the state. -/
def afterClose (c : Chunk) (outcome : CloseOutcome) (w : World Row) : World Row :=
  if outcome = .committed then
    { w with threads := Function.update w.threads c (some .closed) }
  else endThread c w

/-- `handleWriterCleanup` of a thread that has read the rows, or skipped its chunk. -/
def closeThread (c : Chunk) (rows : List Row) (outcome : CloseOutcome) (w : World Row) :
    World Row :=
  match w.threads c with
  | some .reading =>
    afterClose c outcome <|
      if outcome.durable then
        { w with
          ids := recordID dest (c.threadID ulid streamID) rows w.ids
          batches := w.batches ++ [{ chunk := c, rows := rows }] }
      else w
  | some .skipping =>
    afterClose c outcome <|
      if outcome.durable then
        { w with ids := recordID dest (c.threadID ulid streamID) ([] : List Row) w.ids }
      else w
  | _ => w

/-- The deferred removal of the chunk from the state. -/
def finishThread (c : Chunk) (ctxDone : Bool) (w : World Row) : World Row :=
  if w.threads c = some .closed then
    if ctxDone then endThread c w
    else { endThread c w with pending := removeChunk hash w.pending c }
  else w

/-- The next process has no threads and the chunks of the state file. -/
def restart (w : World Row) : World Row :=
  { w with
    pending := NewSet hash (w.pending.map Chunk.reload)
    threads := fun _ => none }

/-- `GetOrSplitChunks` and `SetChunks`, when no chunk is pending. -/
def start (chunks : List Chunk) (table : Source × Source → List Row) (w : World Row) : World Row :=
  if w.pending = [] then
    { w with
      chunks := chunks
      table := table
      pending := NewSet hash chunks
      batches := []
      threads := fun _ => none }
  else w

def step : Action Row → World Row → World Row
  | .create c => openThread ulid streamID c
  | .fail c => endThread c
  | .close c rows outcome => closeThread dest ulid streamID c rows outcome
  | .finish c ctxDone => finishThread hash c ctxDone
  | .restart => restart hash
  | .start chunks table => start hash chunks table

end Steps

end Backfill

end Olake
