/-
A writer thread (destination/writers.go, the group of utils/concurrent.go).

The driver pushes records into a buffer.  A full buffer is handed to a group that runs one
task at a time, so the driver goes on filling the buffer while the last one is flushed, and
waits if the next one is full before that.  A flush has the writer flatten the records and
evolve the schema, and then write.  The first flush that fails cancels the group.  `Close`
flushes what is left, waits for the group, and closes the writer, which commits unless its
context is done.  On a done context a writer may return an error or, like the local Parquet
writer, only remove its files.

The machine takes one step of the driver, of the running flush or of the outside at a time.
What the writer does with a batch (the records it keeps, whether the schema evolves, whether
a call fails or panics) is given with the event.  The group's context is derived from the one
the thread was created with, which is also the one it is closed with.
-/
import Mathlib.Data.List.Basic

namespace Olake.WriterThread

def MaxDestinationBatchBytes : Int := 1024 * 1024 * 1024

/-- The counters of the pool, or the part that a thread has added to them. -/
@[ext]
structure Stats where
  readCount : Int
  recordsFiltered : Int
  bytesRead : Int

def Stats.zero : Stats := ⟨0, 0, 0⟩

def Stats.add (a b : Stats) : Stats :=
  ⟨a.readCount + b.readCount, a.recordsFiltered + b.recordsFiltered, a.bytesRead + b.bytesRead⟩

def Stats.sub (a b : Stats) : Stats :=
  ⟨a.readCount - b.readCount, a.recordsFiltered - b.recordsFiltered, a.bytesRead - b.bytesRead⟩

/-- Where a running flush stands. -/
inductive Flush (Rec Out : Type) where
  /-- Before `FlattenAndCleanData`. -/
  | flattening (buf : List Rec)
  /-- Before `EvolveSchema`. -/
  | evolving (buf : List Rec) (out : List Out)
  /-- Before `Write`. -/
  | writing (buf : List Rec) (out : List Out)

/-- Where the driver stands. -/
inductive Phase where
  | opened
  /-- `Close` found its context done and waits for the running flush. -/
  | aborting
  /-- No flush is running any more; the writer is closed next. -/
  | aborted
  /-- `Close` has added the last flush. -/
  | closing
  /-- The group is done, and the writer is closed next. -/
  | finishing
  /-- The writer is closed, and has committed, or the close has failed. -/
  | closed (committed : Bool)
  /-- The writer was closed on a done context and has returned no error: nothing is committed. -/
  | released
deriving DecidableEq, Repr

/-- The thread.  `calls` are the records `Push` was called with, `flattened` and `written` the
batches that `FlattenAndCleanData` and `Write` were called with, each with what the former
made of it. -/
structure Thread (Rec Out : Type) where
  buffer : List Rec
  bufferBytes : Int
  /-- A batch that the driver is about to add to the group. -/
  waiting : Option (List Rec)
  running : Option (Flush Rec Out)
  /-- A flush has returned an error. -/
  groupErr : Bool
  ctxDone : Bool
  stats : Stats
  contributed : Stats
  phase : Phase
  calls : List Rec
  flattened : List (List Rec × List Out)
  written : List (List Rec × List Out)

variable {Rec Out : Type}

def Thread.init (stats : Stats) : Thread Rec Out where
  buffer := []
  bufferBytes := 0
  waiting := none
  running := none
  groupErr := false
  ctxDone := false
  stats := stats
  contributed := .zero
  phase := .opened
  calls := []
  flattened := []
  written := []

inductive Event (Rec Out : Type) where
  /-- `Push`; where both contexts are done, `select` picks one. -/
  | push (record : Rec) (sourceBytes : Int) (pickGroup : Bool)
  /-- The context is cancelled. -/
  | cancel
  /-- The group takes the waiting batch. -/
  | spawn
  /-- `FlattenAndCleanData` returns the records it keeps and whether the schema evolves, or an
  error. -/
  | flatten (result : Option (List Out × Bool))
  | evolveSchema (ok : Bool)
  | write (ok : Bool)
  | close
  /-- `Block` of the closing driver returns. -/
  | block
  /-- `Close` of the writer; it may fail. -/
  | closeWriter (ok : Bool)

namespace Thread

variable (wt : Thread Rec Out)

/-- The group's context is done: a flush failed, or the context it is derived from is done. -/
def groupDone : Bool := wt.groupErr || wt.ctxDone

def count (s : Stats) : Thread Rec Out :=
  { wt with stats := wt.stats.add s, contributed := wt.contributed.add s }

def rollbackStats : Thread Rec Out := { wt with stats := wt.stats.sub wt.contributed }

/-- `Push`.  In the last case of the `select` the record is buffered; in the others the result
of `ctx.Err()` or of `Block` is returned, the latter when no flush is running any more. -/
def Push (batchSize : Nat) (record : Rec) (sourceBytes : Int) (pickGroup : Bool) : Thread Rec Out :=
  if wt.ctxDone && !pickGroup then { wt with calls := wt.calls ++ [record] }
  else if wt.groupDone then
    if wt.running.isSome then wt else { wt with calls := wt.calls ++ [record] }
  else
    let wt := wt.count ⟨1, 0, sourceBytes⟩
    let buffer := wt.buffer ++ [record]
    let bufferBytes := wt.bufferBytes + sourceBytes
    if batchSize ≤ buffer.length ∨ MaxDestinationBatchBytes ≤ bufferBytes then
      { wt with calls := wt.calls ++ [record], buffer := [], bufferBytes := 0, waiting := some buffer }
    else { wt with calls := wt.calls ++ [record], buffer := buffer, bufferBytes := bufferBytes }

/-- A flush returns an error: the group keeps it and cancels its context. -/
def fail : Thread Rec Out := { wt with running := none, groupErr := true }

/-- `flush` is entered; an empty buffer is skipped. -/
def spawn : Thread Rec Out :=
  match wt.waiting, wt.running with
  | some [], none => { wt with waiting := none }
  | some buf, none => { wt with waiting := none, running := some (.flattening buf) }
  | _, _ => wt

def flatten (result : Option (List Out × Bool)) : Thread Rec Out :=
  match wt.running, result with
  | some (.flattening _), none => wt.fail
  | some (.flattening buf), some (out, evolution) =>
    { wt.count ⟨0, buf.length - out.length, 0⟩ with
      flattened := wt.flattened ++ [(buf, out)]
      running := some (if evolution then .evolving buf out else .writing buf out) }
  | _, _ => wt

def evolveSchema (ok : Bool) : Thread Rec Out :=
  match wt.running with
  | some (.evolving buf out) =>
    if ok then { wt with running := some (.writing buf out) } else wt.fail
  | _ => wt

def write (ok : Bool) : Thread Rec Out :=
  match wt.running with
  | some (.writing buf out) =>
    let wt := { wt with written := wt.written ++ [(buf, out)] }
    if ok then { wt with running := none } else wt.fail
  | _ => wt

/-- `Close`, up to the wait for the group. -/
def Close : Thread Rec Out :=
  if wt.ctxDone then { wt with phase := .aborting }
  else { wt with buffer := [], bufferBytes := 0, waiting := some wt.buffer, phase := .closing }

/-- `Block` returns when no task is left. -/
def block : Thread Rec Out :=
  if wt.waiting.isSome || wt.running.isSome then wt
  else
    match wt.phase with
    | .aborting => { wt.rollbackStats with phase := .aborted }
    | .closing => { wt with phase := .finishing }
    | _ => wt

/-- `writer.Close`, which returns an error or not.  Its context is done if the thread's is, and an
error of the group cancels it; then nothing is committed.  The statistics are rolled back on an
error, of the group or of the writer, and a writer may return none on a done context. -/
def closeWriter (ok : Bool) : Thread Rec Out :=
  match wt.phase with
  | .aborted => { wt with phase := .closed false }
  | .finishing =>
    if wt.groupErr || !ok then { wt.rollbackStats with phase := .closed false }
    else { wt with phase := if wt.ctxDone then .released else .closed true }
  | _ => wt

/-- One event; those that cannot happen in the phase change nothing. -/
def step (batchSize : Nat) (e : Event Rec Out) (wt : Thread Rec Out) : Thread Rec Out :=
  match e with
  | .push record sourceBytes pickGroup =>
    if wt.phase = .opened ∧ wt.waiting.isNone then wt.Push batchSize record sourceBytes pickGroup else wt
  | .cancel =>
    match wt.phase with
    | .closed _ | .released => wt
    | _ => { wt with ctxDone := true }
  | .spawn => wt.spawn
  | .flatten result => wt.flatten result
  | .evolveSchema ok => wt.evolveSchema ok
  | .write ok => wt.write ok
  | .close => if wt.phase = .opened ∧ wt.waiting.isNone then wt.Close else wt
  | .block => wt.block
  | .closeWriter ok => wt.closeWriter ok

end Thread

end Olake.WriterThread
