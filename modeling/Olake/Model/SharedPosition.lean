/-
What the drivers that read all streams from one log have in common
(drivers/mysql/internal/cdc.go and drivers/postgres/internal/cdc.go).

The state file holds one position for all streams, and each destination table the
position of the last commit that had rows for it.  `StreamChanges` of both drivers
begins by comparing the two: a table that is ahead of the state file was committed
by a pass that was cut off before its position was saved.  Its stream is finished,
and the pass becomes a recovery of the others up to that table's position.
-/
import Mathlib.Order.Lattice

namespace Olake

variable {S P : Type} [LinearOrder P]

/-- One turn of the loop of `StreamChanges` over the metadata states, which keeps a
recovery position and the streams that are already finished. -/
def noteMetadata (state : P) (metadataStates : S → Option P) (acc : P × List S) (s : S) :
    P × List S :=
  match metadataStates s with
  | none => acc
  | some mtState =>
    -- recovery is only needed when metadata is strictly ahead of state
    if state < mtState then (mtState, acc.2 ++ [s]) else acc

/-- The loop, from the zero value of a position and no finished stream. -/
def readMetadata (zero state : P) (metadataStates : S → Option P) (order : List S) : P × List S :=
  order.foldl (noteMetadata state metadataStates) (zero, [])

/-- The streams a pass reads for: all of them, or those a cut-off pass left out. -/
def remainingStreams [DecidableEq S] (streams finishedStreams : List S) : List S :=
  if finishedStreams = [] then streams
  else streams.filter (fun s => decide (s ∉ finishedStreams))

end Olake
