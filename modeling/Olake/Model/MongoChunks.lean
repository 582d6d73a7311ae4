/-
The chunks of a MongoDB collection (`splitChunks` of drivers/mongodb/internal/backfill.go).

A chunk is the pair of its bounds, as `generatePipeline` compares the `_id` with them: at or
above the first, and below the second if there is one.  That an ObjectID is written as text in
a chunk, and read from it, is left out.
-/
import Mathlib.Data.BitVec

namespace Olake.MongoChunks

/-- Twelve bytes, compared as a number; the first four are the time. -/
abbrev ObjectID := BitVec 96

/-- `Timestamp`, in seconds. -/
def ObjectID.Timestamp (id : ObjectID) : Int := (id.extractLsb' 64 32).toNat

def generateMinObjectID (t : Int) : ObjectID := BitVec.ofInt 32 t ++ 0#64

/-- `fetchExtremes`, from the smallest and the largest `_id`. -/
def fetchExtremes (minID maxID : ObjectID) : Int × Int := (minID.Timestamp - 600, maxID.Timestamp + 600)

/-- The seconds of a chunk.  `timeDiff` is a float, but only its integer part counts. -/
def density (first last : Int) : Int := max 1 ((last - first) / 21600) * 10

theorem density_pos (first last : Int) : 0 < density first last := by
  unfold density
  omega

/-- What a turn of the loop appends. -/
def timeChunk (last density start : Int) : Option ObjectID × Option ObjectID :=
  let stop := start + density
  (some (generateMinObjectID start), some (generateMinObjectID (if last < stop then last + 1 else stop)))

def timeChunks (last density : Int) (h : 0 < density) (start : Int) :
    List (Option ObjectID × Option ObjectID) :=
  if start < last then timeChunk last density start :: timeChunks last density h (start + density) else []
termination_by (last - start).toNat

def timestampStrategy (minID maxID : ObjectID) : List (Option ObjectID × Option ObjectID) :=
  let (first, last) := fetchExtremes minID maxID
  timeChunks last (density first last) (density_pos first last) first ++
    [(some (generateMinObjectID last), none)]

end Olake.MongoChunks
