/-
Chunks of numbers (`splitViaBatchSize`, `generateCTIDRanges` and `loadPartitionPages` of
drivers/postgres/internal/backfill.go with ctid_sizer.go, `splitViaRID` of
drivers/db2/internal/backfill.go, `splitEvenlyForInt` of drivers/mysql/internal/backfill.go).

The loops step through a range in integers of a fixed width.  A chunk is the pair of its
bounds, as the queries compare with them: at or above the first, and below the second if there
is one.  A float64 is the rational number it stands for; how one is rounded is a parameter.
-/
import Mathlib.Data.Rat.Floor
import Olake.Lib.Walks

namespace Olake.RangeSplits

open Walks

/-- The loop of `splitViaBatchSize`; `AddConstantToInterface` adds. -/
def batches (maxVal dynamicChunkSize : Int64) :
    Nat → Int64 → Int64 → Option (List (Option Int64 × Option Int64))
  | 0, _, _ => none
  | fuel + 1, chunkStart, chunkEnd =>
    if chunkEnd ≤ maxVal then
      (batches maxVal dynamicChunkSize fuel chunkEnd (chunkEnd + dynamicChunkSize)).map
        ((some chunkStart, some chunkEnd) :: ·)
    else some [(some chunkStart, none)]

/-- `splitViaBatchSize` of a bigint column. -/
def splitViaBatchSize (minVal maxVal dynamicChunkSize : Int64) (fuel : Nat) :
    Option (List (Option Int64 × Option Int64)) :=
  batches maxVal dynamicChunkSize fuel minVal (minVal + dynamicChunkSize)

/-- The loop of `splitEvenlyForInt`. -/
def evenChunks (maxBoundary chunkStep : Int64) :
    Nat → Int64 → Int64 → Option (Except String (List (Option Int64 × Option Int64)))
  | 0, _, _ => none
  | fuel + 1, prev, next =>
    if next ≤ maxBoundary then
      if next ≤ prev then some (.error "int64 arithmetic overflow")
      else (evenChunks maxBoundary chunkStep fuel next (next + chunkStep)).map
        (Except.map ((some prev, some next) :: ·))
    else some (.ok [(some prev, none)])

def splitEvenlyForInt (minBoundary maxBoundary chunkStep : Int64) (fuel : Nat) :
    Option (Except String (List (Option Int64 × Option Int64))) :=
  (evenChunks maxBoundary chunkStep fuel minBoundary (minBoundary + chunkStep)).map
    (Except.map ((none, some minBoundary) :: ·))

/-- The distance between the starts of two chunks of `splitViaRID`.  `ceilDiv` is
`int64(math.Ceil(float64(a) / float64(b)))`. -/
def ridInterval (ceilDiv : Int64 → Int64 → Int64) (minRID maxRID pageSize nPages : Int64) : Int64 :=
  let pagesPerChunk := ceilDiv (256 * 1024 * 1024 * 8) pageSize
  let nPages := if nPages ≤ 0 then 1 else nPages
  let numberOfChunks := ceilDiv nPages pagesPerChunk
  let numberOfChunks := if numberOfChunks ≤ 0 then 1 else numberOfChunks
  let ridInterval := ceilDiv (maxRID - minRID) numberOfChunks
  if ridInterval ≤ 0 then 1 else ridInterval

def splitViaRID (ceilDiv : Int64 → Int64 → Int64) (minRID maxRID pageSize nPages : Int64) (fuel : Nat) :
    Option (List (Option Int64 × Option Int64)) :=
  let ridInterval := ridInterval ceilDiv minRID maxRID pageSize nPages
  loop (· ≤ maxRID) (· + ridInterval)
    (fun start =>
      let stop := start + ridInterval
      (some start, some (if maxRID + 1 < stop then maxRID + 1 else stop)))
    fuel minRID

/-- The pages that `generateCTIDRanges` goes through: one if the table is empty. -/
def pageCount (relPages : UInt32) : UInt32 := if relPages = 0 then 1 else relPages

/-- The chunks of a table that is not partitioned, in pages. -/
def tableRanges (relPages batchSize : UInt32) (fuel : Nat) :
    Option (List (Option UInt32 × Option UInt32)) :=
  loop (· < pageCount relPages) (· + batchSize)
    (fun start =>
      let stop := start + batchSize
      (some start, some (if pageCount relPages ≤ stop then 4294967295 else stop)))
    fuel 0

/-! ### The pages of a chunk -/

def EffectiveParquetSize : Nat := 256 * 1024 * 1024 * 8

inductive CtidSizer where
  | tidRange
  | seqScan

def newCTIDSizer (version : Int) : CtidSizer := if 140000 ≤ version then .tidRange else .seqScan

variable (round : ℚ → ℚ)

def CtidSizer.pagesPerChunk (sizer : CtidSizer) (heapPageBytes effectivePageSize : ℚ)
    (scannedHeapBytes : Nat) : Nat :=
  match sizer with
  | .tidRange => ⌈round (EffectiveParquetSize / effectivePageSize)⌉₊
  | .seqScan =>
    let heapOnly := round (EffectiveParquetSize / heapPageBytes)
    let capped := round (round (max EffectiveParquetSize scannedHeapBytes : Nat) / effectivePageSize)
    ⌈min heapOnly capped⌉₊

def bytesPerHeapPage (blockSize : UInt32) (heapBytes tableBytes : Nat) : ℚ :=
  if heapBytes = 0 ∨ tableBytes ≤ heapBytes then blockSize.toNat
  else round (round (blockSize.toNat * round tableBytes) / round heapBytes)

/-- The `batchSize` of a table that is not partitioned. -/
def batchSize (sizer : CtidSizer) (blockSize : UInt32) (heapBytes tableBytes : Nat) : UInt32 :=
  UInt32.ofNat (sizer.pagesPerChunk round blockSize.toNat
    (bytesPerHeapPage round blockSize heapBytes tableBytes) heapBytes)

structure PartitionPage where
  HeapBytes : Nat
  TableBytes : Nat

/-- The pages that `loadPartitionPages` plans for a partition. -/
def PartitionPage.Pages (blockSize : UInt32) (partition : PartitionPage) : Nat :=
  min ⌈round (round 1.05 * round (partition.HeapBytes / blockSize.toNat : Nat))⌉₊ 4294967295

variable (blockSize : UInt32) (partitions : List PartitionPage)

def maxPageCountAcrossPartitions : Nat :=
  partitions.foldl (fun most partition => max most (partition.Pages round blockSize)) 0

/-- A sum over the partitions that still have pages at `start`. -/
def sumAt (bytes : PartitionPage → ℚ) (start : Nat) : ℚ :=
  partitions.foldl (fun sum partition =>
    if start < partition.Pages round blockSize then round (sum + bytes partition) else sum) 0

/-- `heapPageBytes` and `effectivePageSize`. -/
def partitionPageBytes (start : Nat) : ℚ × ℚ :=
  (sumAt round blockSize partitions (fun _ => blockSize.toNat) start,
    sumAt round blockSize partitions
      (fun partition => bytesPerHeapPage round blockSize partition.HeapBytes partition.TableBytes) start)

/-- The chunks of a partitioned table, by the pages of the one at each start. -/
def pageRanges (pageCount : Nat) (pagesPerChunk : Nat → Nat) (fuel : Nat) :
    Option (List (Option Nat × Option Nat)) :=
  let stop (start : Nat) : Nat :=
    if pageCount ≤ start + pagesPerChunk start then 4294967295 else start + pagesPerChunk start
  loop (· < pageCount) stop (fun start => (some start, some (stop start))) fuel 0

def partitionRanges (sizer : CtidSizer) (fuel : Nat) : Option (List (Option Nat × Option Nat)) :=
  let scannedHeapBytes := (partitions.map PartitionPage.HeapBytes).sum
  pageRanges (maxPageCountAcrossPartitions round blockSize partitions)
    (fun start =>
      let bytes := partitionPageBytes round blockSize partitions start
      sizer.pagesPerChunk round bytes.1 bytes.2 scannedHeapBytes) fuel

end Olake.RangeSplits
