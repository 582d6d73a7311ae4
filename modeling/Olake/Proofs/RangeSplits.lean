/-
Which ranges the chunks of numbers tile.

All loops go from start to start, so the walk library tells when their chunks tile the range:
when adding the size leads beyond the largest value before it leads beyond the integers.  Only
`splitEvenlyForInt` looks at that.  The chunks of partitions are counted in wider integers and
always tile, since the sizers give each chunk a page at least.
-/
import Olake.Model.RangeSplits

namespace Olake.RangeSplits

open Ranges Walks Int64 UInt32

/-- The order of integers of a fixed width. -/
abbrev fixedOrder (α : Type) [LE α] [LT α] [DecidableLE α] [Std.IsLinearOrder α] [Std.LawfulOrderLT α] :
    LinearOrder α where
  le_refl := Std.le_refl
  le_trans _ _ _ := Std.le_trans
  le_antisymm _ _ := Std.le_antisymm
  le_total _ _ := Std.le_total
  lt_iff_le_not_ge _ _ := Std.lt_iff_le_and_not_ge
  toDecidableLE := inferInstance

instance int64Order : LinearOrder Int64 := fixedOrder Int64

instance uint32Order : LinearOrder UInt32 := fixedOrder UInt32

/-! ### Adding up to the end of the integers -/

theorem wraps_int64 {size : Int64} (h : 0 < size) :
    Wraps Int64.toInt (2 ^ 63 - 1) size.toInt (· + size) := by
  have hsize : 0 < size.toInt := lt_iff_toInt_lt.1 h
  have hmax := size.toInt_lt
  refine ⟨le_iff_toInt_le.symm, fun {b} hle => ?_, fun {b} hlt => ?_⟩
  · have hb := b.le_toInt
    rw [toInt_add, Int.bmod_eq_of_le (by omega) (by omega)]
  · rw [lt_iff_toInt_lt, toInt_add, Int.bmod_def]
    split <;> omega

theorem wraps_uint32 {size : UInt32} (h : 0 < size) :
    Wraps (fun b => (b.toNat : Int)) (2 ^ 32 - 1) size.toNat (· + size) := by
  have hsize : 0 < size.toNat := lt_iff_toNat_lt.1 h
  have hmax := size.toNat_lt
  refine ⟨fun {a b} => by rw [le_iff_toNat_le]; omega, fun {b} hle => ?_, fun {b} hlt => ?_⟩
  · rw [UInt32.toNat_add, Nat.mod_eq_of_lt (by omega)]
    rfl
  · rw [UInt32.lt_iff_toNat_lt, UInt32.toNat_add]
    omega

/-- Adding `size` leads from `min` beyond `max` before it leads beyond the int64s. -/
def Room (min max size : Int64) : Prop :=
  ∃ k : Nat, max.toInt < min.toInt + (k + 1) * size.toInt ∧ min.toInt + (k + 1) * size.toInt ≤ 2 ^ 63 - 1

/-! ### Integer columns and row ids -/

section Int64

variable {min max size : Int64}

theorem batches_eq (fuel : Nat) : batches max size fuel min (min + size) =
    (walk (upTo (· + size) max) fuel min).map (rangesFrom min) := by
  induction fuel generalizing min with
  | zero => rfl
  | succ fuel ih =>
    rw [batches, walk, upTo]
    split
    · rw [ih]
      simp [rangesFrom, Function.comp_def]
    · rfl

theorem batches_tile_iff (hle : min ≤ max) (hsize : 0 < size) :
    (∃ fuel chunks, splitViaBatchSize min max size fuel = some chunks ∧ Tiles min max chunks) ↔
      Room min max size := by
  rw [Room, ← tiles_iff_room (wraps_int64 hsize) (lt_iff_toInt_lt.1 hsize) hle]
  simp only [splitViaBatchSize, batches_eq, Option.map_eq_some_iff]
  constructor
  · rintro ⟨fuel, _, ⟨bs, hwalk, rfl⟩, ht⟩
    exact ⟨fuel, bs, hwalk, ht⟩
  · rintro ⟨fuel, bs, hwalk, ht⟩
    exact ⟨fuel, _, ⟨bs, hwalk, rfl⟩, ht⟩

theorem ridInterval_pos (ceilDiv : Int64 → Int64 → Int64) (pageSize nPages : Int64) :
    0 < ridInterval ceilDiv min max pageSize nPages := by
  have hpos : ∀ n : Int64, 0 < if n ≤ 0 then 1 else n := by
    intro n
    split
    · decide
    · exact not_le.1 ‹_›
  exact hpos _

theorem toInt_succ (hmax : max.toInt < 2 ^ 63 - 1) : (max + 1).toInt = max.toInt + 1 := by
  have hone : (1 : Int64).toInt = 1 := by decide
  rw [(wraps_int64 (by decide : (0 : Int64) < 1)).add (by omega), hone]

theorem ridChunk_eq (hmax : max.toInt < 2 ^ 63 - 1) (start : Int64) :
    (if max + 1 < start + size then max + 1 else start + size) =
      if start + size ≤ max then start + size else max + 1 := by
  have hnext := toInt_succ hmax
  by_cases hle : start + size ≤ max
  · rw [if_pos hle, if_neg]
    have hle' := le_iff_toInt_le.1 hle
    rw [lt_iff_toInt_lt]
    omega
  · split
    · rfl
    · rw [lt_iff_toInt_lt] at *
      rw [le_iff_toInt_le] at hle
      exact toInt_inj.1 (by omega)

theorem rids_tile_iff (hle : min ≤ max) (ceilDiv : Int64 → Int64 → Int64) (pageSize nPages : Int64) :
    (∃ fuel chunks, splitViaRID ceilDiv min max pageSize nPages fuel = some chunks ∧
        Tiles min max chunks) ↔ Room min max (ridInterval ceilDiv min max pageSize nPages) := by
  have hpos := @ridInterval_pos min max ceilDiv pageSize nPages
  unfold splitViaRID
  generalize ridInterval ceilDiv min max pageSize nPages = size at hpos
  by_cases hmax : max.toInt < 2 ^ 63 - 1
  · have hnext : max < max + 1 := by
      rw [lt_iff_toInt_lt, toInt_succ hmax]
      omega
    rw [loop_tiles_iff (by simp) (fun start _ => by simp only [ridChunk_eq hmax]) hle hnext,
      tiles_iff_room (wraps_int64 hpos) (lt_iff_toInt_lt.1 hpos) hle, Room]
  · -- every start is at or below the largest int64, so the loop does not end
    have hnone : ∀ fuel chunk start,
        loop (· ≤ max) (· + size) (chunk : Int64 → Option Int64 × Option Int64) fuel start = none := by
      intro fuel chunk
      induction fuel with
      | zero => exact fun _ => rfl
      | succ fuel ih =>
        intro start
        have hstart := start.toInt_lt
        rw [loop, if_pos (decide_eq_true (le_iff_toInt_le.2 (by omega))), ih]
        rfl
    refine iff_of_false ?_ ?_
    · rintro ⟨fuel, chunks, hloop, -⟩
      simp only [hnone] at hloop
      cases hloop
    · rintro ⟨k, hbeyond, htop⟩
      omega

/-- **When the chunks of a bigint column, and those of row ids, tile the range.** -/
theorem integer_chunks_tile_iff (min max : Int64) (hle : min ≤ max) :
    (∀ size, 0 < size →
      ((∃ fuel chunks, splitViaBatchSize min max size fuel = some chunks ∧ Tiles min max chunks) ↔
        Room min max size)) ∧
    ∀ ceilDiv pageSize nPages,
      ((∃ fuel chunks, splitViaRID ceilDiv min max pageSize nPages fuel = some chunks ∧
          Tiles min max chunks) ↔ Room min max (ridInterval ceilDiv min max pageSize nPages)) :=
  ⟨fun _ => batches_tile_iff hle, rids_tile_iff hle⟩

theorem integer_chunks_tile_hundred :
    ∃ fuel chunks, splitViaBatchSize 1 100 30 fuel = some chunks ∧ Tiles 1 100 chunks :=
  ((integer_chunks_tile_iff 1 100 (by decide)).1 30 (by decide)).2 ⟨3, by decide, by decide⟩

/-- A column whose largest value is the largest int64. -/
theorem largest_key_not_tiled : ¬ ∃ fuel chunks,
    splitViaBatchSize 1 9223372036854775807 10000 fuel = some chunks ∧
      Tiles 1 9223372036854775807 chunks := by
  rw [batches_tile_iff (by decide) (by decide)]
  rintro ⟨k, hbeyond, htop⟩
  have hmax : (9223372036854775807 : Int64).toInt = 2 ^ 63 - 1 := by decide
  omega

/-- The loop ends, since the boundaries ascend up to where it fails. -/
theorem evenChunks_ends (max size : Int64) (fuel : Nat) (prev next : Int64)
    (hfuel : max.toInt - prev.toInt < fuel) (hpos : 0 < fuel) :
    ∃ result, evenChunks max size fuel prev next = some result ∧ ∀ chunks,
      result = .ok chunks → ∃ bs, chunks = rangesFrom prev bs ∧ (prev :: bs).IsChain (· < ·) := by
  induction fuel generalizing prev next with
  | zero => cases hpos
  | succ fuel ih =>
    rw [evenChunks]
    split_ifs with hmax hprev
    · exact ⟨_, rfl, by simp⟩
    · have hlt := lt_iff_toInt_lt.1 (not_le.1 hprev)
      have hle := le_iff_toInt_le.1 hmax
      obtain ⟨result, hresult, hchunks⟩ := ih next (next + size) (by omega) (by omega)
      refine ⟨result.map _, by rw [hresult]; rfl, fun chunks hok => ?_⟩
      cases result with
      | error err => cases hok
      | ok rest =>
        cases hok
        obtain ⟨bs, rfl, hchain⟩ := hchunks rest rfl
        exact ⟨next :: bs, rfl, List.isChain_cons_cons.2 ⟨not_le.1 hprev, hchain⟩⟩
    · exact ⟨_, rfl, fun chunks hok => ⟨[], by cases hok; rfl, List.isChain_singleton _⟩⟩

/-- **Even chunks.**  `splitEvenlyForInt` ends, and unless it fails every int64 lies in exactly
one chunk. -/
theorem even_chunks_tile (min max step : Int64) :
    ∃ fuel result, splitEvenlyForInt min max step fuel = some result ∧
      ((∃ err, result = .error err) ∨ ∃ chunks, result = .ok chunks ∧
        ∀ x : Int64, ∃! chunk, chunk ∈ chunks ∧ Within (· ≤ x) chunk) := by
  obtain ⟨result, hresult, hchunks⟩ := evenChunks_ends max step
    ((max.toInt - min.toInt).toNat + 1) min (min + step) (by omega) (by omega)
  refine ⟨_, result.map _, by rw [splitEvenlyForInt, hresult]; rfl, ?_⟩
  cases result with
  | error err => exact .inl ⟨err, rfl⟩
  | ok rest =>
    obtain ⟨bs, rfl, hchain⟩ := hchunks rest rfl
    have hsorted := List.isChain_iff_pairwise.1 hchain
    refine .inr ⟨_, rfl, fun x => (existsUnique_range_iff (List.cons_ne_nil _ _) ?_).2 ?_⟩
    · exact hsorted.imp ne_of_lt
    · exact hchain.imp fun a b hlt hle => le_trans hlt.le hle

end Int64

/-! ### Pages -/

/-- The last page that `generateCTIDRanges` goes through. -/
def lastPage (relPages : UInt32) : UInt32 := pageCount relPages - 1

theorem toNat_lastPage (relPages : UInt32) :
    (lastPage relPages).toNat + 1 = (pageCount relPages).toNat := by
  have hpos : 0 < (pageCount relPages).toNat := by
    unfold pageCount
    split
    · decide
    · exact Nat.pos_of_ne_zero (fun h => ‹¬ relPages = 0› (UInt32.toNat_inj.1 h))
  have hone : (1 : UInt32).toNat = 1 := rfl
  have hle : 1 ≤ pageCount relPages := by rwa [UInt32.le_iff_toNat_le]
  rw [lastPage, UInt32.toNat_sub_of_le _ _ hle]
  omega

theorem tableRanges_tile_iff {relPages batchSize : UInt32} (hbatch : 0 < batchSize) :
    (∃ fuel chunks, tableRanges relPages batchSize fuel = some chunks ∧
        Tiles 0 (lastPage relPages) chunks) ↔
      ∃ k : Nat, (pageCount relPages).toNat ≤ (k + 1) * batchSize.toNat ∧
        (k + 1) * batchSize.toNat < 2 ^ 32 := by
  have hlast := toNat_lastPage relPages
  have hpages := (pageCount relPages).toNat_lt
  have hlt : ∀ page, page < pageCount relPages ↔ page ≤ lastPage relPages := by
    intro page
    rw [UInt32.lt_iff_toNat_lt, UInt32.le_iff_toNat_le]
    omega
  have htop : lastPage relPages < 4294967295 := by
    rw [UInt32.lt_iff_toNat_lt]
    show _ < 4294967295
    omega
  have hchunk : ∀ start, start ≤ lastPage relPages →
      (some start, some (if pageCount relPages ≤ start + batchSize then 4294967295 else start + batchSize))
        = (some start, some (if start + batchSize ≤ lastPage relPages then start + batchSize
            else 4294967295)) := by
    intro start _
    by_cases h : start + batchSize ≤ lastPage relPages
    · rw [if_pos h, if_neg (UInt32.not_le.2 ((hlt _).2 h))]
    · rw [if_neg h, if_pos (UInt32.not_lt.1 fun h' => h ((hlt _).1 h'))]
  unfold tableRanges
  rw [loop_tiles_iff (by simpa using hlt) hchunk UInt32.zero_le htop,
    tiles_iff_room (wraps_uint32 hbatch) (by exact_mod_cast UInt32.lt_iff_toNat_lt.1 hbatch)
      UInt32.zero_le]
  refine exists_congr fun k => ?_
  have hsum : ((k : Int) + 1) * batchSize.toNat = ((k + 1) * batchSize.toNat : Nat) := by rfl
  have hzero : (0 : UInt32).toNat = 0 := rfl
  omega

/-- However many pages the chunk at each start has, as long as it has one. -/
theorem pageRanges_tile (hmost : 0 < most) (htop : most < 2 ^ 32)
    (hpages : ∀ start < most, 0 < pagesPerChunk start) :
    ∃ fuel chunks, pageRanges most pagesPerChunk fuel = some chunks ∧ Tiles 0 (most - 1) chunks := by
  unfold pageRanges
  extract_lets stop
  have hstop : ∀ start < most, stop start ≤ most - 1 → start < stop start := by
    intro start hlt
    have hpos := hpages start hlt
    simp only [stop]
    split <;> omega
  have hchunk : ∀ start, start ≤ most - 1 → (some start, some (stop start)) =
      (some start, some (if stop start ≤ most - 1 then stop start else 4294967295)) := by
    intro start _
    simp only [stop]
    split
    · rw [if_neg (by omega)]
    · rw [if_pos (by omega)]
  have hclimb : ∀ start next, start < most → upTo stop (most - 1) start = some next →
      next < most ∧ start < next := by
    intro start next hlt h
    obtain ⟨rfl, hle⟩ := upTo_eq_some h
    exact ⟨by omega, hstop start hlt hle⟩
  have hmeasure : ∀ start next, start < most → upTo stop (most - 1) start = some next →
      next < most ∧ most - next < most - start := by
    intro start next hlt h
    have hnext := hclimb start next hlt h
    omega
  obtain ⟨bs, hwalk⟩ := walk_ends (fun start => most - start) hmeasure hmost (Nat.lt_succ_self _)
  exact (loop_tiles_iff (by simp; omega) hchunk (Nat.zero_le _) (by omega)).2
    ⟨_, bs, hwalk, (tiles_iff_climbs hwalk).2
      (walk_isChain_of (P := (· < most)) (R := (· < ·)) hclimb hmost hwalk)⟩

/-! ### The pages of a chunk -/

/-- What is used of rounding to a float64, as far as nothing overflows. -/
structure Rounding (round : ℚ → ℚ) : Prop where
  mono : Monotone round
  idem : ∀ q, round (round q) = round q
  nat : ∀ n : Nat, n < 2 ^ 53 → round n = n
  /-- No quotient of numbers from 1 on underflows. -/
  quot : ∀ x y, 1 ≤ x → 1 ≤ y → 0 < round (x / round y)

section Sizer

variable {round : ℚ → ℚ} {blockSize : UInt32} {partitions : List PartitionPage}

variable (round) in
/-- A float64 that is a number of bytes. -/
def Divides (bytes : ℚ) : Prop := 1 ≤ bytes ∧ round bytes = bytes

theorem maxPageCount_le_iff : maxPageCountAcrossPartitions round blockSize partitions ≤ m ↔
    ∀ partition ∈ partitions, partition.Pages round blockSize ≤ m := by
  have hfold : ∀ (l : List PartitionPage) (most : Nat),
      l.foldl (fun most partition => max most (partition.Pages round blockSize)) most ≤ m ↔
        most ≤ m ∧ ∀ partition ∈ l, partition.Pages round blockSize ≤ m := by
    intro l
    induction l with
    | nil => simp
    | cons n rest ih =>
      intro most
      rw [List.foldl_cons, ih, max_le_iff, List.forall_mem_cons, and_assoc]
  rw [maxPageCountAcrossPartitions, hfold]
  exact and_iff_right (Nat.zero_le m)

variable (hround : Rounding round)
include hround

theorem Rounding.one_le (h : 1 ≤ q) : 1 ≤ round q := by
  have hone : round 1 = 1 := by exact_mod_cast hround.nat 1 (by decide)
  rw [← hone]
  exact hround.mono h

theorem Rounding.quot_pos (hbytes : Divides round bytes) (hx : (EffectiveParquetSize : ℚ) ≤ x) :
    0 < round (x / bytes) := by
  rw [← hbytes.2]
  exact hround.quot x bytes (le_trans (by decide) hx) hbytes.1

variable (sizer : CtidSizer)

theorem pagesPerChunk_pos (hheap : Divides round heapPageBytes)
    (heffective : Divides round effectivePageSize) (scannedHeapBytes : Nat) :
    0 < sizer.pagesPerChunk round heapPageBytes effectivePageSize scannedHeapBytes := by
  cases sizer with
  | tidRange => exact Nat.ceil_pos.2 (hround.quot_pos heffective le_rfl)
  | seqScan =>
    refine Nat.ceil_pos.2 (lt_min (hround.quot_pos hheap le_rfl) (hround.quot_pos heffective ?_))
    rw [← hround.nat EffectiveParquetSize (by decide)]
    exact hround.mono (by exact_mod_cast le_max_left _ _)

theorem pagesPerChunk_le (hheap : Divides round heapPageBytes)
    (heffective : Divides round effectivePageSize) (scannedHeapBytes : Nat) :
    sizer.pagesPerChunk round heapPageBytes effectivePageSize scannedHeapBytes ≤ EffectiveParquetSize := by
  have hquot : ∀ {bytes}, Divides round bytes → round (EffectiveParquetSize / bytes) ≤ EffectiveParquetSize := by
    intro bytes hbytes
    calc round (EffectiveParquetSize / bytes) ≤ round EffectiveParquetSize :=
          hround.mono (div_le_self (Nat.cast_nonneg _) hbytes.1)
      _ = EffectiveParquetSize := hround.nat _ (by decide)
  cases sizer with
  | tidRange => exact Nat.ceil_le.2 (hquot heffective)
  | seqScan => exact Nat.ceil_le.2 ((min_le_left _ _).trans (hquot hheap))

theorem divides_blockSize (hblock : 0 < blockSize) : Divides round blockSize.toNat :=
  ⟨by exact_mod_cast UInt32.lt_iff_toNat_lt.1 hblock,
    hround.nat _ (blockSize.toNat_lt.trans (by decide))⟩

theorem divides_bytesPerHeapPage (hblock : 0 < blockSize) (heapBytes tableBytes : Nat) :
    Divides round (bytesPerHeapPage round blockSize heapBytes tableBytes) := by
  unfold bytesPerHeapPage
  split
  · exact divides_blockSize hround hblock
  · next h =>
    obtain ⟨hzero, hlt⟩ := not_or.1 h
    refine ⟨hround.one_le ?_, hround.idem _⟩
    have hheap : 1 ≤ round heapBytes :=
      hround.one_le (by exact_mod_cast Nat.one_le_iff_ne_zero.2 hzero)
    have htable : round heapBytes ≤ round tableBytes :=
      hround.mono (by exact_mod_cast (Nat.lt_of_not_le hlt).le)
    rw [one_le_div₀ (lt_of_lt_of_le one_pos hheap)]
    calc round heapBytes ≤ round tableBytes := htable
      _ = round (round tableBytes) := (hround.idem _).symm
      _ ≤ round (blockSize.toNat * round tableBytes) :=
        hround.mono (le_mul_of_one_le_left (by linarith) (divides_blockSize hround hblock).1)

theorem batchSize_pos (hblock : 0 < blockSize) (heapBytes tableBytes : Nat) :
    0 < batchSize round sizer blockSize heapBytes tableBytes := by
  have hblock' := divides_blockSize hround hblock
  have hbytes := divides_bytesPerHeapPage hround hblock heapBytes tableBytes
  have hpos := pagesPerChunk_pos hround sizer hblock' hbytes heapBytes
  have hle := pagesPerChunk_le hround sizer hblock' hbytes heapBytes
  rw [UInt32.lt_iff_toNat_lt, batchSize, UInt32.toNat_ofNat_of_lt' (lt_of_le_of_lt hle (by decide))]
  exact hpos

theorem divides_sumAt (hbytes : ∀ partition, Divides round (bytes partition))
    (h : ∃ partition ∈ partitions, start < partition.Pages round blockSize) :
    Divides round (sumAt round blockSize partitions bytes start) := by
  have hfold : ∀ (l : List PartitionPage) (sum : ℚ), 0 ≤ sum →
      (Divides round sum ∨ ∃ partition ∈ l, start < partition.Pages round blockSize) →
      Divides round (l.foldl (fun sum partition =>
        if start < partition.Pages round blockSize then round (sum + bytes partition) else sum) sum) := by
    intro l
    induction l with
    | nil => exact fun sum _ h => h.resolve_right (by simp)
    | cons partition l ih =>
      intro sum hsum h
      rw [List.foldl_cons]
      split
      · have hone : 1 ≤ round (sum + bytes partition) := hround.one_le (by linarith [(hbytes partition).1])
        exact ih _ (by linarith) (.inl ⟨hone, hround.idem _⟩)
      · next hlt => exact ih sum hsum (by simpa [hlt] using h)
  exact hfold partitions 0 le_rfl (.inr h)

theorem le_Pages (partition : PartitionPage) (h : partition.HeapBytes / blockSize.toNat < 2 ^ 32) :
    partition.HeapBytes / blockSize.toNat ≤ partition.Pages round blockSize := by
  refine le_min ?_ (Nat.le_of_lt_succ h)
  set n := partition.HeapBytes / blockSize.toNat
  have hn : round n = n := hround.nat n (by omega)
  have hfactor : 1 ≤ round 1.05 := hround.one_le (by norm_num)
  have hle : (n : ℚ) ≤ round (round 1.05 * round n) := by
    rw [hn]
    calc (n : ℚ) = round n := hn.symm
      _ ≤ round (round 1.05 * n) := hround.mono (le_mul_of_one_le_left (by positivity) hfactor)
  exact_mod_cast hle.trans (Nat.le_ceil _)

end Sizer

/-- **When the page ranges cover a table.**  They cover every page of a table that is not
partitioned, each once, if and only if adding batches leads to its end before it leads to the
end of the page numbers; and they cover the pages of all partitions.  A batch is never empty. -/
theorem page_ranges_cover_iff (round : ℚ → ℚ) (hround : Rounding round) (sizer : CtidSizer)
    (blockSize : UInt32) (hblock : 0 < blockSize) :
    (∀ relPages batchSize : UInt32, 0 < batchSize →
      ((∃ fuel chunks, tableRanges relPages batchSize fuel = some chunks ∧
          Tiles 0 (lastPage relPages) chunks) ↔
        ∃ k : Nat, (pageCount relPages).toNat ≤ (k + 1) * batchSize.toNat ∧
          (k + 1) * batchSize.toNat < 2 ^ 32)) ∧
    (∀ heapBytes tableBytes, 0 < batchSize round sizer blockSize heapBytes tableBytes) ∧
    ∀ partitions : List PartitionPage,
      (∀ partition ∈ partitions, partition.HeapBytes / blockSize.toNat < 2 ^ 32) →
      ∃ fuel chunks, partitionRanges round blockSize partitions sizer fuel = some chunks ∧
        ∀ partition ∈ partitions, ∀ page < partition.HeapBytes / blockSize.toNat,
          ∃! range, range ∈ chunks ∧ Within (· ≤ page) range := by
  refine ⟨fun _ _ => tableRanges_tile_iff, batchSize_pos hround sizer hblock,
    fun partitions hwidth => ?_⟩
  set most := maxPageCountAcrossPartitions round blockSize partitions with hmost
  have hn : ∀ partition ∈ partitions, partition.HeapBytes / blockSize.toNat ≤ most := fun p hp =>
    (le_Pages hround p (hwidth p hp)).trans (maxPageCount_le_iff.1 hmost.ge p hp)
  rcases Nat.eq_zero_or_pos most with hzero | hpos
  · refine ⟨1, [], by simp [partitionRanges, pageRanges, loop, ← hmost, hzero], fun p hp page hpage => ?_⟩
    have hle := hn p hp
    omega
  · have hlt : most < 2 ^ 32 := Nat.lt_succ_of_le (maxPageCount_le_iff.2 fun _ _ => min_le_right _ _)
    have hpages : ∀ start < most, ∃ partition ∈ partitions, start < partition.Pages round blockSize := by
      intro start hstart
      by_contra h
      push Not at h
      exact absurd (maxPageCount_le_iff.2 h) (not_le.2 hstart)
    obtain ⟨fuel, chunks, hranges, ht⟩ := pageRanges_tile hpos hlt fun start hstart =>
      pagesPerChunk_pos hround sizer
        (divides_sumAt hround (fun _ => divides_blockSize hround hblock) (hpages start hstart))
        (divides_sumAt hround (fun partition => divides_bytesPerHeapPage hround hblock
          partition.HeapBytes partition.TableBytes) (hpages start hstart))
        (partitions.map PartitionPage.HeapBytes).sum
    refine ⟨fuel, chunks, hranges, fun p hp page hpage => ht.once page (Nat.zero_le _) ?_⟩
    have hle := hn p hp
    omega

/-- Two partitions, one of them empty, with numbers that need no rounding. -/
theorem page_ranges_cover_small :
    (∃ fuel chunks, tableRanges 10 4 fuel = some chunks ∧ Tiles 0 (lastPage 10) chunks) ∧
      ∃ fuel chunks, partitionRanges id 8192 [⟨0, 0⟩, ⟨40960, 90000⟩] (newCTIDSizer 130000) fuel = some chunks ∧
        ∀ partition ∈ [PartitionPage.mk 0 0, ⟨40960, 90000⟩], ∀ page < partition.HeapBytes / 8192,
          ∃! range, range ∈ chunks ∧ Within (· ≤ page) range := by
  have hround : Rounding id := ⟨monotone_id, fun _ => rfl, fun _ _ => rfl,
    fun x y hx hy => div_pos (one_pos.trans_le hx) (one_pos.trans_le hy)⟩
  obtain ⟨htable, -, hpartitions⟩ :=
    page_ranges_cover_iff id hround (newCTIDSizer 130000) 8192 (by decide)
  exact ⟨(htable 10 4 (by decide)).2 ⟨2, by decide, by decide⟩, hpartitions _ (by decide)⟩

/-- A table of four billion pages, in chunks of 2 GB. -/
theorem last_pages_not_covered : ¬ ∃ fuel chunks,
    tableRanges 4294967290 262144 fuel = some chunks ∧ Tiles 0 (lastPage 4294967290) chunks := by
  rw [tableRanges_tile_iff (by decide)]
  rintro ⟨k, hpages, htop⟩
  have hcount : (pageCount 4294967290).toNat = 4294967290 := by decide
  have hbatch : (262144 : UInt32).toNat = 262144 := by decide
  rw [hbatch] at hpages
  rw [hbatch] at htop
  omega

end Olake.RangeSplits
