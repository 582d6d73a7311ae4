/-
Which ObjectIDs the chunks by time cover.

The boundaries are whole seconds, so an id is in a chunk by its time alone.  Three things go
wrong.  There is no chunk below the first boundary, and that may be a negative time, which as an
id is a late one: then the first chunk is empty.  A last chunk that is cut short reaches into
the second from which the open chunk takes over.  And a late time plus ten minutes wraps around
to an early id.
-/
import Mathlib.Algebra.Ring.Divisibility.Basic
import Mathlib.Tactic.Linarith
import Olake.Lib.Ranges
import Olake.Model.MongoChunks

namespace Olake.MongoChunks

open Ranges List

/-! ### Ids and times -/

theorem timestamp_eq (id : ObjectID) : id.Timestamp = id.toNat / 2 ^ 64 := by
  rw [ObjectID.Timestamp, BitVec.extractLsb'_toNat]
  omega

theorem timestamp_bounds (id : ObjectID) : 0 ≤ id.Timestamp ∧ id.Timestamp < 2 ^ 32 := by
  rw [timestamp_eq]
  omega

theorem toNat_generateMinObjectID (t : Int) :
    (generateMinObjectID t).toNat = (t % 2 ^ 32).toNat * 2 ^ 64 := by
  rw [generateMinObjectID, BitVec.toNat_append, BitVec.toNat_ofNat, Nat.or_zero,
    Nat.shiftLeft_eq]
  rfl

theorem generateMinObjectID_le_iff {id : ObjectID} :
    generateMinObjectID t ≤ id ↔ t % 2 ^ 32 ≤ id.Timestamp := by
  rw [BitVec.le_def, toNat_generateMinObjectID, timestamp_eq]
  omega

theorem exists_timestamp (h0 : 0 ≤ t) (h : t < 2 ^ 32) : ∃ id : ObjectID, id.Timestamp = t := by
  refine ⟨generateMinObjectID t, ?_⟩
  rw [timestamp_eq, toNat_generateMinObjectID]
  omega

/-! ### The chunks -/

section Chunks

variable {first last d : Int} {id : ObjectID}

theorem within_timeChunk : Within (· ≤ id) (timeChunk last d t) ↔
    t % 2 ^ 32 ≤ id.Timestamp ∧ id.Timestamp < (if last < t + d then last + 1 else t + d) % 2 ^ 32 := by
  simp only [Within, timeChunk, Option.mem_def, Option.some.injEq, forall_eq', generateMinObjectID_le_iff, not_le]

theorem within_open : Within (· ≤ id) (some (generateMinObjectID last), none) ↔
    last % 2 ^ 32 ≤ id.Timestamp := by
  simp [Within, generateMinObjectID_le_iff]

variable (first last d) in
/-- The loop comes to the time. -/
def IsStart (t : Int) : Prop := first ≤ t ∧ t < last ∧ d ∣ t - first

theorem mem_timeChunks (hd : 0 < d) :
    c ∈ timeChunks last d hd first ↔ ∃ t, IsStart first last d t ∧ c = timeChunk last d t := by
  fun_induction timeChunks last d hd first with
  | case1 start hlt ih =>
    have hshift : ∀ t, d ∣ t - (start + d) ↔ d ∣ t - start := fun t => by rw [← sub_sub, dvd_sub_self_right]
    rw [mem_cons, ih]
    constructor
    · rintro (rfl | ⟨t, ⟨hle, ht, hdvd⟩, rfl⟩)
      · exact ⟨start, ⟨le_rfl, hlt, by simp⟩, rfl⟩
      · exact ⟨t, ⟨by omega, ht, (hshift t).1 hdvd⟩, rfl⟩
    · rintro ⟨t, ⟨hle, ht, hdvd⟩, rfl⟩
      rcases eq_or_lt_of_le hle with rfl | hnext
      · exact .inl rfl
      · have hstep := Int.le_of_dvd (by omega) hdvd
        exact .inr ⟨t, ⟨by omega, ht, (hshift t).2 hdvd⟩, rfl⟩
  | case2 start hlt =>
    refine iff_of_false not_mem_nil ?_
    rintro ⟨t, ⟨hle, ht, -⟩, -⟩
    omega

theorem start_eq (hdvd : d ∣ t - first) (h1 : t ≤ x) (h2 : x < t + d) :
    t = x - (x - first) % d := by
  obtain ⟨k, hk⟩ := hdvd
  rw [show x - first = x - t + d * k by omega, Int.add_mul_emod_self_left, Int.emod_eq_of_lt (by omega) (by omega)]
  omega

theorem isStart_of_le (hd : 0 < d) (hle : first ≤ x) (hlt : x < last) :
    IsStart first last d (x - (x - first) % d) := by
  have hmod := Int.emod_nonneg (x - first) hd.ne'
  have hdiv := Int.mul_ediv_add_emod (x - first) d
  have hquot := mul_nonneg hd.le (Int.ediv_nonneg (show 0 ≤ x - first by omega) hd.le)
  refine ⟨by omega, by omega, ?_⟩
  rw [sub_right_comm]
  exact Int.dvd_self_sub_emod

variable (first last d) in
/-- Every id is in exactly one of the chunks. -/
def Covers : Prop := ∀ id, ∃! chunk, ((∃ t, IsStart first last d t ∧ chunk = timeChunk last d t) ∨
  chunk = (some (generateMinObjectID last), none)) ∧ Within (· ≤ id) chunk

theorem covers_of_aligned (hd : 0 < d) (hlast : last < 2 ^ 32) (hdvd : d ∣ last - first)
    (hfirst : first = 0 ∨ first + d = 0) (hpos : 0 ≤ last) : Covers first last d := by
  intro id
  have hid := timestamp_bounds id
  -- no chunk is cut short, and the times of a chunk are those between its bounds
  have hwithin : ∀ t, IsStart first last d t → t + d ≤ last ∧
      (Within (· ≤ id) (timeChunk last d t) ↔ t ≤ id.Timestamp ∧ id.Timestamp < t + d) := by
    rintro t ⟨hle, hlt, hmul⟩
    have hcut := Int.le_of_dvd (by omega) (dvd_sub hdvd hmul)
    have hnext : t = first ∨ d ≤ t - first := hle.eq_or_lt.imp Eq.symm fun h => Int.le_of_dvd (by omega) hmul
    rw [within_timeChunk]
    omega
  by_cases hopen : last ≤ id.Timestamp
  · refine ⟨_, ⟨.inr rfl, within_open.2 (by omega)⟩, ?_⟩
    rintro _ ⟨⟨t, ht, rfl⟩ | rfl, hin⟩
    · obtain ⟨hcut, hiff⟩ := hwithin t ht
      have hlt := (hiff.1 hin).2
      omega
    · rfl
  · have hstart := isStart_of_le hd (show first ≤ id.Timestamp by omega) (not_le.1 hopen)
    have hmod := Int.emod_lt_of_pos (id.Timestamp - first) hd
    have hmod' := Int.emod_nonneg (id.Timestamp - first) hd.ne'
    refine ⟨_, ⟨.inl ⟨_, hstart, rfl⟩, (hwithin _ hstart).2.2 (by omega)⟩, ?_⟩
    rintro _ ⟨⟨t, ht, rfl⟩ | rfl, hin⟩
    · obtain ⟨hle, hlt⟩ := (hwithin t ht).2.1 hin
      rw [start_eq ht.2.2 hle hlt]
    · have hle := within_open.1 hin
      omega

/-- The other way round, for the sizes that the strategy uses. -/
theorem aligned_of_covers (hfirst : -600 ≤ first) (hlast : last < 2 ^ 32 + 600) (hle : first + 1200 ≤ last)
    (hd : d = density first last) (h : Covers first last d) :
    last < 2 ^ 32 ∧ d ∣ last - first ∧ (first = 0 ∨ first + d = 0) := by
  rw [density] at hd
  -- no time is both in a chunk of the loop and in the open one
  have honce : ∀ t x, IsStart first last d t → 0 ≤ x → x < 2 ^ 32 → t % 2 ^ 32 ≤ x →
      x < (if last < t + d then last + 1 else t + d) % 2 ^ 32 → x < last % 2 ^ 32 := by
    intro t x ht h0 hx hstart hstop
    by_contra hopen
    obtain ⟨id, rfl⟩ := exists_timestamp h0 hx
    have heq := (h id).unique ⟨.inl ⟨t, ht, rfl⟩, within_timeChunk.2 ⟨hstart, hstop⟩⟩
      ⟨.inr rfl, within_open.2 (by omega)⟩
    simp [timeChunk] at heq
  have hsome : ∀ x, 0 ≤ x → x < last % 2 ^ 32 → ∃ t, IsStart first last d t ∧ t % 2 ^ 32 ≤ x ∧
      x < (if last < t + d then last + 1 else t + d) % 2 ^ 32 := by
    intro x h0 hx
    obtain ⟨id, rfl⟩ := exists_timestamp h0 (by omega)
    obtain ⟨_, ⟨⟨t, ht, rfl⟩ | rfl, hin⟩, -⟩ := h id
    · exact ⟨t, ht, within_timeChunk.1 hin⟩
    · have := within_open.1 hin
      omega
  have hzeroth : IsStart first last d first := ⟨le_rfl, by omega, by simp⟩
  have hend : last < 2 ^ 32 := by
    by_contra hwrap
    by_cases hneg : first < 0
    · have hdouble := honce (first + d) (first + d) ⟨by omega, by omega, by simp⟩
      rw [if_neg (by omega)] at hdouble
      omega
    · have hdouble := fun x => honce first x hzeroth
      rw [if_neg (by omega)] at hdouble
      have h1 := hdouble first
      have h2 := hdouble (last - 2 ^ 32)
      have hstop : first + d < 2 ^ 32 := by omega
      have hroom : last - 2 ^ 32 < first + d := by omega
      omega
  have hstart : first = 0 ∨ first + d = 0 := by
    obtain ⟨t, ⟨hle, hlt, hdvd⟩, hstart, -⟩ := hsome 0 le_rfl (by omega)
    obtain rfl : t = 0 := by omega
    by_contra hno
    have hd1 := Int.le_of_dvd (by omega) hdvd
    have hd2 := Int.le_of_dvd (by omega) (dvd_sub_self_right.2 hdvd)
    -- the first chunk is one of late ids
    have hdouble := honce first (first + 2 ^ 32) hzeroth
    rw [if_neg (by omega)] at hdouble
    omega
  refine ⟨hend, ?_, hstart⟩
  by_contra hcut
  -- the last chunk is cut short, and has the second of `last` or nothing at all
  have hrest : (last - first) % d ≠ 0 := fun h => hcut (Int.dvd_of_emod_eq_zero h)
  have hmod := Int.emod_lt_of_pos (last - first) (show 0 < d by omega)
  have hmod' := Int.emod_nonneg (last - first) (show d ≠ 0 by omega)
  obtain ⟨ht, -, hdvd⟩ := isStart_of_le (show 0 < d by omega) (show first ≤ last by omega) (Int.lt_succ last)
  generalize hshort : last - (last - first) % d = t at ht hdvd
  have hdouble := honce t last ⟨ht, by omega, hdvd⟩
  rw [if_pos (by omega)] at hdouble
  obtain ⟨u, ⟨hu, hult, hudvd⟩, hstart, hstop⟩ := hsome t (by omega) (by omega)
  split at hstop
  · omega
  · have hu := start_eq hudvd (show u ≤ t by omega) (by omega)
    have ht := start_eq hdvd le_rfl (show t < t + d by omega)
    omega

end Chunks

/-! ### The strategy -/

/-- The times of the smallest and the largest `_id` are such that the boundaries begin at time
zero, end at the last boundary, and stay within 32 bits. -/
def Aligned (minTime maxTime : Int) : Prop :=
  let size := 10 * max 1 ((maxTime - minTime + 1200) / 21600)
  maxTime + 600 < 2 ^ 32 ∧ size ∣ maxTime - minTime + 1200 ∧ (minTime = 600 ∨ minTime + size = 600)

theorem mem_timestampStrategy (c : Option ObjectID × Option ObjectID) :
    c ∈ timestampStrategy minID maxID ↔
      (∃ t, IsStart (minID.Timestamp - 600) (maxID.Timestamp + 600)
        (density (minID.Timestamp - 600) (maxID.Timestamp + 600)) t ∧ c = timeChunk (maxID.Timestamp + 600)
        (density (minID.Timestamp - 600) (maxID.Timestamp + 600)) t) ∨
      c = (some (generateMinObjectID (maxID.Timestamp + 600)), none) := by
  rw [timestampStrategy, fetchExtremes, mem_append, mem_timeChunks, mem_singleton]

/-- **When every ObjectID is in exactly one chunk.** -/
theorem timestamp_chunks_cover_iff (minID maxID : ObjectID) (hle : minID ≤ maxID) :
    (∀ id, ∃! chunk, chunk ∈ timestampStrategy minID maxID ∧ Within (· ≤ id) chunk) ↔
      Aligned minID.Timestamp maxID.Timestamp := by
  have hmin := timestamp_bounds minID
  have hmax := timestamp_bounds maxID
  have hsorted : minID.Timestamp ≤ maxID.Timestamp := by
    rw [timestamp_eq, timestamp_eq]
    have hle := BitVec.le_def.1 hle
    omega
  have hdiff : maxID.Timestamp - minID.Timestamp + 1200 =
      maxID.Timestamp + 600 - (minID.Timestamp - 600) := by omega
  rw [Aligned, hdiff, mul_comm, ← density]
  simp only [mem_timestampStrategy]
  constructor
  · intro hcover
    obtain ⟨hlast, hdvd, hfirst⟩ := aligned_of_covers (by omega) (by omega) (by omega) rfl hcover
    exact ⟨hlast, hdvd, by omega⟩
  · rintro ⟨hlast, hdvd, hfirst⟩
    exact covers_of_aligned (density_pos _ _) hlast hdvd (by omega) (by omega)

theorem timestamp_chunks_cover_one : generateMinObjectID 600 ≤ generateMinObjectID 600 ∧ ∀ id, ∃! chunk,
    chunk ∈ timestampStrategy (generateMinObjectID 600) (generateMinObjectID 600) ∧ Within (· ≤ id) chunk := by
  refine ⟨BitVec.le_refl _, (timestamp_chunks_cover_iff _ _ (BitVec.le_refl _)).2 ?_⟩
  unfold Aligned
  decide

/-- A collection with the ids `000000000000000000000001` and `6553f1000000000000000000`: the
first of them is in no chunk. -/
theorem smallest_id_not_covered : ¬ ∃ chunk ∈ timestampStrategy 1 (generateMinObjectID 1700000000),
    Within (· ≤ (1 : ObjectID)) chunk := by
  rintro ⟨chunk, hchunk, hin⟩
  have hmin : (1 : ObjectID).Timestamp = 0 := by decide
  have hmax : (generateMinObjectID 1700000000).Timestamp = 1700000000 := by decide
  rw [mem_timestampStrategy] at hchunk
  rcases hchunk with ⟨t, ⟨hle, hlt, hdvd⟩, rfl⟩ | rfl
  · have hstart := (within_timeChunk.1 hin).1
    obtain rfl : t = 0 := by omega
    exact absurd hdvd (by decide +kernel)
  · have hlast := within_open.1 hin
    omega

end Olake.MongoChunks
