/-
A store of keys and values, both bytes, that is changed by batches.

A batch sets keys and deletes ranges of keys, in order, and takes effect as a whole.  Keys are
ordered byte by byte, so the range from one byte to the next has the keys that start with this
byte (`mem_byteRange`).  A store has no more different keys than its size (`length_le_size`),
which a batch adds no more to than its length.
-/
import Mathlib.Data.List.Lemmas
import Mathlib.Data.List.Perm.Subperm

structure ByteStore where
  entries : List (List UInt8 × List UInt8)
  nodup : (entries.map Prod.fst).Nodup

namespace ByteStore

open List

def empty : ByteStore := ⟨[], List.nodup_nil⟩

variable (s : ByteStore)

def get (key : List UInt8) : Option (List UInt8) := s.entries.lookup key

def size : Nat := s.entries.length

def keep (p : List UInt8 → Bool) : ByteStore :=
  ⟨s.entries.filter (fun entry => p entry.1), s.nodup.sublist (List.filter_sublist.map Prod.fst)⟩

theorem get_keep (p : List UInt8 → Bool) (key : List UInt8) :
    (s.keep p).get key = if p key then s.get key else none := by
  obtain ⟨entries, hnodup⟩ := s
  simp only [get, keep]
  clear hnodup
  induction entries with
  | nil => simp
  | cons entry rest ih =>
    obtain ⟨k, v⟩ := entry
    by_cases hk : key = k
    · subst hk
      by_cases hp : p key
      · simp [hp]
      · simpa [hp] using ih
    · by_cases hp : p k
      · rw [filter_cons_of_pos (by simpa using hp), lookup_cons, lookup_cons]
        simpa [beq_false_of_ne hk] using ih
      · rw [filter_cons_of_neg (by simpa using hp), lookup_cons]
        simpa [beq_false_of_ne hk] using ih

def set (key value : List UInt8) : ByteStore where
  entries := (key, value) :: (s.keep (fun k => k ≠ key)).entries
  nodup := by
    refine List.nodup_cons.mpr ⟨fun hmem => ?_, (s.keep _).nodup⟩
    obtain ⟨entry, hentry, hkey⟩ := List.mem_map.mp hmem
    simpa [hkey] using (List.mem_filter.mp hentry).2

theorem get_set (key value k : List UInt8) :
    (s.set key value).get k = if k = key then some value else s.get k := by
  by_cases hk : k = key
  · subst hk
    simp [get, set]
  · have hrest := get_keep s (fun k => k ≠ key) k
    simp only [get] at hrest
    simp only [get, set, lookup_cons, beq_false_of_ne hk]
    rw [hrest]
    simp [hk]

def deleteRange (start stop : List UInt8) : ByteStore :=
  s.keep (fun k => !(decide (¬ k < start) && decide (k < stop)))

inductive Op where
  | set (key value : List UInt8)
  | deleteRange (start stop : List UInt8)

def apply : Op → ByteStore
  | .set key value => s.set key value
  | .deleteRange start stop => s.deleteRange start stop

def commit (batch : List Op) : ByteStore := batch.foldl apply s

theorem size_commit_le (batch : List Op) : (s.commit batch).size ≤ s.size + batch.length := by
  have hkeep : ∀ (s : ByteStore) p, (s.keep p).size ≤ s.size := fun _ _ => length_filter_le _ _
  have happly : ∀ (s : ByteStore) op, (s.apply op).size ≤ s.size + 1 := by
    intro s op
    cases op with
    | set key value => exact Nat.succ_le_succ (hkeep s _)
    | deleteRange start stop => exact (hkeep s _).trans (Nat.le_succ _)
  induction batch generalizing s with
  | nil => exact Nat.le_refl _
  | cons op rest ih =>
    have hrest := ih (s.apply op)
    have hop := happly s op
    simp only [commit, foldl_cons, length_cons] at hrest ⊢
    omega

theorem mem_byteRange (hc : c.toNat = b.toNat + 1) (a : UInt8) (rest : List UInt8) :
    (¬ a :: rest < [b] ∧ a :: rest < [c]) ↔ a = b := by
  simp only [cons_lt_cons_iff, not_lt_nil, and_false, or_false, UInt8.lt_iff_toNat_lt, ← UInt8.toNat_inj]
  omega

theorem get_deleteRange_byte (hc : c.toNat = b.toNat + 1) (a : UInt8) (rest : List UInt8) :
    (s.deleteRange [b] [c]).get (a :: rest) = if a = b then none else s.get (a :: rest) := by
  rw [deleteRange, get_keep]
  by_cases ha : a = b
  · simp [ha, (mem_byteRange hc b rest).2 rfl]
  · have hout : ¬ (¬ a :: rest < [b] ∧ a :: rest < [c]) := fun h => ha ((mem_byteRange hc a rest).1 h)
    rw [if_neg ha, if_pos]
    rw [Bool.not_eq_true', Bool.and_eq_false_iff, decide_eq_false_iff_not, decide_eq_false_iff_not]
    exact not_and_or.1 hout

theorem length_le_size {keys : List (List UInt8)} (hnodup : keys.Nodup)
    (h : ∀ key ∈ keys, (s.get key).isSome) : keys.length ≤ s.size := by
  have hsubset : keys ⊆ s.entries.map Prod.fst := by
    intro key hkey
    obtain ⟨value, hvalue⟩ := Option.isSome_iff_exists.1 (h key hkey)
    obtain ⟨before, after, hentries, -⟩ := lookup_eq_some_iff.1 hvalue
    simp [hentries]
  simpa [size] using (subperm_of_subset hnodup hsubset).length_le

end ByteStore
