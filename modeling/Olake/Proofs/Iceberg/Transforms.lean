/-
Which numbers are truncated to a multiple of the width.

The width is added to a remainder in integers of the column.  For a value that is not negative
the sum of a large width wraps around, and what is subtracted then is no remainder of the value
(`truncated_iff`).
-/
import Olake.Model.Iceberg.Transforms
import Olake.Proofs.Reformat

namespace Olake.Transforms

open Typeutils

variable {go : GoLib} (conv : Conversions go)

/-- The difference is the greatest multiple when the sum does not wrap around, and only then: the
remainder of a sum that wrapped is not positive. -/
theorem truncated_iff (k : Nat) (hn : 0 < n) (hnw : n < 2 ^ k) (hv : v < 2 ^ k)
    (hr : -2 ^ k ≤ n * (v / n)) : truncated (k + 1) v n = n * (v / n) ↔ v.tmod n + n < 2 ^ k := by
  have hdiv := Int.mul_ediv_add_emod v n
  have hmod := Int.emod_nonneg v hn.ne'
  have hlt := Int.emod_lt_of_pos v hn
  have htmod : v.tmod n = v % n ∨ v.tmod n = v % n - n := by
    rw [Int.tmod_eq_emod]
    split_ifs <;> omega
  unfold truncated
  by_cases hsum : v.tmod n + n < 2 ^ k
  · have hpos : 0 ≤ v.tmod n + n := by omega
    have hrem : (v.tmod n + n) % n = v % n := by rcases htmod with h | h <;> simp [h]
    rw [(bmod_eq_self_iff k).2 ⟨by omega, hsum⟩, Int.tmod_eq_emod_of_nonneg hpos,
      (bmod_eq_self_iff k).2 ⟨by omega, by omega⟩]
    exact iff_of_true (by omega) hsum
  · have hwrap : (v.tmod n + n).bmod (2 ^ (k + 1)) = v.tmod n + n - 2 ^ (k + 1) := by
      rw [← Int.sub_bmod_right]
      push_cast
      exact (bmod_eq_self_iff k).2 ⟨by omega, by omega⟩
    have hneg := Int.tmod_nonneg n (show 0 ≤ -(v.tmod n + n - 2 ^ (k + 1)) by omega)
    have habove := Int.lt_tmod_of_pos (v.tmod n + n - 2 ^ (k + 1)) hn
    rw [Int.neg_tmod] at hneg
    rw [hwrap]
    refine iff_of_false (fun heq => ?_) hsum
    have hdvd := ((Int.bmod_eq_iff (Nat.two_pow_pos _)).1 heq).2.2
    have hle := Int.le_of_dvd (by omega) (Int.dvd_neg.2 hdvd)
    push_cast at hle
    omega

def Fits (type : IntType) (v n : Int) : Prop := type.Holds v ∧ type.Holds n ∧ type.Holds (n * (v / n))

/-- The transform returns the greatest multiple of `n` that is not above `v`. -/
def Truncates (type : IntType) (colType : String) (val : Typeutils.Value go) (v n : Int) : Prop :=
  ∃ r, truncateTransform conv val n colType = .ok (toString r, .int type r) ∧ n ∣ r ∧ r ≤ v ∧ v < r + n

theorem truncates_iff (hn : 0 < n)
    (h : truncateTransform conv val n colType = .ok (toString t, .int type t)) :
    Truncates conv type colType val v n ↔ t = n * (v / n) := by
  have hdiv := Int.mul_ediv_add_emod v n
  have hmod := Int.emod_nonneg v hn.ne'
  have hlt := Int.emod_lt_of_pos v hn
  constructor
  · rintro ⟨r, hr, ⟨k, rfl⟩, hle, hbelow⟩
    rw [h] at hr
    simp only [Except.ok.injEq, Prod.mk.injEq, Typeutils.Value.int.injEq] at hr
    rw [hr.2.2, ((Int.ediv_emod_unique hn).2 ⟨by omega, Int.sub_nonneg.2 hle, by omega⟩ :
      v / n = k ∧ v % n = v - n * k).1]
  · rintro rfl
    exact ⟨_, h, Int.dvd_mul_right _ _, by omega, by omega⟩

/-- **When a number is truncated to the greatest multiple.**  The remainder and the width have a
sum in the type of the column. -/
theorem truncate_multiple_iff (val : Typeutils.Value go) (v n : Int) (hn : 0 < n) :
    (ReformatInt32 conv val = .ok v → Fits .int32 v n →
      (Truncates conv .int32 "int" val v n ↔ v.tmod n + n < 2 ^ 31)) ∧
    (ReformatInt64 conv val = .ok v → Fits .int64 v n →
      (Truncates conv .int64 "long" val v n ↔ v.tmod n + n < 2 ^ 63)) := by
  refine ⟨fun hval ⟨⟨_, hv⟩, ⟨_, hnw⟩, hr, _⟩ => ?_, fun hval ⟨⟨_, hv⟩, ⟨_, hnw⟩, hr, _⟩ => ?_⟩
  · have hle : ¬ 2 ^ 31 - 1 < n := not_lt.2 (Int.le_sub_one_of_lt hnw)
    rw [← truncated_iff 31 hn hnw hv hr]
    exact truncates_iff conv hn (by
      simp only [truncateTransform, hval, if_neg hn.not_ge, if_neg hle, bind, Except.bind])
  · rw [← truncated_iff 63 hn hnw hv hr]
    exact truncates_iff conv hn (by
      simp only [truncateTransform, hval, if_neg hn.not_ge, bind, Except.bind])

theorem truncate_negative :
    Fits .int64 (-7) 5 ∧ Truncates rangeConversions .int64 "long" (.int .int64 (-7)) (-7) 5 :=
  have hfits : Fits .int64 (-7) 5 :=
    ⟨⟨by decide, by decide⟩, ⟨by decide, by decide⟩, by decide, by decide⟩
  ⟨hfits, ((truncate_multiple_iff rangeConversions (.int .int64 (-7)) (-7) 5 (by decide)).2 rfl hfits).2
    (by decide)⟩

/-- The largest width that a column of 32 bits accepts. -/
theorem largest_width_overflows :
    Fits .int32 5 2147483647 ∧ ¬ Truncates rangeConversions .int32 "int" (.int .int32 5) 5 2147483647 := by
  have hfits : Fits .int32 5 2147483647 :=
    ⟨⟨by decide, by decide⟩, ⟨by decide, by decide⟩, by decide, by decide⟩
  refine ⟨hfits, ?_⟩
  rw [truncates_iff rangeConversions (t := -2147483647) (by decide) rfl]
  decide

end Olake.Transforms
