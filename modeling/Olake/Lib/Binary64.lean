/-
Integers as IEEE 754 double-precision numbers.

An untyped JSON number is read as the double nearest to it, ties to the even
significand; `round` is that reading on natural numbers, where neither the
exponent range nor the sign of zero matters.  `Exact` numbers are the ones a
double can hold, a significand below `2 ^ 53` times a power of two, and they are
exactly the fixed points of `round` (`round_eq_self`).

A double is printed with the fewest digits that read back as the same double
(`shortest`).  The `%v` form, `general`, writes these digits out below `10 ^ 6`
and in exponent form from there on, so it is the integer's own decimal exactly
below `10 ^ 6` (`general_round_append`).
-/
import Mathlib.Data.Nat.Digits.Lemmas

namespace Binary64

open List

/-! ### Rounding -/

/-- The number has a significand of at most 53 bits. -/
def Exact (n : Nat) : Prop := ∃ m k, m < 2 ^ 53 ∧ n = m * 2 ^ k

/-- The dropped bits of a number with more than 53: the exponent of its last kept bit. -/
def ulp (n : Nat) : Nat := Nat.log2 n - 52

/-- The double nearest to `n`, ties to even. -/
def round (n : Nat) : Nat :=
  let q := n / 2 ^ ulp n
  let r := n % 2 ^ ulp n
  if 2 ^ ulp n < 2 * r ∨ (2 * r = 2 ^ ulp n ∧ q % 2 = 1) then (q + 1) * 2 ^ ulp n
  else q * 2 ^ ulp n

variable {n : Nat}

theorem ulp_of_lt (h : n < 2 ^ 53) : ulp n = 0 := by
  unfold ulp
  rcases Nat.eq_zero_or_pos n with rfl | hn
  · rfl
  · have := (Nat.log2_lt hn.ne').2 h
    omega

theorem two_pow_le_of_le (h : 2 ^ 53 ≤ n) : 2 ^ (52 + ulp n) ≤ n := by
  have hn : n ≠ 0 := by rintro rfl; norm_num at h
  have h53 : 53 ≤ Nat.log2 n := (Nat.le_log2 hn).2 h
  have : 52 + ulp n = Nat.log2 n := by unfold ulp; omega
  rw [this]
  exact (Nat.le_log2 hn).1 le_rfl

theorem lt_two_pow_ulp (n : Nat) : n < 2 ^ (53 + ulp n) := by
  rcases Nat.eq_zero_or_pos n with rfl | hn
  · exact Nat.two_pow_pos _
  · refine (Nat.log2_lt hn.ne').1 ?_
    unfold ulp
    omega

theorem quot_lt (n : Nat) : n / 2 ^ ulp n < 2 ^ 53 := by
  rw [Nat.div_lt_iff_lt_mul (Nat.two_pow_pos _), ← pow_add]
  exact lt_two_pow_ulp n

theorem round_exact (n : Nat) : Exact (round n) := by
  unfold round
  dsimp only
  split
  · rcases (Nat.succ_le_of_lt (quot_lt n)).lt_or_eq with h | h
    · exact ⟨_, _, h, rfl⟩
    · -- the significand overflowed to `2 ^ 53`
      refine ⟨1, 53 + ulp n, by norm_num, ?_⟩
      rw [show n / 2 ^ ulp n + 1 = 2 ^ 53 from h, pow_add, one_mul]
  · exact ⟨_, _, quot_lt n, rfl⟩

theorem round_of_dvd (h : 2 ^ ulp n ∣ n) : round n = n := by
  unfold round
  have hr : n % 2 ^ ulp n = 0 := Nat.mod_eq_zero_of_dvd h
  have hpos : 0 < 2 ^ ulp n := Nat.two_pow_pos _
  rw [if_neg (by omega)]
  exact Nat.div_mul_cancel h

theorem round_of_lt (h : n < 2 ^ 53) : round n = n :=
  round_of_dvd (by rw [ulp_of_lt h]; exact one_dvd n)

theorem round_of_exact (h : Exact n) : round n = n := by
  obtain ⟨m, k, hm, rfl⟩ := h
  rcases lt_or_ge (m * 2 ^ k) (2 ^ 53) with hlt | hge
  · exact round_of_lt hlt
  · -- a significand below `2 ^ 53` leaves no dropped bit set
    refine round_of_dvd (Dvd.dvd.mul_left (pow_dvd_pow 2 ?_) m)
    have hlow := two_pow_le_of_le hge
    have hhigh : m * 2 ^ k < 2 ^ (53 + k) := by
      rw [pow_add]
      exact Nat.mul_lt_mul_of_pos_right hm (Nat.two_pow_pos k)
    have := (Nat.pow_lt_pow_iff_right (by norm_num : 1 < 2)).1 (hlow.trans_lt hhigh)
    omega

theorem round_eq_self : round n = n ↔ Exact n := ⟨fun h => h ▸ round_exact n, round_of_exact⟩

@[simp] theorem round_round (n : Nat) : round (round n) = round n :=
  round_of_exact (round_exact n)

/-- A number with more than 53 bits is not rounded down below `2 ^ 52`. -/
theorem le_round_of_le (h : 2 ^ 53 ≤ n) : 2 ^ 52 ≤ round n := by
  have hq : 2 ^ 52 ≤ n / 2 ^ ulp n := by
    rw [Nat.le_div_iff_mul_le (Nat.two_pow_pos _), ← pow_add]
    exact two_pow_le_of_le h
  have hpos : 1 ≤ 2 ^ ulp n := Nat.one_le_two_pow
  unfold round
  dsimp only
  split <;> nlinarith

theorem round_eq_of_round_lt (h : round n < 2 ^ 52) : round n = n := by
  rcases lt_or_ge n (2 ^ 53) with hlt | hge
  · exact round_of_lt hlt
  · exact absurd (le_round_of_le hge) (Nat.not_le.2 h)

/-! ### Decimals -/

def digit (d : Nat) : UInt8 := (48 + d).toUInt8

def decimal (n : Nat) : List UInt8 :=
  if n = 0 then [digit 0] else ((Nat.digits 10 n).map digit).reverse

theorem mem_decimal (h : c ∈ decimal n) : ∃ d < 10, c = digit d := by
  unfold decimal at h
  split at h
  · exact ⟨0, by norm_num, by simpa using h⟩
  · rw [mem_reverse, mem_map] at h
    obtain ⟨d, hd, rfl⟩ := h
    exact ⟨d, Nat.digits_lt_base (by norm_num) hd, rfl⟩

/-- The decimal of a number tells the number. -/
theorem ofDigits_decimal (n : Nat) :
    Nat.ofDigits 10 ((decimal n).reverse.map fun c => c.toNat - 48) = n := by
  have hdigit : ∀ d < 10, (digit d).toNat - 48 = d := by decide
  unfold decimal
  split
  next h => simpa [h] using hdigit 0 (by norm_num)
  next =>
    rw [reverse_reverse, map_map]
    have hid : (Nat.digits 10 n).map ((fun c => c.toNat - 48) ∘ digit) = Nat.digits 10 n := by
      conv_rhs => rw [← map_id (Nat.digits 10 n)]
      exact map_congr_left fun d hd => hdigit d (Nat.digits_lt_base (by norm_num) hd)
    rw [hid, Nat.ofDigits_digits]

theorem decimal_injective : Function.Injective decimal := by
  intro m n h
  rw [← ofDigits_decimal m, h, ofDigits_decimal]

theorem length_decimal_le (hk : 0 < k) : (decimal n).length ≤ k ↔ n < 10 ^ k := by
  unfold decimal
  split
  next h =>
    subst h
    simpa using Nat.one_le_iff_ne_zero.2 hk.ne'
  next h =>
    rw [length_reverse, length_map, ← Nat.not_lt,
      Nat.lt_digits_length_iff (by norm_num), Nat.not_le]

theorem decimal_ne_nil (n : Nat) : decimal n ≠ [] := by
  unfold decimal
  split
  · simp
  next h => simpa [Nat.digits_eq_nil_iff_eq_zero] using h

/-! ### Printing a double -/

/-- The number with the fewest digits, then the nearest one, that is read as `x`,
among those with at most `j` zeros at their end. -/
def shortestFrom (x : Nat) : Nat → Nat
  | 0 => x
  | j + 1 =>
    let lo := x / 10 ^ (j + 1) * 10 ^ (j + 1)
    let hi := lo + 10 ^ (j + 1)
    if round lo = x ∧ (round hi ≠ x ∨ x - lo ≤ hi - x) then lo
    else if round hi = x then hi
    else shortestFrom x j

/-- The digits a double is printed with, filled up with zeros to its magnitude. -/
def shortest (x : Nat) : Nat := shortestFrom x (decimal x).length

variable {x : Nat}

theorem round_shortestFrom (hx : round x = x) (j : Nat) : round (shortestFrom x j) = x := by
  induction j with
  | zero => exact hx
  | succ j ih =>
    unfold shortestFrom
    dsimp only
    split
    next h => exact h.1
    next =>
      split
      next h => exact h
      next => exact ih

theorem round_shortest (hx : round x = x) : round (shortest x) = x := round_shortestFrom hx _

theorem shortest_of_lt (h : x < 2 ^ 52) : shortest x = x := by
  have hr : round (shortest x) = x := round_shortest (round_of_lt (h.trans (by norm_num)))
  have hlt : round (shortest x) < 2 ^ 52 := by rw [hr]; exact h
  exact (round_eq_of_round_lt hlt).symm.trans hr

def trimZeros (l : List UInt8) : List UInt8 :=
  (l.reverse.dropWhile (· = digit 0)).reverse

def fraction (l : List UInt8) : List UInt8 :=
  if l = [] then [] else 46 :: l

/-- An exponent, with at least two digits. -/
def exponent (e : Nat) : List UInt8 :=
  if e < 10 then digit 0 :: decimal e else decimal e

/-- The `%v` form of the double `x`: exponent form from seven digits on. -/
def general (x : Nat) : List UInt8 :=
  match decimal (shortest x) with
  | [] => []
  | d :: ds =>
    if ds.length < 6 then d :: ds
    else d :: (fraction (trimZeros ds) ++ 101 :: 43 :: exponent ds.length)

theorem general_of_lt (h : x < 10 ^ 6) : general x = decimal x := by
  unfold general
  rw [shortest_of_lt (h.trans (by norm_num))]
  have hlen := (length_decimal_le (by norm_num)).2 h
  split
  next hd => exact hd.symm
  next d ds hd =>
    rw [hd, length_cons] at hlen
    rw [if_pos (by omega), hd]

/-- From `10 ^ 6` on a point or an exponent follows the first digit. -/
theorem general_of_le (hx : round x = x) (h : 10 ^ 6 ≤ x) :
    ∃ d c rest, general x = d :: c :: rest ∧ (c = 46 ∨ c = 101) := by
  have hs : 10 ^ 6 ≤ shortest x := by
    by_contra hlt
    have : round (shortest x) = shortest x := round_of_lt (by omega)
    rw [round_shortest hx] at this
    omega
  unfold general
  split
  next hd => exact absurd hd (decimal_ne_nil _)
  next d ds hd =>
    have hlen : ¬ ds.length < 6 := by
      intro hlt
      have := (length_decimal_le (by norm_num)).1 (by rw [hd, length_cons]; omega :
        (decimal (shortest x)).length ≤ 6)
      omega
    rw [if_neg hlen]
    unfold fraction
    split
    · exact ⟨d, 101, _, rfl, .inr rfl⟩
    · exact ⟨d, 46, _, rfl, .inl rfl⟩

/-- A number and the double it is read as, both printed and followed by the same
separator, agree only below `10 ^ 6`. -/
theorem general_round_append
    (h : general (round n) ++ s :: v = decimal n ++ s :: u) : n < 10 ^ 6 := by
  by_contra hn
  have hround : 10 ^ 6 ≤ round n := by
    rcases lt_or_ge n (2 ^ 53) with hlt | hge
    · rw [round_of_lt hlt]; omega
    · exact le_trans (by norm_num) (le_round_of_le hge)
  obtain ⟨d, c, rest, hg, hc⟩ := general_of_le (round_round n) hround
  have hlen : ¬ (decimal n).length ≤ 1 := by
    rw [length_decimal_le (by norm_num)]
    omega
  match hd : decimal n, hlen with
  | [], hlen => simp at hlen
  | [_], hlen => simp at hlen
  | a :: b :: tail, _ =>
    rw [hg, hd] at h
    simp only [cons_append, cons.injEq] at h
    obtain ⟨k, hk, rfl⟩ := mem_decimal (n := n) (c := b) (by rw [hd]; simp)
    have hcb : c = digit k := h.2.1
    subst hcb
    -- neither sign is a digit
    have : ∀ k < 10, ¬ (digit k = 46 ∨ digit k = 101) := by decide
    exact this k hk hc

example : round (2 ^ 53 + 1) = 2 ^ 53 := by decide
example : general 1234567 = [49, 46, 50, 51, 52, 53, 54, 55, 101, 43, 48, 54] := by decide

end Binary64
