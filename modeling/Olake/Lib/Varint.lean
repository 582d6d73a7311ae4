/-
Integers as bytes: eight bytes with the highest first, and varints.

A varint has seven bits in each byte, the lowest first, and every byte but the last has its high
bit set; ten bytes are enough for 64 bits, and the tenth has one bit.  A signed number is mapped
to an unsigned one that has the sign in its lowest bit.  Each kind is read back as it was written,
whatever follows it (`get64_put64`, `uvarint_putUvarint`, `varint_putVarint`).
-/
import Mathlib.Algebra.Ring.Nat
import Mathlib.Data.List.Basic

namespace Varint

open List

/-! ### Eight bytes -/

/-- A number in so many bytes, the highest first. -/
def bigEndian : Nat → Nat → List UInt8
  | 0, _ => []
  | k + 1, n => bigEndian k (n / 256) ++ [UInt8.ofNat n]

variable (bytes : List UInt8)

def ofBigEndian : Nat := bytes.foldl (fun acc b => acc * 256 + b.toNat) 0

def put64 (n : UInt64) : List UInt8 := bigEndian 8 n.toNat

def get64 : UInt64 := UInt64.ofNat (ofBigEndian bytes)

theorem length_bigEndian (k n : Nat) : (bigEndian k n).length = k := by
  induction k generalizing n with
  | zero => rfl
  | succ k ih => rw [bigEndian, length_append, ih, length_singleton]

theorem ofBigEndian_bigEndian (k n : Nat) : ofBigEndian (bigEndian k n) = n % 256 ^ k := by
  induction k generalizing n with
  | zero => simp [bigEndian, ofBigEndian, Nat.mod_one]
  | succ k ih =>
    have hlast : ofBigEndian (bigEndian k (n / 256) ++ [UInt8.ofNat n]) =
        ofBigEndian (bigEndian k (n / 256)) * 256 + (UInt8.ofNat n).toNat := by
      simp [ofBigEndian]
    rw [bigEndian, hlast, ih, pow_succ', Nat.mod_mul, UInt8.toNat_ofNat']
    omega

theorem length_put64 (n : UInt64) : (put64 n).length = 8 := length_bigEndian 8 _

theorem get64_put64 (n : UInt64) : get64 (put64 n) = n := by
  have hlt : n.toNat < 256 ^ 8 := n.toNat_lt
  rw [get64, put64, ofBigEndian_bigEndian, Nat.mod_eq_of_lt hlt, UInt64.ofNat_toNat]

theorem put64_injective : Function.Injective put64 := Function.LeftInverse.injective get64_put64

/-! ### Unsigned varints -/

/-- A number in at most so many bytes and one more. -/
def uvarintBytes : Nat → Nat → List UInt8
  | 0, n => [UInt8.ofNat n]
  | k + 1, n => if n < 128 then [UInt8.ofNat n] else UInt8.ofNat (n % 128 + 128) :: uvarintBytes k (n / 128)

def putUvarint (n : UInt64) : List UInt8 := uvarintBytes 9 n.toNat

/-- Reading on from byte `i`, with what was read so far. -/
def uvarintFrom : Nat → Nat → List UInt8 → Option (Nat × Nat)
  | _, _, [] => none
  | i, acc, b :: rest =>
    if i = 10 then none
    else if b.toNat < 128 then
      if i = 9 ∧ 1 < b.toNat then none else some (acc + b.toNat * 2 ^ (7 * i), i + 1)
    else uvarintFrom (i + 1) (acc + b.toNat % 128 * 2 ^ (7 * i)) rest

/-- A number and how many bytes it takes, unless the bytes end in it or it does not fit. -/
def uvarint : Option (UInt64 × Nat) :=
  (uvarintFrom 0 0 bytes).map (fun out => (UInt64.ofNat out.1, out.2))

theorem uvarintFrom_uvarintBytes (hlast : i + k = 9) (hn : n < 2 ^ (7 * k + 1)) (acc : Nat)
    (rest : List UInt8) :
    uvarintFrom i acc (uvarintBytes k n ++ rest) = some (acc + n * 2 ^ (7 * i), i + (uvarintBytes k n).length) := by
  have hsmall : ∀ m, m < 256 → (UInt8.ofNat m).toNat = m := fun m hm => by
    rw [UInt8.toNat_ofNat', Nat.mod_eq_of_lt hm]
  induction k generalizing i n acc with
  | zero =>
    have hone : (UInt8.ofNat n).toNat = n := hsmall n (by omega)
    simp only [uvarintBytes, singleton_append, uvarintFrom, hone]
    rw [if_neg (by omega), if_pos (by omega), if_neg (by omega)]
    rfl
  | succ k ih =>
    rw [uvarintBytes]
    split
    · have hone : (UInt8.ofNat n).toNat = n := hsmall n (by omega)
      simp only [singleton_append, uvarintFrom, hone]
      rw [if_neg (by omega), if_pos (by omega), if_neg (by omega)]
      rfl
    · have hbyte : (UInt8.ofNat (n % 128 + 128)).toNat = n % 128 + 128 := hsmall _ (by omega)
      have hshift : n / 128 < 2 ^ (7 * k + 1) := by
        rw [Nat.div_lt_iff_lt_mul (by decide)]
        calc n < 2 ^ (7 * (k + 1) + 1) := hn
          _ = 2 ^ (7 * k + 1) * 128 := by rw [show 7 * (k + 1) + 1 = 7 * k + 1 + 7 by omega, pow_add]; rfl
      simp only [cons_append, uvarintFrom, hbyte]
      rw [if_neg (by omega), if_neg (by omega), ih (by omega) hshift, length_cons]
      -- the bits of the byte and those above it make up the number
      have hsum : (n % 128 + 128) % 128 * 2 ^ (7 * i) + n / 128 * 2 ^ (7 * (i + 1)) = n * 2 ^ (7 * i) := by
        rw [show 7 * (i + 1) = 7 + 7 * i by omega, pow_add, ← mul_assoc, ← add_mul]
        congr 1
        omega
      rw [add_assoc acc, hsum]
      congr 2
      omega

theorem uvarint_putUvarint (n : UInt64) (rest : List UInt8) :
    uvarint (putUvarint n ++ rest) = some (n, (putUvarint n).length) := by
  have hn : n.toNat < 2 ^ (7 * 9 + 1) := n.toNat_lt
  rw [uvarint, putUvarint, uvarintFrom_uvarintBytes rfl hn]
  simp

/-! ### Signed varints -/

/-- The sign in the lowest bit. -/
def zigzag (n : Int64) : UInt64 := if 0 ≤ n.toInt then UInt64.ofNat (2 * n.toInt.toNat)
  else UInt64.ofNat (2 * (-n.toInt).toNat - 1)

def unzigzag (n : UInt64) : Int64 := if n.toNat % 2 = 0 then Int64.ofInt (n.toNat / 2 : Nat)
  else Int64.ofInt (-(n.toNat / 2 : Nat) - 1)

def putVarint (n : Int64) : List UInt8 := putUvarint (zigzag n)

def varint : Option (Int64 × Nat) :=
  (uvarint bytes).map (fun out => (unzigzag out.1, out.2))

theorem unzigzag_zigzag (n : Int64) : unzigzag (zigzag n) = n := by
  have hlt := n.toInt_lt
  have hle := n.le_toInt
  unfold zigzag
  split
  · next hpos =>
    have hnat : (UInt64.ofNat (2 * n.toInt.toNat)).toNat = 2 * n.toInt.toNat := by
      rw [UInt64.toNat_ofNat', Nat.mod_eq_of_lt (by omega)]
    have hhalf : ((2 * n.toInt.toNat / 2 : Nat) : Int) = n.toInt := by omega
    rw [unzigzag, hnat, if_pos (by omega), hhalf, Int64.ofInt_toInt]
  · next hneg =>
    have hnat : (UInt64.ofNat (2 * (-n.toInt).toNat - 1)).toNat = 2 * (-n.toInt).toNat - 1 := by
      rw [UInt64.toNat_ofNat', Nat.mod_eq_of_lt (by omega)]
    have hhalf : -(((2 * (-n.toInt).toNat - 1) / 2 : Nat) : Int) - 1 = n.toInt := by omega
    rw [unzigzag, hnat, if_neg (by omega), hhalf, Int64.ofInt_toInt]

theorem varint_putVarint (n : Int64) (rest : List UInt8) :
    varint (putVarint n ++ rest) = some (n, (putVarint n).length) := by
  rw [varint, putVarint, uvarint_putUvarint, Option.map_some, unzigzag_zigzag]

end Varint
