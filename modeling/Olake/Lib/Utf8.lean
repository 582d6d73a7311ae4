/-
Byte strings and UTF-8.

A Go string is a list of bytes, not necessarily UTF-8.  A JSON encoder writes
only UTF-8: it walks over the string, copies every character it can decode and
writes the replacement character U+FFFD for each byte it cannot.  `toValid` is
that walk, `Valid` says that it never meets such a byte.

The walk changes exactly the strings that are not UTF-8 (`toValid_eq_self`), and
it changes them recognisably: an altered string cannot be mistaken for the
original one even when both are followed by more text, as long as that text
starts with the same ASCII separator (`valid_of_toValid_append`).
-/
import Mathlib.Data.List.Basic

namespace Utf8

open List

def ascii (s : String) : List UInt8 :=
  s.toList.map fun c => c.toNat.toUInt8

/-- A continuation byte. -/
abbrev IsTail (b : UInt8) : Prop := 0x80 ≤ b ∧ b ≤ 0xBF

/-- The range of the second byte after the first byte `a` of a longer character:
overlong forms, surrogates and values past U+10FFFF are cut off here. -/
abbrev Second (a b : UInt8) : Prop :=
  (if a = 0xE0 then 0xA0 else if a = 0xF0 then 0x90 else 0x80) ≤ b ∧
    b ≤ (if a = 0xED then 0x9F else if a = 0xF4 then 0x8F else 0xBF)

/-- The bytes that follow the first byte `a` in the character at the head of
`a :: s`, or nothing where no character starts. -/
def follow (a : UInt8) (s : List UInt8) : Option Nat :=
  if a < 0x80 then some 0
  else if 0xC2 ≤ a ∧ a ≤ 0xDF then
    match s with
    | b :: _ => if IsTail b then some 1 else none
    | _ => none
  else if 0xE0 ≤ a ∧ a ≤ 0xEF then
    match s with
    | b :: c :: _ => if Second a b ∧ IsTail c then some 2 else none
    | _ => none
  else if 0xF0 ≤ a ∧ a ≤ 0xF4 then
    match s with
    | b :: c :: d :: _ => if Second a b ∧ IsTail c ∧ IsTail d then some 3 else none
    | _ => none
  else none

/-- The walk with `n` bytes of the current character still to be copied. -/
def toValidFrom : Nat → List UInt8 → List UInt8
  | _, [] => []
  | n + 1, a :: s => a :: toValidFrom n s
  | 0, a :: s =>
    match follow a s with
    | some n => a :: toValidFrom n s
    | none => 0xEF :: 0xBF :: 0xBD :: toValidFrom 0 s

/-- The string with every byte that starts no character replaced by U+FFFD. -/
def toValid (s : List UInt8) : List UInt8 := toValidFrom 0 s

/-- Every byte met from here on starts a character or belongs to one. -/
def validFrom : Nat → List UInt8 → Bool
  | _, [] => true
  | n + 1, _ :: s => validFrom n s
  | 0, a :: s =>
    match follow a s with
    | some n => validFrom n s
    | none => false

/-- The string is UTF-8. -/
abbrev Valid (s : List UInt8) : Prop := validFrom 0 s = true

variable {s : List UInt8}

theorem toValidFrom_of_valid (h : validFrom n s = true) : toValidFrom n s = s := by
  induction s generalizing n with
  | nil => cases n <;> rfl
  | cons a s ih =>
    cases n with
    | succ n => exact congrArg (a :: ·) (ih h)
    | zero =>
      cases hf : follow a s with
      | none => simp [validFrom, hf] at h
      | some n =>
        simp only [validFrom, hf] at h
        simp only [toValidFrom, hf, ih h]

theorem valid_of_ascii (h : ∀ c ∈ s, c < 0x80) : Valid s := by
  unfold Valid
  induction s with
  | nil => rfl
  | cons a s ih =>
    have ha : follow a s = some 0 := if_pos (h a mem_cons_self)
    simp only [validFrom, ha]
    exact ih fun c hc => h c (mem_cons_of_mem a hc)

theorem follow_replacement (s : List UInt8) : follow 0xEF (0xBF :: 0xBD :: s) = some 2 := rfl

/-- Where the walk replaced something, the string and its image cannot agree up
to a separator `c` both are followed by: the image has U+FFFD there, and bytes
that spell U+FFFD in the string would have been copied. -/
theorem validFrom_of_toValidFrom_append (hc : c < 0x80)
    (h : toValidFrom n s ++ c :: y = s ++ c :: x) : validFrom n s = true := by
  induction s generalizing n with
  | nil => cases n <;> rfl
  | cons a s ih =>
    cases n with
    | succ n => exact ih (tail_eq_of_cons_eq h)
    | zero =>
      cases hf : follow a s with
      | some n =>
        simp only [toValidFrom, hf] at h
        simp only [validFrom, hf]
        exact ih (tail_eq_of_cons_eq h)
      | none =>
        simp only [toValidFrom, hf, cons_append, cons.injEq] at h
        obtain ⟨rfl, h⟩ := h
        -- the string goes on as U+FFFD does, or ends and the separator would be one of its bytes
        match s, h with
        | [], h =>
          simp only [nil_append, cons.injEq] at h
          exact absurd (h.1 ▸ hc) (by decide)
        | [b], h =>
          simp only [cons_append, nil_append, cons.injEq] at h
          exact absurd (h.2.1 ▸ hc) (by decide)
        | b :: d :: s, h =>
          simp only [cons_append, cons.injEq] at h
          obtain ⟨rfl, rfl, -⟩ := h
          simp [follow_replacement] at hf

theorem toValid_of_valid (h : Valid s) : toValid s = s := toValidFrom_of_valid h

theorem valid_of_toValid_append (hc : c < 0x80) (h : toValid s ++ c :: y = s ++ c :: x) : Valid s :=
  validFrom_of_toValidFrom_append hc h

theorem toValid_eq_self : toValid s = s ↔ Valid s :=
  ⟨fun h => valid_of_toValid_append (c := 0) (by decide) (x := []) (y := []) (by rw [h]),
    toValid_of_valid⟩

/-! ### The walk reaches UTF-8 -/

/-- Whether a character starts here depends on its own bytes only. -/
theorem follow_take (h : follow a s = some n) (t : List UInt8)
    : follow a (s.take n ++ t) = some n := by
  rcases s with _ | ⟨b, _ | ⟨c, _ | ⟨d, s⟩⟩⟩ <;> simp only [follow] at h <;>
    split_ifs at h <;> cases h <;> simp [follow, *]

theorem toValidFrom_eq_take (n : Nat) (s : List UInt8) :
    toValidFrom n s = s.take n ++ toValidFrom 0 (s.drop n) := by
  induction n generalizing s with
  | zero => rfl
  | succ n ih =>
    cases s with
    | nil => rfl
    | cons a s => exact congrArg (a :: ·) (ih s)

theorem validFrom_toValidFrom (n : Nat) (s : List UInt8) :
    validFrom n (toValidFrom n s) = true := by
  induction s generalizing n with
  | nil => cases n <;> rfl
  | cons a s ih =>
    cases n with
    | succ n => exact ih n
    | zero =>
      cases hf : follow a s with
      | some n =>
        have hcopy : follow a (toValidFrom n s) = some n := by
          rw [toValidFrom_eq_take]
          exact follow_take hf _
        simp only [toValidFrom, hf, validFrom, hcopy, ih n]
      | none => simp only [toValidFrom, hf, validFrom, follow_replacement, ih 0]

@[simp] theorem toValid_toValid (s : List UInt8) : toValid (toValid s) = toValid s :=
  toValid_of_valid (validFrom_toValidFrom 0 s)

end Utf8
