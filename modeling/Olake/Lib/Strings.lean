/-
Trimming of texts, as Go's `strings` package does it.
-/
import Mathlib.Data.List.Basic

namespace Strings

/-- `unicode.IsSpace`. -/
def isSpace (c : Char) : Bool :=
  (9 ≤ c.toNat && c.toNat ≤ 13) || (0x2000 ≤ c.toNat && c.toNat ≤ 0x200A) ||
    [0x20, 0x85, 0xA0, 0x1680, 0x2028, 0x2029, 0x202F, 0x205F, 0x3000].contains c.toNat

/-- `strings.TrimFunc`. -/
def trimFunc (cut : Char → Bool) (s : List Char) : List Char :=
  ((s.dropWhile cut).reverse.dropWhile cut).reverse

/-- `strings.TrimSpace`. -/
def trimSpace (s : List Char) : List Char := trimFunc isSpace s

variable {cut : Char → Bool} {s : List Char}

theorem dropWhile_of_forall (h : ∀ c ∈ s, cut c = false) : s.dropWhile cut = s := by
  cases s with
  | nil => rfl
  | cons c s => simp [h c (by simp)]

theorem trimFunc_of_forall (h : ∀ c ∈ s, cut c = false) : trimFunc cut s = s := by
  rw [trimFunc, dropWhile_of_forall h, dropWhile_of_forall (by simpa using h), List.reverse_reverse]

theorem trimFunc_surrounded (ha : cut a = true) (hb : cut b = true) (h : ∀ c ∈ s, cut c = false) :
    trimFunc cut (a :: s ++ [b]) = s := by
  cases s with
  | nil => simp [trimFunc, ha, hb]
  | cons c s =>
    have hdrop : (a :: (c :: s) ++ [b]).dropWhile cut = (c :: s) ++ [b] := by
      simp [ha, h c (by simp)]
    rw [trimFunc, hdrop, List.reverse_append, List.reverse_singleton, List.singleton_append,
      List.dropWhile_cons_of_pos hb, dropWhile_of_forall (fun d hd => h d (List.mem_reverse.1 hd)),
      List.reverse_reverse]

end Strings
