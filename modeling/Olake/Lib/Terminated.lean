/-
Texts written one after another, each with a terminator behind it.

Texts that have no terminator inside are read back from what is written, as long as their number is
known (`eq_of_terminated_eq`).  If there are at least two and one has a terminator inside, other
texts are written in the same way (`exists_terminated_eq`).
-/
import Mathlib.Algebra.BigOperators.Group.List.Lemmas
import Mathlib.Algebra.Order.BigOperators.Group.List
import Mathlib.Algebra.Order.Ring.Nat

namespace Terminated

open List

variable {α : Type} [DecidableEq α] {c : α} {texts texts' : List (List α)}

/-- The texts, each with a terminator behind it. -/
def terminated (c : α) (texts : List (List α)) : List α := texts.flatMap (fun text => text ++ [c])

/-- There are as many terminators as texts if and only if none is inside a text. -/
theorem count_terminated_eq_length_iff :
    (terminated c texts).count c = texts.length ↔ ∀ text ∈ texts, c ∉ text := by
  simp [terminated, count_flatMap, Function.comp_def, List.sum_eq_zero_iff, count_eq_zero]

theorem splitOn_terminated (h : ∀ text ∈ texts, c ∉ text) :
    (terminated c texts).splitOn c = texts ++ [[]] := by
  induction texts with
  | nil => simp [terminated]
  | cons text texts ih =>
    rw [forall_mem_cons] at h
    rw [cons_append, ← ih h.2, terminated, flatMap_cons, append_assoc]
    exact splitOnP_append_cons_of_forall_mem (fun x hx => by simpa using ne_of_mem_of_not_mem hx h.1) c (by simp) _

theorem eq_of_terminated_eq (hlen : texts'.length = texts.length) (h : ∀ text ∈ texts, c ∉ text)
    (heq : terminated c texts' = terminated c texts) : texts' = texts := by
  have h' : ∀ text ∈ texts', c ∉ text := by
    rw [← count_terminated_eq_length_iff, heq, hlen]
    exact count_terminated_eq_length_iff.2 h
  have hsplit := splitOn_terminated h'
  rw [heq, splitOn_terminated h] at hsplit
  exact (append_cancel_right hsplit).symm

omit [DecidableEq α] in
theorem exists_terminated_eq (hlong : 2 ≤ texts.length) (hmem : text ∈ texts) (hc : c ∈ text) :
    ∃ texts', texts'.length = texts.length ∧ texts' ≠ texts ∧
      terminated c texts' = terminated c texts := by
  induction texts with
  | nil => cases hmem
  | cons x texts ih =>
    rcases texts with _ | ⟨y, rest⟩
    · simp at hlong
    rcases mem_cons.1 hmem with rfl | hmem
    · obtain ⟨a, b, rfl⟩ := append_of_mem hc
      exact ⟨a :: (b ++ c :: y) :: rest, rfl, by simp, by simp [terminated]⟩
    rcases rest with _ | ⟨z, rest⟩
    · obtain ⟨a, b, rfl⟩ := append_of_mem (mem_singleton.1 hmem ▸ hc)
      exact ⟨[x ++ c :: a, b], rfl, by simp, by simp [terminated]⟩
    · obtain ⟨texts', hlen, hne, heq⟩ := ih (Nat.le_add_left 2 _) hmem
      exact ⟨x :: texts', by simp [hlen], by simp [hne], by simpa [terminated] using heq⟩

end Terminated
