/-
Whether the order of the streams in the old catalog matters.

All streams are compared with the first one, but only by what is before the first colon.  Whether
there is a colon is looked up in the first stream alone.
-/
import Mathlib.Tactic
import Olake.Model.Catalog

namespace Olake.Catalog

open List

/-- The order of the old streams does not matter. -/
def OrderIndependent (reformat : List Char → List Char) (old : List (List Char)) : Prop :=
  ∀ old', old' ~ old → getDestDBPrefix old' = getDestDBPrefix old ∧
    ∀ streamNamespace database, newDestination reformat old' streamNamespace database =
      newDestination reformat old streamNamespace database

theorem eq_of_isConstant (hs : isConstant s) (ht : isConstant t) (h : firstPart s = firstPart t) : s = t := by
  have hsplit : ∀ {s : List Char}, isConstant s → s = firstPart s := by
    intro s hs
    obtain ⟨x, hx⟩ := length_eq_one_iff.1 (by simpa [isConstant] using hs)
    conv_lhs => rw [← s.intercalate_splitOn ':', hx]
    simp [firstPart, hx]
  rw [hsplit hs, hsplit ht, h]

theorem getDestDBPrefix_perm (h : first :: rest ~ old) :
    getDestDBPrefix (first :: rest) =
      if ∀ s ∈ old, ∀ t ∈ old, firstPart s = firstPart t then (isConstant first, firstPart first)
      else (false, []) := by
  rw [getDestDBPrefix]
  refine if_congr ?_ rfl rfl
  simp only [all_eq_true, decide_eq_true_eq, ← h.mem_iff]
  grind

/-- The order matters exactly if the streams have a common first part and only some a colon. -/
theorem orderIndependent_iff (reformat : List Char → List Char) (old : List (List Char)) :
    OrderIndependent reformat old ↔
      (∃ s ∈ old, ∃ t ∈ old, firstPart s ≠ firstPart t) ∨
        ∀ s ∈ old, ∀ t ∈ old, isConstant s = isConstant t := by
  constructor
  · intro h
    by_contra! hno
    obtain ⟨hsame, s, hs, t, ht, hne⟩ := hno
    have hresult : ∀ s ∈ old, getDestDBPrefix old = (isConstant s, firstPart s) := by
      intro s hs
      have hperm := (perm_cons_erase hs).symm
      rw [← (h _ hperm).1, getDestDBPrefix_perm hperm, if_pos hsame]
    exact hne (congrArg Prod.fst ((hresult s hs).symm.trans (hresult t ht)))
  · intro h old' hperm
    match old', old, hperm with
    | [], old, hperm => simp [hperm.nil_eq]
    | _ :: _, [], hperm => simp at hperm
    | first' :: rest', first :: rest, hperm =>
      simp only [newDestination, getDestDBPrefix_perm hperm, getDestDBPrefix_perm (Perm.refl (first :: rest))]
      split
      · next hsame =>
        have hconstant := (h.resolve_left (by simpa using hsame)) first'
          (hperm.mem_iff.1 mem_cons_self) first mem_cons_self
        have hpart := hsame first' (hperm.mem_iff.1 mem_cons_self) first mem_cons_self
        rw [hconstant, hpart]
        refine ⟨rfl, fun streamNamespace database => ?_⟩
        split
        · next hc => exact eq_of_isConstant (hconstant.trans hc) hc hpart
        · rfl
      · simp

theorem order_matters : ¬ OrderIndependent id ["lake".toList, "lake:sales".toList] := by
  intro h
  have := (h ["lake:sales".toList, "lake".toList] (Perm.swap _ _ _)).1
  revert this
  decide

end Olake.Catalog
