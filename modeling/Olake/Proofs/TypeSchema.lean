/-
The type tree as an order.

One type is at most another if the other is above it in the tree.  The types outside the tree
lie right below the root.  The common ancestor of two different types is then their least upper
bound, so a column's type does not depend on the order in which the types of its values are
met.
-/
import Olake.Model.TypeSchema

namespace Olake.Typeutils

open SearchTree Option

/-! ### The search by weights -/

/-- The weights as a total function; only the types of the tree matter. -/
def weight (t : DataType) : Nat := (TypeWeights t).getD 0

theorem typecastTree_ordered : typecastTree.Ordered weight := by
  and_intros
  all_goals first
    | trivial
    | intro a
      cases a <;> decide

theorem mem_typecastTree_iff (t : DataType) : typecastTree.Mem t ↔ (TypeWeights t).isSome := by
  cases t <;> decide

/-- Among types that have a weight the loop is the descent of a search tree. -/
theorem lowestCommonAncestor_eq_split (h1 : (TypeWeights t1).isSome)
    (h2 : (TypeWeights t2).isSome) (tree : Tree DataType) (htree : ∀ t, tree.Mem t → (TypeWeights t).isSome) :
    lowestCommonAncestor tree t1 t2 = (tree.split weight t1 t2).getD .unknown := by
  obtain ⟨wt1, hw1⟩ := isSome_iff_exists.1 h1
  obtain ⟨wt2, hw2⟩ := isSome_iff_exists.1 h2
  induction tree with
  | nil => rfl
  | node t left right ihl ihr =>
    obtain ⟨rootW, hroot⟩ := isSome_iff_exists.1 (htree t (.inl rfl))
    have hl := ihl fun a ha => htree a (.inr (.inl ha))
    have hr := ihr fun a ha => htree a (.inr (.inr ha))
    simp only [lowestCommonAncestor, Tree.split, weight, hroot, hw1, hw2, getD_some]
    split
    · exact hr
    · split
      · exact hl
      · rfl

theorem commonAncestor_of_none (h : TypeWeights t1 = none ∨ TypeWeights t2 = none) :
    GetCommonAncestorType t1 t2 = .string := by
  have hroot : TypeWeights .string = some 5 := rfl
  unfold GetCommonAncestorType typecastTree lowestCommonAncestor
  rcases h with h | h
  · simp only [hroot, h]
  · cases h1 : TypeWeights t1 <;> simp only [hroot, h]

/-- In the tree the common ancestor is the lowest one. -/
theorem commonAncestor_spec (h1 : typecastTree.Mem t1) (h2 : typecastTree.Mem t2) :
    typecastTree.Above (GetCommonAncestorType t1 t2) t1 ∧ typecastTree.Above (GetCommonAncestorType t1 t2) t2 ∧
      ∀ t, typecastTree.Above t t1 → typecastTree.Above t t2 →
        typecastTree.Above t (GetCommonAncestorType t1 t2) := by
  obtain ⟨c, hc, hspec⟩ := split_spec typecastTree_ordered h1 h2
  have heq : GetCommonAncestorType t1 t2 = c := by
    have hsplit := lowestCommonAncestor_eq_split ((mem_typecastTree_iff t1).1 h1)
      ((mem_typecastTree_iff t2).1 h2) typecastTree fun t ht => (mem_typecastTree_iff t).1 ht
    rw [GetCommonAncestorType, hsplit, hc, getD_some]
  rw [heq]
  exact hspec

/-! ### The order -/

/-- The root of the tree is above all types, those outside the tree too. -/
abbrev Below (a b : DataType) : Prop := a = b ∨ b = .string ∨ typecastTree.Above b a

variable {a : DataType}

theorem eq_string_of_above (h : typecastTree.Above a .string) : a = .string :=
  eq_of_above_root typecastTree_ordered h

instance : PartialOrder DataType where
  le := Below
  le_refl a := Or.inl rfl
  le_trans a b c := by
    rintro (rfl | rfl | hab) hbc
    · exact hbc
    · rcases hbc with rfl | rfl | hbc
      · exact Or.inr (Or.inl rfl)
      · exact Or.inr (Or.inl rfl)
      · exact Or.inr (Or.inl (eq_string_of_above hbc))
    · rcases hbc with rfl | rfl | hbc
      · exact Or.inr (Or.inr hab)
      · exact Or.inr (Or.inl rfl)
      · exact Or.inr (Or.inr (above_trans typecastTree_ordered hbc hab))
  le_antisymm a b := by
    rintro (rfl | rfl | hab) hba
    · rfl
    · rcases hba with rfl | rfl | hba
      · rfl
      · rfl
      · exact eq_string_of_above hba
    · rcases hba with rfl | rfl | hba
      · rfl
      · exact (eq_string_of_above hab).symm
      · exact above_antisymm typecastTree_ordered hba hab

instance : DecidableLE DataType := fun a b => inferInstanceAs (Decidable (Below a b))

theorem le_string (a : DataType) : a ≤ .string := .inr (.inl rfl)

theorem mem_of_le (h : a ≤ b) (hb : b ≠ .string) (hab : a ≠ b) : typecastTree.Above b a := by
  rcases h with rfl | rfl | h
  · exact absurd rfl hab
  · exact absurd rfl hb
  · exact h

/-- What two types have in common; a type has itself in common with itself, also outside the tree. -/
def join (a b : DataType) : DataType := if a = b then a else GetCommonAncestorType a b

theorem join_spec (a b : DataType) : a ≤ join a b ∧ b ≤ join a b ∧ ∀ c, a ≤ c → b ≤ c → join a b ≤ c := by
  unfold join
  split
  · next heq =>
    subst heq
    exact ⟨le_rfl, le_rfl, fun c hc _ => hc⟩
  · next hne =>
    by_cases hmem : typecastTree.Mem a ∧ typecastTree.Mem b
    · obtain ⟨ha, hb, hlow⟩ := commonAncestor_spec hmem.1 hmem.2
      refine ⟨.inr (.inr ha), .inr (.inr hb), fun c hac hbc => ?_⟩
      by_cases hc : c = .string
      · exact hc ▸ le_string _
      have hself : ∀ {t : DataType}, typecastTree.Mem t → t ≤ c → typecastTree.Above c t := by
        intro t ht htc
        by_cases heq : t = c
        · exact heq ▸ above_refl ht
        · exact mem_of_le htc hc heq
      exact .inr (.inr (hlow c (hself hmem.1 hac) (hself hmem.2 hbc)))
    · -- one of the two is outside the tree, and only the root is above it
      have hnone : TypeWeights a = none ∨ TypeWeights b = none := by
        rw [mem_typecastTree_iff, mem_typecastTree_iff, Decidable.not_and_iff_not_or_not] at hmem
        simpa using hmem
      rw [commonAncestor_of_none hnone]
      refine ⟨le_string a, le_string b, fun c hac hbc => ?_⟩
      by_contra hc
      have hc : c ≠ .string := fun h => hc (h ▸ le_rfl)
      have hout : ∀ {t u : DataType}, TypeWeights t = none → t ≠ u → t ≤ c → u ≤ c → False := by
        intro t u ht htu htc huc
        have hmem : ¬ typecastTree.Mem t := by simp [mem_typecastTree_iff, ht]
        by_cases heq : t = c
        · exact hmem (heq ▸ (mem_of_le huc hc (heq ▸ htu.symm)).mem_left)
        · exact hmem (mem_of_le htc hc heq).mem_right
      rcases hnone with ha | hb
      · exact hout ha hne hac hbc
      · exact hout hb (Ne.symm hne) hbc hac

instance : SemilatticeSup DataType where
  sup := join
  le_sup_left a b := (join_spec a b).1
  le_sup_right a b := (join_spec a b).2.1
  sup_le a b c hac hbc := (join_spec a b).2.2 c hac hbc

theorem sup_eq_commonAncestor (h : a ≠ b) : a ⊔ b = GetCommonAncestorType a b := if_neg h

theorem commonAncestor_self (h : typecastTree.Mem a) : GetCommonAncestorType a a = a := by
  obtain ⟨habove, -, hlow⟩ := commonAncestor_spec h h
  exact above_antisymm typecastTree_ordered habove (hlow a (above_refl h) (above_refl h))

theorem commonAncestor_eq_sup (ha : typecastTree.Mem a) : GetCommonAncestorType a b = a ⊔ b := by
  by_cases h : a = b
  · rw [← h, commonAncestor_self ha, sup_idem]
  · rw [sup_eq_commonAncestor h]

end Olake.Typeutils
