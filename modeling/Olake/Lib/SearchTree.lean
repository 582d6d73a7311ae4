/-
The lowest common ancestor in a search tree.

The labels of a tree are put in order by a weight.  From the root one goes down as long as two
labels are on the same side, and the label where they part is the lowest one that has both in its
subtree (`split_spec`).  "Is above" is an order on the labels (`above_refl`, `above_trans`,
`above_antisymm`), for which the lowest common ancestor is the least upper bound.
-/
import Mathlib.Order.Basic

namespace SearchTree

inductive Tree (α : Type) where
  | nil
  | node (label : α) (left right : Tree α)

variable {α : Type}

def Tree.Mem (a : α) : Tree α → Prop
  | .nil => False
  | .node c left right => a = c ∨ left.Mem a ∨ right.Mem a

/-- Labels to the left weigh less than their node, labels to the right more. -/
def Tree.Ordered (w : α → Nat) : Tree α → Prop
  | .nil => True
  | .node c left right =>
    (∀ a, left.Mem a → w a < w c) ∧ (∀ a, right.Mem a → w c < w a) ∧ left.Ordered w ∧ right.Ordered w

/-- The label `a` has `b` in its subtree. -/
def Tree.Above (a b : α) : Tree α → Prop
  | .nil => False
  | .node c left right => (a = c ∧ (Tree.node c left right).Mem b) ∨ left.Above a b ∨ right.Above a b

/-- Going down as long as both labels are on one side. -/
def Tree.split (w : α → Nat) (x y : α) : Tree α → Option α
  | .nil => none
  | .node c left right =>
    if w c < w x ∧ w c < w y then right.split w x y
    else if w x < w c ∧ w y < w c then left.split w x y
    else some c

section Decidable

variable [DecidableEq α]

instance Tree.decidableMem (a : α) : (t : Tree α) → Decidable (t.Mem a)
  | .nil => inferInstanceAs (Decidable False)
  | .node c left right =>
    have := Tree.decidableMem a left
    have := Tree.decidableMem a right
    inferInstanceAs (Decidable (a = c ∨ left.Mem a ∨ right.Mem a))

instance Tree.decidableAbove (a b : α) : (t : Tree α) → Decidable (t.Above a b)
  | .nil => inferInstanceAs (Decidable False)
  | .node c left right =>
    have := Tree.decidableAbove a b left
    have := Tree.decidableAbove a b right
    inferInstanceAs (Decidable
      ((a = c ∧ (Tree.node c left right).Mem b) ∨ left.Above a b ∨ right.Above a b))

end Decidable

variable {w : α → Nat} {t : Tree α} {a b c x y : α}

theorem Tree.Above.mem_left (h : t.Above a b) : t.Mem a := by
  induction t with
  | nil => exact h
  | node d left right ihl ihr =>
    rcases h with ⟨rfl, -⟩ | h | h
    · exact .inl rfl
    · exact .inr (.inl (ihl h))
    · exact .inr (.inr (ihr h))

theorem Tree.Above.mem_right (h : t.Above a b) : t.Mem b := by
  induction t with
  | nil => exact h
  | node d left right ihl ihr =>
    rcases h with ⟨-, h⟩ | h | h
    · exact h
    · exact .inr (.inl (ihl h))
    · exact .inr (.inr (ihr h))

theorem above_refl (h : t.Mem a) : t.Above a a := by
  induction t with
  | nil => exact h
  | node d left right ihl ihr =>
    rcases h with rfl | h | h
    · exact .inl ⟨rfl, .inl rfl⟩
    · exact .inr (.inl (ihl h))
    · exact .inr (.inr (ihr h))

theorem above_root (h : (Tree.node c left right).Mem a) : (Tree.node c left right).Above c a :=
  .inl ⟨rfl, h⟩

section Ordered

variable {left right : Tree α}

theorem above_left (h : (Tree.node c left right).Ordered w) (hb : left.Mem b)
    (hab : (Tree.node c left right).Above a b) : a = c ∨ left.Above a b := by
  rcases hab with ⟨rfl, -⟩ | hab | hab
  · exact .inl rfl
  · exact .inr hab
  · exact absurd (h.1 b hb) (Nat.lt_asymm (h.2.1 b hab.mem_right))

theorem above_right (h : (Tree.node c left right).Ordered w) (hb : right.Mem b)
    (hab : (Tree.node c left right).Above a b) : a = c ∨ right.Above a b := by
  rcases hab with ⟨rfl, -⟩ | hab | hab
  · exact .inl rfl
  · exact absurd (h.1 b hab.mem_right) (Nat.lt_asymm (h.2.1 b hb))
  · exact .inr hab

theorem eq_of_above_root (h : (Tree.node c left right).Ordered w)
    (hac : (Tree.node c left right).Above a c) : a = c := by
  rcases hac with ⟨rfl, -⟩ | hac | hac
  · rfl
  · exact absurd (h.1 c hac.mem_right) (Nat.lt_irrefl _)
  · exact absurd (h.2.1 c hac.mem_right) (Nat.lt_irrefl _)

end Ordered

theorem above_trans (h : t.Ordered w) (hab : t.Above a b) (hbc : t.Above b c) : t.Above a c := by
  induction t with
  | nil => exact hab
  | node d left right ihl ihr =>
    have hc := hbc.mem_right
    rcases hab with ⟨rfl, -⟩ | hab | hab
    · exact above_root hc
    · -- `b` is to the left, so it is not the root, and `c` is to the left too
      rcases hbc with ⟨rfl, -⟩ | hbc | hbc
      · exact absurd (h.1 b hab.mem_right) (Nat.lt_irrefl _)
      · exact .inr (.inl (ihl h.2.2.1 hab hbc))
      · exact absurd (h.1 b hab.mem_right) (Nat.lt_asymm (h.2.1 b hbc.mem_left))
    · rcases hbc with ⟨rfl, -⟩ | hbc | hbc
      · exact absurd (h.2.1 b hab.mem_right) (Nat.lt_irrefl _)
      · exact absurd (h.1 b hbc.mem_left) (Nat.lt_asymm (h.2.1 b hab.mem_right))
      · exact .inr (.inr (ihr h.2.2.2 hab hbc))

theorem above_antisymm (h : t.Ordered w) (hab : t.Above a b) (hba : t.Above b a) : a = b := by
  induction t with
  | nil => exact hab.elim
  | node d left right ihl ihr =>
    rcases hab with ⟨rfl, -⟩ | hab | hab
    · exact (eq_of_above_root h hba).symm
    · rcases above_left h hab.mem_left hba with rfl | hba
      · exact absurd (h.1 b hab.mem_right) (Nat.lt_irrefl _)
      · exact ihl h.2.2.1 hab hba
    · rcases above_right h hab.mem_left hba with rfl | hba
      · exact absurd (h.2.1 b hab.mem_right) (Nat.lt_irrefl _)
      · exact ihr h.2.2.2 hab hba

/-- The descent ends at the lowest common ancestor. -/
theorem split_spec (h : t.Ordered w) (hx : t.Mem x) (hy : t.Mem y) :
    ∃ c, t.split w x y = some c ∧ t.Above c x ∧ t.Above c y ∧
      ∀ d, t.Above d x → t.Above d y → t.Above d c := by
  induction t with
  | nil => exact hx.elim
  | node d left right ihl ihr =>
    -- which side a label is on can be told from its weight
    have hleft : ∀ a, (Tree.node d left right).Mem a → w a < w d → left.Mem a := by
      grind [Tree.Mem, Tree.Ordered]
    have hright : ∀ a, (Tree.node d left right).Mem a → w d < w a → right.Mem a := by
      grind [Tree.Mem, Tree.Ordered]
    unfold Tree.split
    split
    · next hgt =>
      have hx' := hright x hx hgt.1
      have hy' := hright y hy hgt.2
      obtain ⟨c, hc, hcx, hcy, hlow⟩ := ihr h.2.2.2 hx' hy'
      refine ⟨c, hc, .inr (.inr hcx), .inr (.inr hcy), fun e hex hey => ?_⟩
      rcases above_right h hx' hex with rfl | hex
      · exact above_root (.inr (.inr hcx.mem_left))
      rcases above_right h hy' hey with rfl | hey
      · exact above_root (.inr (.inr hcx.mem_left))
      · exact .inr (.inr (hlow e hex hey))
    · next hngt =>
      split
      · next hlt =>
        have hx' := hleft x hx hlt.1
        have hy' := hleft y hy hlt.2
        obtain ⟨c, hc, hcx, hcy, hlow⟩ := ihl h.2.2.1 hx' hy'
        refine ⟨c, hc, .inr (.inl hcx), .inr (.inl hcy), fun e hex hey => ?_⟩
        rcases above_left h hx' hex with rfl | hex
        · exact above_root (.inr (.inl hcx.mem_left))
        rcases above_left h hy' hey with rfl | hey
        · exact above_root (.inr (.inl hcx.mem_left))
        · exact .inr (.inl (hlow e hex hey))
      · next hnlt =>
        refine ⟨d, rfl, above_root hx, above_root hy, fun e hex hey => ?_⟩
        -- the two part here, so only the root is above both
        have hed : e = d := by
          obtain ⟨hl, hr, -⟩ := h
          rcases hex with ⟨heq, -⟩ | hex | hex <;> rcases hey with ⟨heq, -⟩ | hey | hey
          all_goals grind only [→ Tree.Above.mem_left, → Tree.Above.mem_right]
        exact hed ▸ above_refl (.inl rfl)

end SearchTree
