/-
Items sorted into groups, a group standing where its first item came up.

This is what a map that keeps the order of insertion does, from a key to the list of
its items.  Walking the groups one after the other keeps the order of the items of a key
(`filter_items_sort`), and the last item of a selection, if no group that came up later has one
(`getLast?_items_sort`).
-/
import Mathlib.Data.List.Induction
import Mathlib.Data.List.Nodup

namespace Groups

open List

variable {K α β : Type} [DecidableEq K]

/-- Items for the group of a key; a new group stands last. -/
def extend : List (K × List α) → K → List α → List (K × List α)
  | [], k, xs => [(k, xs)]
  | g :: rest, k, xs => if g.1 = k then (g.1, g.2 ++ xs) :: rest else g :: extend rest k xs

def Has (groups : List (K × List α)) (k : K) (a : α) : Prop :=
  ∃ g ∈ groups, g.1 = k ∧ a ∈ g.2

def items (groups : List (K × List α)) : List α := groups.flatMap Prod.snd

section Extend

variable {groups : List (K × List α)} {k : K} {xs : List α}

omit [DecidableEq K] in
@[simp]
theorem has_nil : ¬ Has ([] : List (K × List α)) k a := by
  rintro ⟨g, hg, -⟩
  cases hg

omit [DecidableEq K] in
theorem has_cons : Has (g :: groups) k a ↔ g.1 = k ∧ a ∈ g.2 ∨ Has groups k a := by simp [Has]

omit [DecidableEq K] in
theorem has_append : Has (groups ++ groups') k a ↔ Has groups k a ∨ Has groups' k a := by
  simp only [Has, mem_append, or_and_right, exists_or]

theorem has_extend : Has (extend groups k xs) k' a ↔ Has groups k' a ∨ k' = k ∧ a ∈ xs := by
  induction groups with
  | nil => simp [extend, has_cons, eq_comm]
  | cons g rest ih =>
    rw [extend]
    split
    · next h =>
      subst h
      rw [has_cons, has_cons, mem_append]
      constructor
      · rintro (⟨rfl, ha | ha⟩ | h)
        · exact .inl (.inl ⟨rfl, ha⟩)
        · exact .inr ⟨rfl, ha⟩
        · exact .inl (.inr h)
      · rintro ((⟨rfl, ha⟩ | h) | ⟨rfl, ha⟩)
        · exact .inl ⟨rfl, .inl ha⟩
        · exact .inr h
        · exact .inl ⟨rfl, .inr ha⟩
    · rw [has_cons, has_cons, ih, or_assoc]

theorem keys_extend :
    (extend groups k xs).map Prod.fst =
      if k ∈ groups.map Prod.fst then groups.map Prod.fst else groups.map Prod.fst ++ [k] := by
  induction groups with
  | nil => rfl
  | cons g rest ih =>
    rw [extend]
    split
    · next h => simp [h]
    · next h =>
      rw [map_cons, ih]
      simp only [map_cons, mem_cons, Ne.symm h, false_or]
      split <;> rfl

/-- Items for one group can be added in several turns. -/
theorem extend_extend : extend (extend groups k xs) k ys = extend groups k (xs ++ ys) := by
  induction groups with
  | nil => simp [extend]
  | cons g rest ih =>
    rw [extend, extend]
    split
    · next h => rw [extend, if_pos h, append_assoc]
    · next h => rw [extend, if_neg h, ih]

theorem map_extend (f : K → List α → List β) (hf : ∀ k xs ys, f k (xs ++ ys) = f k xs ++ f k ys) :
    (extend groups k xs).map (fun g => (g.1, f g.1 g.2)) =
      extend (groups.map (fun g => (g.1, f g.1 g.2))) k (f k xs) := by
  induction groups with
  | nil => rfl
  | cons g rest ih =>
    rw [extend, map_cons, extend]
    split
    · next h => rw [map_cons, hf, h]
    · rw [map_cons, ih]

end Extend

/-! ### Sorting a list -/

variable (key : α → K)

/-- The groups of a list. -/
def sort (xs : List α) : List (K × List α) := xs.foldl (fun groups a => extend groups (key a) [a]) []

variable {key} {xs : List α}

theorem sort_append_singleton : sort key (xs ++ [a]) = extend (sort key xs) (key a) [a] := by
  rw [sort, foldl_append]
  rfl

theorem mem_keys_sort : k ∈ (sort key xs).map Prod.fst ↔ k ∈ xs.map key := by
  induction xs using reverseRecOn with
  | nil => simp [sort]
  | append_singleton xs a ih =>
    rw [sort_append_singleton, keys_extend, map_append, mem_append, ← ih]
    split
    · next h =>
      refine ⟨.inl, fun h' => h'.elim id fun ha => ?_⟩
      rw [mem_singleton.1 ha]
      exact h
    · rw [mem_append]
      rfl

/-- The groups have the items of the list, each under its key. -/
theorem has_sort : Has (sort key xs) k a ↔ a ∈ xs ∧ key a = k := by
  induction xs using reverseRecOn with
  | nil => simp [sort]
  | append_singleton xs b ih =>
    rw [sort_append_singleton, has_extend, ih, mem_append, mem_singleton]
    constructor
    · rintro (⟨ha, hk⟩ | ⟨rfl, rfl⟩)
      · exact ⟨.inl ha, hk⟩
      · exact ⟨.inr rfl, rfl⟩
    · rintro ⟨ha | rfl, rfl⟩
      · exact .inl ⟨ha, rfl⟩
      · exact .inr ⟨rfl, rfl⟩

/-- The groups stand in the order in which their keys came up. -/
theorem pairwise_keys_sort (xs : List α) :
    ((sort key xs).map Prod.fst).Pairwise
      (fun k k' => (xs.map key).idxOf k < (xs.map key).idxOf k') := by
  induction xs using reverseRecOn with
  | nil => exact List.Pairwise.nil
  | append_singleton xs a ih =>
    have hidx : ∀ k, k ∈ (sort key xs).map Prod.fst →
        ((xs ++ [a]).map key).idxOf k = (xs.map key).idxOf k := by
      intro k hk
      rw [map_append, idxOf_append_of_mem (mem_keys_sort.1 hk)]
    have hold : ((sort key xs).map Prod.fst).Pairwise
        (fun k k' => ((xs ++ [a]).map key).idxOf k < ((xs ++ [a]).map key).idxOf k') := by
      refine ih.imp_of_mem fun hk hk' hlt => ?_
      rw [hidx _ hk, hidx _ hk']
      exact hlt
    rw [sort_append_singleton, keys_extend]
    split
    · exact hold
    · next hnew =>
      refine pairwise_append.2 ⟨hold, pairwise_singleton _ _, fun k hk k' hk' => ?_⟩
      rw [mem_singleton.1 hk', hidx k hk, map_append,
        idxOf_append_of_notMem (mt mem_keys_sort.2 hnew)]
      exact Nat.lt_add_right _ (idxOf_lt_length_of_mem (mem_keys_sort.1 hk))

theorem nodup_keys_sort (xs : List α) : ((sort key xs).map Prod.fst).Nodup :=
  (pairwise_keys_sort xs).imp fun hlt heq => by
    rw [heq] at hlt
    exact absurd hlt (Nat.lt_irrefl _)

theorem key_of_mem_sort (hg : g ∈ sort key xs) (ha : a ∈ g.2) : key a = g.1 :=
  (has_sort.1 ⟨g, hg, rfl, ha⟩).2

theorem filter_items_eq_nil (hkey : ∀ g ∈ groups, ∀ b ∈ g.2, key b = g.1)
    (hk : k ∉ groups.map Prod.fst) : (items groups).filter (key · = k) = [] := by
  refine filter_eq_nil_iff.2 fun b hb heq => hk ?_
  obtain ⟨g, hg, hb⟩ := mem_flatMap.1 hb
  rw [← of_decide_eq_true heq, hkey g hg b hb]
  exact mem_map_of_mem hg

/-- Among the items of a key, a new one comes last. -/
theorem filter_items_extend (hnodup : (groups.map Prod.fst).Nodup)
    (hkey : ∀ g ∈ groups, ∀ b ∈ g.2, key b = g.1) (a : α) (k : K) :
    (items (extend groups (key a) [a])).filter (key · = k) = (items groups ++ [a]).filter (key · = k) := by
  induction groups with
  | nil => simp [extend, items]
  | cons g rest ih =>
    rw [map_cons, nodup_cons] at hnodup
    have hkey' : ∀ g ∈ rest, ∀ b ∈ g.2, key b = g.1 := fun g hg => hkey g (mem_cons_of_mem _ hg)
    rw [extend]
    split
    · next h =>
      by_cases hk : key a = k
      · have hrest := filter_items_eq_nil hkey' (hk ▸ h ▸ hnodup.1)
        simp only [items, flatMap_cons, filter_append] at hrest ⊢
        rw [hrest, append_nil, append_nil]
      · simp [items, hk]
    · have hrest := ih hnodup.2 hkey'
      simp only [items, flatMap_cons, filter_append, append_assoc] at hrest ⊢
      rw [hrest]

/-- Walking the groups keeps the order of the items of a key. -/
theorem filter_items_sort (key : α → K) (xs : List α) (k : K) :
    (items (sort key xs)).filter (key · = k) = xs.filter (key · = k) := by
  induction xs using reverseRecOn with
  | nil => rfl
  | append_singleton xs a ih =>
    rw [sort_append_singleton, filter_items_extend (nodup_keys_sort xs) fun _ hg _ => key_of_mem_sort hg,
      filter_append, ih, filter_append]

theorem mem_items_sort : a ∈ items (sort key xs) ↔ a ∈ xs := by
  have hmem : a ∈ (items (sort key xs)).filter (key · = key a) ↔ a ∈ xs.filter (key · = key a) := by
    rw [filter_items_sort]
  simpa using hmem

/-- A group has all items of its key, in their order. -/
theorem eq_filter_of_mem_sort (hg : g ∈ sort key xs) : g.2 = xs.filter (fun a => key a = g.1) := by
  obtain ⟨before, after, hsort⟩ := append_of_mem hg
  have hnodup : ((sort key xs).map Prod.fst).Nodup := nodup_keys_sort xs
  have hkey : ∀ g ∈ sort key xs, ∀ b ∈ g.2, key b = g.1 := fun _ hg _ => key_of_mem_sort hg
  have hself : g.2.filter (key · = g.1) = g.2 :=
    filter_eq_self.2 fun b hb => decide_eq_true (hkey g hg b hb)
  rw [← filter_items_sort]
  rw [hsort] at hnodup hkey ⊢
  rw [map_append, map_cons, nodup_middle, nodup_cons, mem_append, not_or] at hnodup
  have hbefore := filter_items_eq_nil (fun g' hg' => hkey g' (mem_append_left _ hg')) hnodup.1.1
  have hafter := filter_items_eq_nil
    (fun g' hg' => hkey g' (mem_append_right _ (mem_cons_of_mem _ hg'))) hnodup.1.2
  simp only [items] at hbefore hafter
  simp [items, hbefore, hafter, hself]

/-- Items of one group keep their order. -/
theorem pairwise_items_sort {r : α → α → Prop} (hxs : xs.Pairwise (fun a b => key a = key b → r a b)) :
    (items (sort key xs)).Pairwise (fun a b => key a = key b → r a b) := by
  rw [pairwise_iff_forall_sublist] at hxs ⊢
  intro a b hsub hkey
  have hgroup := hsub.filter (key · = key b)
  have hboth : [a, b].filter (key · = key b) = [a, b] := by simp [hkey]
  rw [filter_items_sort, hboth] at hgroup
  exact hxs (hgroup.trans filter_sublist) hkey

/-- The groups come in the order in which they came up. -/
theorem pairwise_idxOf_items_sort (key : α → K) (xs : List α) : (items (sort key xs)).Pairwise
    (fun a b => (xs.map key).idxOf (key a) ≤ (xs.map key).idxOf (key b)) := by
  have hkey : ∀ g ∈ sort key xs, ∀ a ∈ g.2, key a = g.1 := fun g hg a ha => (has_sort.1 ⟨g, hg, rfl, ha⟩).2
  refine pairwise_flatMap.2 ⟨fun g hg => ?_, ?_⟩
  · refine pairwise_iff_forall_sublist.2 fun {a b} hsub => ?_
    exact Nat.le_of_eq (by rw [hkey g hg a (hsub.subset (by simp)), hkey g hg b (hsub.subset (by simp))])
  · refine (pairwise_map.1 (pairwise_keys_sort xs)).imp_of_mem fun {g g'} hg hg' hlt a ha b hb => ?_
    rw [hkey g hg a ha, hkey g' hg' b hb]
    exact Nat.le_of_lt hlt

/-- The groups leave the last item of a selection only if no group that came up after its
group has one. -/
theorem idxOf_le_of_getLast? (ha : a ∈ xs) (hpa : p a)
    (hb : ((items (sort key xs)).filter p).getLast? = some b) :
    (xs.map key).idxOf (key a) ≤ (xs.map key).idxOf (key b) := by
  obtain ⟨before, hsplit⟩ := getLast?_eq_some_iff.1 hb
  have hsorted := (pairwise_idxOf_items_sort key xs).filter p
  have hmem : a ∈ (items (sort key xs)).filter p := mem_filter.2 ⟨mem_items_sort.2 ha, hpa⟩
  rw [hsplit] at hsorted hmem
  rcases mem_append.1 hmem with hmem | hmem
  · exact (pairwise_append.1 hsorted).2.2 a hmem b (mem_singleton_self b)
  · exact Nat.le_of_eq (by rw [mem_singleton.1 hmem])

theorem getLast?_filter_of {l : List α} (h : l.getLast? = some c) (hq : q c) :
    (l.filter q).getLast? = some c := by
  obtain ⟨before, rfl⟩ := getLast?_eq_some_iff.1 h
  simp [hq]

/-- The last item of a selection, if no group that came up after its group has one. -/
theorem getLast?_items_sort (p : α → Bool)
    (hlast : ∀ a ∈ xs, p a → ∀ b ∈ (xs.filter p).getLast?,
      (xs.map key).idxOf (key a) ≤ (xs.map key).idxOf (key b)) :
    ((items (sort key xs)).filter p).getLast? = (xs.filter p).getLast? := by
  have hmem : ∀ a, a ∈ (items (sort key xs)).filter p ↔ a ∈ xs.filter p := by simp [mem_items_sort]
  cases hc : ((items (sort key xs)).filter p).getLast? with
  | none =>
    rw [getLast?_eq_none_iff, eq_nil_iff_forall_not_mem] at hc
    rw [eq_comm, getLast?_eq_none_iff, eq_nil_iff_forall_not_mem]
    exact fun a ha => hc a ((hmem a).2 ha)
  | some c =>
    obtain ⟨hcx, hpc⟩ := mem_filter.1 ((hmem c).1 (mem_of_getLast? hc))
    cases hb : (xs.filter p).getLast? with
    | none =>
      rw [getLast?_eq_none_iff, filter_eq_nil_iff] at hb
      exact absurd hpc (hb c hcx)
    | some b =>
      obtain ⟨hbx, hpb⟩ := mem_filter.1 (mem_of_getLast? hb)
      -- both are the last of the selection in one group
      have hidx := Nat.le_antisymm (hlast c hcx hpc b hb) (idxOf_le_of_getLast? hbx hpb hc)
      have hkey : key c = key b := (idxOf_inj (mem_map_of_mem hcx)).1 hidx
      have hgroup := getLast?_filter_of hc (q := (key · = key b)) (decide_eq_true hkey)
      rw [filter_comm, filter_items_sort, filter_comm,
        getLast?_filter_of hb (q := (key · = key b)) (decide_eq_true rfl)] at hgroup
      exact hgroup.symm

end Groups
