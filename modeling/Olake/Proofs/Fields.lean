/-
The types of the parquet writer's columns.

A field is sound if what it has cached is the least upper bound of the types that occurred
(`Field.Sound`).  Processing a record takes the type of each column to the bound of what it was
and of the value's (`process_at`), whichever way the maps are visited, and a record whose
types have all occurred changes nothing (`process_known`).
-/
import Mathlib.Order.Bounds.Basic
import Olake.Model.Fields
import Olake.Proofs.TypeSchema
import Olake.Proofs.Values

namespace Olake.Typeutils

open List

/-! ### The type of a field -/

def typesOf (l : List DataType) : Set DataType := {t | t ∈ l}

theorem typesOf_append (l : List DataType) (t : DataType) : typesOf (l ++ [t]) = insert t (typesOf l) := by
  ext u
  simp [typesOf, or_comm]

theorem typesOf_perm (h : l.Perm l') : typesOf l = typesOf l' := by
  ext u
  exact h.mem_iff

theorem eq_of_le_of_not_mem (hb : ¬ typecastTree.Mem b) (h : a ≤ b) : a = b := by
  rcases h with rfl | rfl | h
  · rfl
  · exact absurd (.inl rfl) hb
  · exact absurd h.mem_left hb

theorem commonAncestor_of_new (hne : l ≠ [])
    (hlub : IsLUB (typesOf l) common) (ht : t ∉ l) : GetCommonAncestorType common t = common ⊔ t := by
  by_cases hmem : typecastTree.Mem common
  · exact commonAncestor_eq_sup hmem
  · -- outside the tree the common type is the only one that occurred
    obtain ⟨u, hu⟩ := exists_mem_of_ne_nil l hne
    have huc : u = common := eq_of_le_of_not_mem hmem (hlub.1 hu)
    rw [sup_eq_commonAncestor]
    rintro rfl
    exact ht (huc ▸ hu)

theorem isLUB_commonType (hne : l ≠ []) (hnodup : l.Nodup) : IsLUB (typesOf l) (commonType l) := by
  have hall : ∀ (rest seen : List DataType) (common : DataType), seen ≠ [] → (seen ++ rest).Nodup →
      IsLUB (typesOf seen) common → IsLUB (typesOf (seen ++ rest)) (rest.foldl GetCommonAncestorType common) := by
    intro rest
    induction rest with
    | nil =>
      intro seen common _ _ hlub
      simpa using hlub
    | cons t rest ih =>
      intro seen common hseen hnodup hlub
      have ht : t ∉ seen := fun hmem => by
        rw [nodup_append] at hnodup
        exact hnodup.2.2 t hmem t mem_cons_self rfl
      rw [foldl_cons, commonAncestor_of_new hseen hlub ht, ← singleton_append, ← append_assoc]
      refine ih (seen ++ [t]) _ (by simp) (by simpa using hnodup) ?_
      rw [typesOf_append, sup_comm]
      exact hlub.insert t
  match l, hne with
  | t :: rest, _ =>
    refine hall rest [t] t (by simp) hnodup ?_
    have hsingle : typesOf [t] = {t} := by simp [typesOf]
    rw [hsingle]
    exact isLUB_singleton

/-- The cached type is the least upper bound of the types that occurred. -/
structure Field.Sound (f : Field) (t : DataType) : Prop where
  cached : f.dataType = some t
  nodup : f.typeOccurrence.Nodup
  nonempty : f.typeOccurrence ≠ []
  lub : IsLUB (typesOf f.typeOccurrence) t

theorem newField_sound (t : DataType) : (NewField t).Sound t where
  cached := rfl
  nodup := nodup_singleton t
  nonempty := by simp [NewField]
  lub := isLUB_commonType (by simp [NewField]) (nodup_singleton t)

theorem Field.Sound.getType {f : Field} (h : f.Sound t) (visit : TypeVisit) :
    f.getType visit = (t, f) := by
  rw [Field.getType, h.cached]

theorem merge_newField (f : Field) (t : DataType) : f.Merge (NewField t) = f.add t := rfl

theorem add_of_mem {f : Field} (h : t ∈ f.typeOccurrence) : f.add t = f := if_pos h

theorem Field.Sound.add {f : Field} (h : f.Sound t) (visit : TypeVisit) :
    ((f.add d).getType visit).1 = t ⊔ d ∧ ((f.add d).getType visit).2.Sound (t ⊔ d) ∧
      d ∈ ((f.add d).getType visit).2.typeOccurrence := by
  by_cases hd : d ∈ f.typeOccurrence
  · have hsup : t ⊔ d = t := sup_eq_left.2 (h.lub.1 hd)
    rw [add_of_mem hd, h.getType, hsup]
    exact ⟨rfl, h, hd⟩
  · have hnodup : (f.typeOccurrence ++ [d]).Nodup := by
      rw [nodup_append]
      refine ⟨h.nodup, nodup_singleton d, fun a ha b hb hab => ?_⟩
      rw [mem_singleton] at hb
      exact hd (hb ▸ hab ▸ ha)
    have hlub : IsLUB (typesOf (f.typeOccurrence ++ [d])) (t ⊔ d) := by
      rw [typesOf_append, sup_comm]
      exact h.lub.insert d
    have hcommon : commonType (visit.order (f.typeOccurrence ++ [d])) = t ⊔ d := by
      have hperm := visit.perm (f.typeOccurrence ++ [d])
      have hvisited := isLUB_commonType (l := visit.order (f.typeOccurrence ++ [d]))
        (fun hnil => by simpa [hnil] using hperm.length_eq) (hperm.nodup_iff.2 hnodup)
      rw [typesOf_perm hperm] at hvisited
      exact hvisited.unique hlub
    rw [Field.add, if_neg hd, Field.getType, hcommon]
    exact ⟨rfl, ⟨rfl, hnodup, by simp, hlub⟩, by simp⟩

/-! ### Tracking a column -/

/-- The column has the types `S` in it, and is sound. -/
def Tracked (S : Set DataType) : Option Field → Prop
  | none => S = ∅
  | some f => ∃ t, f.Sound t ∧ IsLUB S t

variable {go : GoLib}

/-- What `Process` makes of a column with a value. -/
def fieldAfter (visit : TypeVisit) (o : Option Field) (d : DataType) : Option Field :=
  match o with
  | none => some (NewField d)
  | some f =>
    if d ≠ .null ∧ (f.getType visit).1 ≠ d then some (((f.getType visit).2.Merge (NewField d)).getType visit).2
    else some (f.getType visit).2

theorem tracked_fieldAfter (h : Tracked S o) (hd : d ≠ .null)
    (visit : TypeVisit) : Tracked (insert d S) (fieldAfter visit o d) := by
  cases o with
  | none =>
    have hS : S = ∅ := h
    subst hS
    exact ⟨d, newField_sound d, by rw [LawfulSingleton.insert_empty_eq]; exact isLUB_singleton⟩
  | some f =>
    obtain ⟨t, hsound, hlub⟩ := h
    simp only [fieldAfter, hsound.getType]
    split
    · exact ⟨t ⊔ d, (hsound.add visit).2.1, by rw [sup_comm]; exact hlub.insert d⟩
    · next hsame =>
      have htd : t = d := by
        by_contra hne
        exact hsame ⟨hd, hne⟩
      subst htd
      refine ⟨t, hsound, ?_⟩
      have hinsert := hlub.insert t
      rwa [sup_idem] at hinsert

/-! ### Processing a record -/

section Process

variable {visit : String → TypeVisit}

theorem processEntry_of_ne (v : TypeVisit) (acc : Progress) (h : k ≠ key)
    (value : Option (Value go)) :
    (processEntry v acc key value).fields k = acc.fields k ∧
      (processEntry v acc key value).mutations k = acc.mutations k := by
  unfold processEntry
  dsimp only
  split
  · split
    · split <;> simp [Fields.set, h]
    · exact ⟨by simp [Fields.set, h], rfl⟩
  · exact ⟨rfl, by simp [Fields.set, h]⟩

variable {record : Record (Value go)}

variable (visit) in
theorem foldl_processEntry_of_not_mem (h : k ∉ record.map Prod.fst) (acc : Progress) :
    (record.foldl (fun acc p => processEntry (visit p.1) acc p.1 p.2) acc).fields k = acc.fields k ∧
      (record.foldl (fun acc p => processEntry (visit p.1) acc p.1 p.2) acc).mutations k = acc.mutations k := by
  induction record generalizing acc with
  | nil => exact ⟨rfl, rfl⟩
  | cons p rest ih =>
    rw [map_cons, mem_cons, not_or] at h
    obtain ⟨hfields, hmutations⟩ := processEntry_of_ne (visit p.1) acc h.1 p.2
    obtain ⟨hfields', hmutations'⟩ := ih h.2 (processEntry (visit p.1) acc p.1 p.2)
    exact ⟨hfields'.trans hfields, hmutations'.trans hmutations⟩

/-- What an entry makes of its own column: merging the mutation in the end adds nothing. -/
theorem processEntry_self (v : TypeVisit) (h : acc.mutations key = none)
    (value : Option (Value go)) :
    (processEntry v acc key value).fields.Merge (processEntry v acc key value).mutations key =
      fieldAfter v (acc.fields key) (TypeFromValue value) := by
  unfold processEntry fieldAfter
  cases hkey : acc.fields key with
  | none => simp [Fields.Merge, Fields.set, hkey]
  | some f =>
    dsimp only
    split
    · -- the type is among those that occurred by now
      have hoccurs : ∀ g : Field, (((g.add (TypeFromValue value)).getType v).2.add (TypeFromValue value)) =
          ((g.add (TypeFromValue value)).getType v).2 := by
        intro g
        refine add_of_mem ?_
        have hadd : TypeFromValue value ∈ (g.add (TypeFromValue value)).typeOccurrence := by
          unfold Field.add
          split
          · assumption
          · simp
        unfold Field.getType
        split <;> exact hadd
      by_cases hchange : (((f.getType v).2.add (TypeFromValue value)).getType v).1 = (f.getType v).1
      · simp [Fields.Merge, Fields.set, merge_newField, hchange, h]
      · simp [Fields.Merge, Fields.set, merge_newField, hchange, hoccurs]
    · simp [Fields.Merge, Fields.set, h]

theorem foldl_processEntry_at (hnodup : (record.map Prod.fst).Nodup)
    (hmutations : acc.mutations k = none) :
    let out := record.foldl (fun acc p => processEntry (visit p.1) acc p.1 p.2) acc;
    out.fields.Merge out.mutations k =
      match record.lookup k with
      | none => acc.fields k
      | some v => fieldAfter (visit k) (acc.fields k) (TypeFromValue v) := by
  induction record generalizing acc with
  | nil => simp [Fields.Merge, hmutations]
  | cons p rest ih =>
    obtain ⟨n, v⟩ := p
    rw [map_cons, nodup_cons] at hnodup
    dsimp only
    rw [foldl_cons, lookup_cons_if]
    by_cases hk : k = n
    · subst hk
      -- nothing comes to the column any more
      obtain ⟨hfields, hmutations'⟩ := foldl_processEntry_of_not_mem visit hnodup.1
        (processEntry (visit k) acc k v)
      have hself := processEntry_self (visit k) hmutations v
      rw [if_pos rfl]
      dsimp only
      rw [← hself]
      simp only [Fields.Merge, hfields, hmutations']
    · obtain ⟨hfields, hmutations'⟩ := processEntry_of_ne (visit n) acc hk v
      have hrest := ih hnodup.2 (hmutations'.trans hmutations)
      rw [hrest, if_neg hk, hfields]

theorem process_at (schema : Fields) (hnodup : (record.map Prod.fst).Nodup) (k : String) :
    (schema.Process visit record).2.2 k =
      match record.lookup k with
      | none => schema k
      | some v => fieldAfter (visit k) (schema k) (TypeFromValue v) :=
  foldl_processEntry_at hnodup rfl

/-! ### Known types -/

theorem processEntry_known (hkey : acc.fields key = some f) (hsound : f.Sound t)
    (hknown : TypeFromValue value ∈ f.typeOccurrence) : processEntry v acc key value = acc := by
  have hset : acc.fields.set key f = acc.fields := by
    funext k
    by_cases hk : k = key
    · simp [Fields.set, hk, hkey]
    · simp [Fields.set, hk]
  simp only [processEntry, hkey, hsound.getType, merge_newField, add_of_mem hknown, ne_eq, not_true_eq_false,
    decide_false, Bool.or_false, if_false, hset, ite_self]

theorem process_known {schema : Fields}
    (h : ∀ p ∈ record, ∃ f t, schema p.1 = some f ∧ f.Sound t ∧ TypeFromValue p.2 ∈ f.typeOccurrence) :
    schema.Process visit record = (false, false, schema) := by
  have hall : record.foldl (fun acc p => processEntry (visit p.1) acc p.1 p.2) ⟨schema, false, false, fun _ => none⟩ =
      ⟨schema, false, false, fun _ => none⟩ := by
    induction record with
    | nil => rfl
    | cons p rest ih =>
      obtain ⟨f, t, hkey, hsound, hknown⟩ := h p mem_cons_self
      rw [foldl_cons, processEntry_known hkey hsound hknown]
      exact ih fun q hq => h q (mem_cons_of_mem _ hq)
  unfold Fields.Process
  rw [hall]
  rfl

end Process

end Olake.Typeutils
