/-
Which rows have an olake id of their own.

The id is made of the texts of the key columns.  A single key is used as it is, so a text can be
equal to the hash that stands for a missing key; a missing value is printed as `<nil>`, which can
also be a text; and several texts are hashed with a separator behind each that is not escaped.  A
row that avoids all three shares its id with no row of another key (`row_identity_iff`), and every
other row does share it.
-/
import Olake.Lib.Terminated
import Olake.Model.Changes

namespace Olake.RowIdentity

open List Terminated

/-- The standard library for columns of texts. -/
def textStdlib (md5 : String → String) : Stdlib String where
  sprint v := v.getD "<nil>"
  md5 := md5

/-- A value of a key column that tells rows apart: a text that is not printed like a missing one,
and that cannot be taken for the hash of a missing key or for the texts of several keys. -/
def Telling (md5 : String → String) (keys : List String) (v : Option String) : Prop :=
  ∃ s, v = some s ∧ s ≠ "<nil>" ∧ if keys.length = 1 then s ≠ md5 "<nil>|" else '|' ∉ s.toList

/-- Only records with the same values in the key columns have the olake id of the record. -/
def Identified (md5 : String → String) (keys : List String) (m : Record String) : Prop :=
  ∀ m', GetKeysHash (textStdlib md5) m' keys = GetKeysHash (textStdlib md5) m keys → ∀ k ∈ keys, m'.get k = m.get k

variable {md5 : String → String} {m m' : Record String} {keys : List String}

theorem getD_eq_iff (h : s ≠ "<nil>") : v.getD "<nil>" = s ↔ v = some s := by
  cases v <;> simp [h.symm]

/-! ### One key -/

theorem GetKeysHash_single (k : String) : GetKeysHash (textStdlib md5) m [k] =
    some (((m.lookup k).map (fun v => v.getD "<nil>")).getD (md5 "<nil>|")) := by
  cases h : m.lookup k <;> simp [GetKeysHash, keysHash, textStdlib, Record.get, h]

theorem single_identified_iff (k : String) : Identified md5 [k] m ↔ Telling md5 [k] (m.get k) := by
  simp only [Identified, GetKeysHash_single, Option.some_inj, mem_singleton, forall_eq, Record.get]
  generalize m.lookup k = found
  constructor
  · intro h
    rcases found with _ | _ | s
    · simpa using h [(k, some (md5 "<nil>|"))]
    · simpa using h [(k, some "<nil>")]
    · refine ⟨s, rfl, fun hs => ?_, fun hs => ?_⟩
      · simpa [hs] using h [(k, none)]
      · simpa [hs] using h []
  · rintro ⟨s, hs, hnil, hmd5⟩ m' hm'
    rw [Option.join_eq_some_iff] at hs
    rw [hs] at hm' ⊢
    cases hfound : m'.lookup k with
    | none =>
      rw [hfound] at hm'
      exact absurd hm'.symm hmd5
    | some v =>
      rw [hfound] at hm'
      exact (getD_eq_iff hnil).1 hm'

/-! ### Several keys -/

/-- The texts of the key columns, in the order of the hash. -/
def shown (keys : List String) (value : String → Option String) : List (List Char) :=
  (keys.mergeSort (· ≤ ·)).map (fun k => ((value k).getD "<nil>").toList)

theorem GetKeysHash_eq_iff (hmd5 : Function.Injective md5) (hlong : 2 ≤ keys.length) :
    GetKeysHash (textStdlib md5) m' keys = GetKeysHash (textStdlib md5) m keys ↔
      terminated '|' (shown keys m'.get) = terminated '|' (shown keys m.get) := by
  rcases keys with _ | ⟨k, _ | ⟨k', keys⟩⟩
  · simp at hlong
  · simp at hlong
  · simp [GetKeysHash, keysHash, textStdlib, hmd5.eq_iff, ← String.toList_inj, terminated, shown, flatMap_map]

theorem exists_get_eq (keys : List String) (value : String → Option String) :
    ∃ m : Record String, ∀ k ∈ keys, m.get k = value k :=
  ⟨keys.map (fun k => (k, value k)), fun k hk => by simp [Record.get, lookup_graph value hk]⟩

theorem shown_congr (h : ∀ k ∈ keys, (value k).getD "<nil>" = (value' k).getD "<nil>") :
    shown keys value = shown keys value' :=
  map_congr_left (fun k hk => by rw [h k (mem_mergeSort.1 hk)])

theorem Identified.value_eq (hmd5 : Function.Injective md5) (hlong : 2 ≤ keys.length) (h : Identified md5 keys m)
    (heq : terminated '|' (shown keys value) = terminated '|' (shown keys m.get)) (hk : k ∈ keys) :
    value k = m.get k := by
  obtain ⟨m', hm'⟩ := exists_get_eq keys value
  rw [← hm' k hk]
  refine h m' ((GetKeysHash_eq_iff hmd5 hlong).2 ?_) k hk
  rw [← heq, shown_congr (fun k hk => by rw [hm' k hk])]

theorem exists_map_eq [Inhabited β] {l : List β} (hkeys : keys.Nodup) (hlen : l.length = keys.length) :
    ∃ f, keys.map f = l := by
  refine ⟨fun k => l[keys.idxOf k]?.getD default, ext_getElem (by simp [hlen]) (fun i hi hi' => ?_)⟩
  simp [hkeys.idxOf_getElem, hi']

theorem several_identified_iff (hmd5 : Function.Injective md5) (hlong : 2 ≤ keys.length) (hkeys : keys.Nodup) :
    Identified md5 keys m ↔ ∀ k ∈ keys, Telling md5 keys (m.get k) := by
  have hone : keys.length ≠ 1 := by omega
  simp only [Telling, if_neg hone]
  constructor
  · intro h k hk
    have hprint : ∀ v, v.getD "<nil>" = (m.get k).getD "<nil>" → v = m.get k := by
      intro v hv
      have heq : shown keys (Function.update m.get k v) = shown keys m.get :=
        shown_congr (fun j _ => by by_cases hj : j = k <;> simp [hj, hv])
      simpa using h.value_eq hmd5 hlong (congrArg _ heq) hk
    cases hs : m.get k with
    | none => simpa [hs] using hprint (some "<nil>")
    | some s =>
      refine ⟨s, rfl, fun hnil => by simpa [hs, hnil] using hprint none, fun hbar => ?_⟩
      have hmem : s.toList ∈ shown keys m.get := mem_map.2 ⟨k, mem_mergeSort.2 hk, by rw [hs]; rfl⟩
      -- another way to cut the same text
      obtain ⟨l, hlen, hne, heq⟩ := exists_terminated_eq (by simpa [shown] using hlong) hmem hbar
      obtain ⟨f, hf⟩ := exists_map_eq ((mergeSort_perm keys (· ≤ ·)).nodup_iff.2 hkeys)
        (by simpa [shown] using hlen)
      have hshown : shown keys (fun j => some (String.ofList (f j))) = l := by simp [shown, ← hf]
      have hvalue : ∀ j ∈ keys, some (String.ofList (f j)) = m.get j :=
        fun j hj => h.value_eq hmd5 hlong (by rw [hshown, heq]) hj
      exact hne (hshown.symm.trans (shown_congr (fun j hj => by rw [hvalue j hj])))
  · intro h m' hm' k hk
    rw [GetKeysHash_eq_iff hmd5 hlong] at hm'
    have hshown := eq_of_terminated_eq (by simp [shown]) (fun text htext => ?_) hm'
    · obtain ⟨s, hs, hnil, -⟩ := h k hk
      have htext := map_inj_left.1 hshown k (mem_mergeSort.2 hk)
      rw [String.toList_inj, hs] at htext
      rw [hs]
      exact (getD_eq_iff hnil).1 htext
    · obtain ⟨j, hj, rfl⟩ := mem_map.1 htext
      obtain ⟨s, hs, -, hbar⟩ := h j (mem_mergeSort.1 hj)
      simpa [hs] using hbar

/-- **When an olake id is that of one row.** -/
theorem row_identity_iff (hmd5 : Function.Injective md5) (keys : List String) (hkeys : keys.Nodup)
    (m : Record String) : Identified md5 keys m ↔ ∀ k ∈ keys, Telling md5 keys (m.get k) := by
  rcases keys with _ | ⟨k, _ | ⟨k', keys⟩⟩
  · exact iff_of_true (fun _ _ _ hk => absurd hk not_mem_nil) (fun _ hk => absurd hk not_mem_nil)
  · simpa using single_identified_iff k
  · exact several_identified_iff hmd5 (Nat.le_add_left 2 _) hkeys

theorem row_identity_two_keys :
    Function.Injective (id : String → String) ∧ ["a", "b"].Nodup ∧
      Identified id ["a", "b"] [("a", some "x"), ("b", some "y")] := by
  refine ⟨Function.injective_id, by decide,
    (row_identity_iff Function.injective_id ["a", "b"] (by decide) [("a", some "x"), ("b", some "y")]).2 ?_⟩
  simp only [forall_mem_cons]
  exact ⟨⟨"x", rfl, by decide, by decide⟩, ⟨"y", rfl, by decide, by decide⟩, by simp⟩

/-- Rows with the keys `x|y`, `z` and `x`, `y|z`. -/
theorem separator_in_key :
    GetKeysHash (textStdlib id) [("a", some "x|y"), ("b", some "z")] ["a", "b"] =
      GetKeysHash (textStdlib id) [("a", some "x"), ("b", some "y|z")] ["a", "b"] ∧
    Record.get [("a", some "x|y"), ("b", some "z")] "a" ≠ Record.get [("a", some "x"), ("b", some "y|z")] "a" := by
  have hsorted : ["a", "b"].mergeSort (fun k k' => decide (k ≤ k')) = ["a", "b"] :=
    mergeSort_of_pairwise (by decide)
  refine ⟨(GetKeysHash_eq_iff Function.injective_id (by decide)).2 ?_, by decide⟩
  rw [shown, shown, hsorted]
  decide

/-! ### No key at all -/

variable {V : Type}

theorem calls_empty (std : Stdlib V) (depth : Nat) :
    GetKeysHash.calls std [] depth [] = none ∧ GetHash.calls std [] depth = none := by
  induction depth with
  | zero => exact ⟨rfl, rfl⟩
  | succ depth ih => exact ⟨ih.2, ih.1⟩

theorem calls_eq (std : Stdlib V) (m : Record V) (depth : Nat) (keys : List String) :
    GetKeysHash.calls std m (depth + 3) keys = GetKeysHash std m keys := by
  cases keys with
  | cons key keys => rfl
  | nil =>
    cases m with
    | nil => exact (calls_empty std _).1
    | cons entry m => rfl

/-- The functions call each other forever exactly on an empty record without keys. -/
theorem keys_hash_terminates_iff (std : Stdlib V) (m : Record V) (keys : List String) :
    ((∃ depth, GetKeysHash.calls std m depth keys ≠ none) ↔ keys ≠ [] ∨ m ≠ []) ∧
      ((∃ depth, GetHash.calls std m depth ≠ none) ↔ m ≠ []) := by
  have hends : ∀ keys, keys ≠ [] ∨ m ≠ [] → GetKeysHash.calls std m 3 keys ≠ none := by
    intro keys h
    rw [calls_eq std m 0]
    cases keys <;> simp_all [GetKeysHash]
  refine ⟨⟨fun ⟨depth, h⟩ => ?_, fun h => ⟨3, hends keys h⟩⟩, fun ⟨depth, h⟩ hm => ?_,
    fun h => ⟨2, hends [] (.inr h)⟩⟩
  · by_contra! hempty
    rw [hempty.1, hempty.2] at h
    exact h (calls_empty std depth).1
  · rw [hm] at h
    exact h (calls_empty std depth).2

theorem empty_record_never_ends :
    ¬ ∃ depth, GetKeysHash.calls (⟨fun _ => "", id⟩ : Stdlib Nat) [] depth [] ≠ none := by
  simp [calls_empty]

end Olake.RowIdentity
