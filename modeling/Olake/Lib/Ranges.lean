/-
Ranges between successive boundaries.

A list of boundaries cuts a line into ranges: below the first, from each one up to the
next, and from the last on.  A point knows of each boundary whether it is at or above
it; nothing else is assumed, in particular not that the boundaries ascend.

A point lies in exactly one of the ranges if and only if it is above every boundary
that precedes one it is above (`existsUnique_range_iff`).
-/
import Mathlib.Data.List.Chain

namespace Ranges

open List

variable {B : Type}

def rangesFrom (b : B) : List B → List (Option B × Option B)
  | [] => [(some b, none)]
  | b' :: rest => (some b, some b') :: rangesFrom b' rest

/-- The ranges between the boundaries, with the open ones at both ends. -/
def ranges : List B → List (Option B × Option B)
  | [] => []
  | b :: rest => (none, some b) :: rangesFrom b rest

/-- A point that is at or above the boundaries in `above` lies in the range. -/
def Within (above : B → Prop) (range : Option B × Option B) : Prop :=
  (∀ b ∈ range.1, above b) ∧ ∀ b ∈ range.2, ¬ above b

variable {above : B → Prop}

theorem fst_mem_of_mem_rangesFrom {range : Option B × Option B}
    (h : range ∈ rangesFrom b rest) : ∃ a ∈ b :: rest, range.1 = some a := by
  induction rest generalizing b with
  | nil =>
    rw [rangesFrom, mem_singleton] at h
    exact ⟨b, mem_cons_self, by rw [h]⟩
  | cons b' rest ih =>
    rcases mem_cons.1 h with rfl | h
    · exact ⟨b, mem_cons_self, rfl⟩
    · obtain ⟨a, ha, hfst⟩ := ih h
      exact ⟨a, mem_cons_of_mem _ ha, hfst⟩

/-- A point above a boundary lies in a range from there on. -/
theorem exists_within_of_above (h : above b) (rest : List B) :
    ∃ range ∈ rangesFrom b rest, Within above range := by
  induction rest generalizing b with
  | nil => exact ⟨_, mem_singleton.2 rfl, by simpa [Within] using h⟩
  | cons b' rest ih =>
    by_cases hb' : above b'
    · obtain ⟨range, hmem, hin⟩ := ih hb'
      exact ⟨range, mem_cons_of_mem _ hmem, hin⟩
    · exact ⟨_, mem_cons_self, by simpa [Within] using ⟨h, hb'⟩⟩

/-- A point below a boundary lies in none of the later ranges as long as it does not
come to be above a boundary again. -/
theorem forall_not_within_iff (h : ¬ above b) (rest : List B) :
    (∀ range ∈ rangesFrom b rest, ¬ Within above range) ↔
      (b :: rest).IsChain (fun a a' => above a' → above a) := by
  induction rest generalizing b with
  | nil => simpa [rangesFrom, Within] using h
  | cons b' rest ih =>
    rw [isChain_cons_cons, rangesFrom, forall_mem_cons]
    by_cases hb' : above b'
    · obtain ⟨range, hmem, hin⟩ := exists_within_of_above hb' rest
      refine iff_of_false ?_ (fun hchain => h (hchain.1 hb'))
      exact fun hall => hall.2 range hmem hin
    · rw [ih hb']
      have hfirst : ¬ Within above (some b, some b') := fun hin => h (hin.1 b rfl)
      exact and_congr_left (fun _ => iff_of_true hfirst (fun h' => absurd h' hb'))

theorem existsUnique_cons_of_holds {A : Type} {P : A → Prop} {a : A} {l : List A} (ha : P a)
    (hnew : a ∉ l) : (∃! x, x ∈ a :: l ∧ P x) ↔ ∀ x ∈ l, ¬ P x := by
  constructor
  · rintro ⟨y, -, huniq⟩ x hx hPx
    have h1 : a = y := huniq a ⟨mem_cons_self, ha⟩
    have h2 : x = y := huniq x ⟨mem_cons_of_mem _ hx, hPx⟩
    exact hnew (h1.trans h2.symm ▸ hx)
  · intro hnone
    refine ⟨a, ⟨mem_cons_self, ha⟩, ?_⟩
    rintro x ⟨hx, hPx⟩
    rcases mem_cons.1 hx with rfl | hx
    · rfl
    · exact absurd hPx (hnone x hx)

theorem existsUnique_cons_of_not {A : Type} {P : A → Prop} {a : A} {l : List A} (ha : ¬ P a) :
    (∃! x, x ∈ a :: l ∧ P x) ↔ ∃! x, x ∈ l ∧ P x := by
  apply existsUnique_congr
  intro x
  rw [mem_cons]
  constructor
  · rintro ⟨rfl | hx, hPx⟩
    · exact absurd hPx ha
    · exact ⟨hx, hPx⟩
  · rintro ⟨hx, hPx⟩
    exact ⟨.inr hx, hPx⟩

theorem existsUnique_rangesFrom_iff (h : above b) (hnodup : (b :: rest).Nodup) :
    (∃! range, range ∈ rangesFrom b rest ∧ Within above range) ↔
      (b :: rest).IsChain (fun a a' => above a' → above a) := by
  induction rest generalizing b with
  | nil =>
    have hin : Within above (some b, none) := by simpa [Within] using h
    simpa [rangesFrom] using (existsUnique_cons_of_holds hin not_mem_nil).2 (by simp)
  | cons b' rest ih =>
    have htail : (b' :: rest).Nodup := (nodup_cons.1 hnodup).2
    rw [isChain_cons_cons, rangesFrom]
    by_cases hb' : above b'
    · have hfirst : ¬ Within above (some b, some b') := fun hin => hin.2 b' rfl hb'
      rw [existsUnique_cons_of_not hfirst, ih hb' htail]
      exact (and_iff_right (fun _ => h)).symm
    · have hfirst : Within above (some b, some b') := by simpa [Within] using ⟨h, hb'⟩
      have hnew : (some b, some b') ∉ rangesFrom b' rest := by
        intro hmem
        obtain ⟨a, ha, heq⟩ := fst_mem_of_mem_rangesFrom hmem
        exact (nodup_cons.1 hnodup).1 (Option.some.inj heq ▸ ha)
      rw [existsUnique_cons_of_holds hfirst hnew, forall_not_within_iff hb']
      exact (and_iff_right (fun _ => h)).symm

/-- **When a point lies in exactly one range.** -/
theorem existsUnique_range_iff (hne : boundaries ≠ []) (hnodup : boundaries.Nodup) :
    (∃! range, range ∈ ranges boundaries ∧ Within above range) ↔
      boundaries.IsChain (fun a a' => above a' → above a) := by
  cases boundaries with
  | nil => exact absurd rfl hne
  | cons b rest =>
    rw [ranges]
    by_cases hb : above b
    · have hfirst : ¬ Within above (none, some b) := fun hin => hin.2 b rfl hb
      rw [existsUnique_cons_of_not hfirst, existsUnique_rangesFrom_iff hb hnodup]
    · have hfirst : Within above (none, some b) := by simpa [Within] using hb
      have hnew : (none, some b) ∉ rangesFrom b rest := by
        intro hmem
        obtain ⟨a, -, heq⟩ := fst_mem_of_mem_rangesFrom hmem
        cases heq
      rw [existsUnique_cons_of_holds hfirst hnew, forall_not_within_iff hb]

end Ranges
