/-
Logs whose entries end at growing positions.

A change-data-capture source is read as a log: a list of entries, each of which
ends at a position of its own, the positions strictly growing along the list.
A reader that starts at a position `p` is handed the entries after `p` in order,
and everything it can later persist is a position it has reached.

Two facts carry every proof about such a reader.  The entries between two
positions split at any position in between (`between_split`), so what two
consecutive passes read is what one long pass would have read.  And the entries
a reader has consumed are exactly the entries between its start and the position
it has reached (`between_reached`), so a position alone says what has been read.
-/
import Mathlib.Order.Lattice
import Mathlib.Data.List.Basic

namespace Log

open List

variable {P E : Type}

/-- The position of a reader that started at `p` and has consumed `l`. -/
def reached (pos : E → P) (p : P) (l : List E) : P :=
  l.foldl (fun _ e => pos e) p

section Reached

variable {pos : E → P} {p : P} {e : E} {l new : List E}

@[simp] theorem reached_nil : reached pos p [] = p := rfl

@[simp] theorem reached_cons : reached pos p (e :: l) = reached pos (pos e) l := rfl

/-- A reader stands at its start or at the end of an entry it has consumed. -/
theorem reached_cases (pos : E → P) (p : P) (l : List E) :
    reached pos p l = p ∨ ∃ e ∈ l, reached pos p l = pos e := by
  induction l generalizing p with
  | nil => exact .inl rfl
  | cons a rest ih =>
    right
    rcases ih (pos a) with h | ⟨e, he, h⟩
    · exact ⟨a, mem_cons_self, h⟩
    · exact ⟨e, mem_cons_of_mem _ he, h⟩

end Reached

variable [LinearOrder P] (pos : E → P)

/-- The entries' positions strictly grow along the log. -/
def Increasing (log : List E) : Prop :=
  log.Pairwise (fun a b => pos a < pos b)

/-- The entries a reader starting at `p` is still to be handed. -/
def after (p : P) (log : List E) : List E :=
  log.filter (fun e => decide (p < pos e))

def between (p q : P) (log : List E) : List E :=
  log.filter (fun e => decide (p < pos e ∧ pos e ≤ q))

variable {pos} {p q r : P} {e : E} {log l done todo new : List E}

/-! ### Positions reached -/

/-- Nothing consumed lies beyond the position reached. -/
theorem le_reached (hinc : Increasing pos l) (he : e ∈ l) : pos e ≤ reached pos p l := by
  induction l generalizing p with
  | nil => cases he
  | cons a rest ih =>
    rw [reached_cons]
    have hrest : Increasing pos rest := (pairwise_cons.1 hinc).2
    rcases mem_cons.1 he with rfl | hmem
    · rcases reached_cases pos (pos e) rest with h | ⟨b, hb, h⟩
      · exact le_of_eq h.symm
      · rw [h]
        exact le_of_lt ((pairwise_cons.1 hinc).1 b hb)
    · exact ih hrest hmem

theorem start_le_reached (h : ∀ e ∈ l, p < pos e) : p ≤ reached pos p l := by
  rcases reached_cases pos p l with heq | ⟨e, he, heq⟩
  · exact le_of_eq heq.symm
  · rw [heq]
    exact le_of_lt (h e he)

/-! ### Slices of a log -/

theorem mem_after : e ∈ after pos p log ↔ e ∈ log ∧ p < pos e := by simp [after]

theorem mem_between : e ∈ between pos p q log ↔ e ∈ log ∧ p < pos e ∧ pos e ≤ q := by simp [between]

theorem after_increasing (hinc : Increasing pos log) : Increasing pos (after pos p log) :=
  hinc.sublist filter_sublist

@[simp] theorem between_self : between pos p p log = [] := by
  rw [eq_nil_iff_forall_not_mem]
  intro e he
  obtain ⟨_, hlt, hle⟩ := mem_between.1 he
  exact absurd hlt (not_lt.2 hle)

theorem between_eq_filter_after :
    between pos p q log = (after pos p log).filter (fun e => decide (pos e ≤ q)) := by
  unfold between after
  simp [and_comm]

theorem between_cons_of_pos (h : p < pos e ∧ pos e ≤ q) :
    between pos p q (e :: l) = e :: between pos p q l :=
  filter_cons_of_pos (by simpa using h)

theorem between_cons_of_neg (h : ¬ (p < pos e ∧ pos e ≤ q)) :
    between pos p q (e :: l) = between pos p q l :=
  filter_cons_of_neg (by simpa using h)

theorem between_eq_nil (h : ∀ e ∈ l, q < pos e) : between pos p q l = [] := by
  rw [eq_nil_iff_forall_not_mem]
  intro e he
  obtain ⟨hmem, _, hle⟩ := mem_between.1 he
  exact absurd hle (not_le.2 (h e hmem))

theorem between_split (hinc : Increasing pos log) (hpq : p ≤ q) (hqr : q ≤ r) :
    between pos p r log = between pos p q log ++ between pos q r log := by
  induction log with
  | nil => rfl
  | cons a rest ih =>
    have hrest := ih (pairwise_cons.1 hinc).2
    by_cases hq : pos a ≤ q
    · -- the head lies in the first slice, or before both
      rw [between_cons_of_neg (p := q) (fun h => absurd h.1 (not_lt.2 hq))]
      by_cases hp : p < pos a
      · rw [between_cons_of_pos ⟨hp, le_trans hq hqr⟩, between_cons_of_pos ⟨hp, hq⟩, hrest,
          cons_append]
      · rw [between_cons_of_neg (fun h => hp h.1), between_cons_of_neg (fun h => hp h.1), hrest]
    · -- the head lies after `q`, and so does everything behind it
      have hgt : q < pos a := not_le.1 hq
      have hnil : between pos p q rest = [] :=
        between_eq_nil (fun e he => lt_trans hgt ((pairwise_cons.1 hinc).1 e he))
      rw [between_cons_of_neg (q := q) (fun h => hq h.2), hnil, nil_append]
      rw [hnil, nil_append] at hrest
      by_cases hr : pos a ≤ r
      · rw [between_cons_of_pos ⟨lt_of_le_of_lt hpq hgt, hr⟩, between_cons_of_pos ⟨hgt, hr⟩, hrest]
      · rw [between_cons_of_neg (fun h => hr h.2), between_cons_of_neg (fun h => hr h.2), hrest]

/-- A position behind the first entries and before the others cuts between them. -/
theorem filter_of_cut (hdone : ∀ e ∈ done, pos e ≤ q) (htodo : ∀ e ∈ todo, q < pos e) :
    (done ++ todo).filter (fun e => decide (pos e ≤ q)) = done := by
  rw [filter_append]
  have hkeep : done.filter (fun e => decide (pos e ≤ q)) = done := by
    rw [filter_eq_self]
    intro e he
    simpa using hdone e he
  have hdrop : todo.filter (fun e => decide (pos e ≤ q)) = [] := by
    rw [filter_eq_nil_iff]
    intro e he
    simpa using htodo e he
  rw [hkeep, hdrop, append_nil]

theorem between_of_cut (hread : after pos p log = done ++ todo) (hdone : ∀ e ∈ done, pos e ≤ q)
    (htodo : ∀ e ∈ todo, q < pos e) : between pos p q log = done := by
  rw [between_eq_filter_after, hread, filter_of_cut hdone htodo]

/-- What a reader has consumed is the slice between its start and the position
it has reached. -/
theorem between_reached (hinc : Increasing pos log) (hread : after pos p log = done ++ todo) :
    between pos p (reached pos p done) log = done := by
  have hsorted : Increasing pos (done ++ todo) := hread ▸ after_increasing hinc
  have hdone : Increasing pos done := (pairwise_append.1 hsorted).1
  refine between_of_cut hread (fun e he => le_reached hdone he) (fun e he => ?_)
  rcases reached_cases pos p done with heq | ⟨d, hd, heq⟩
  · rw [heq]
    have hmem : e ∈ after pos p log := by
      rw [hread]
      exact mem_append_right _ he
    exact (mem_after.1 hmem).2
  · rw [heq]
    exact (pairwise_append.1 hsorted).2.2 d hd e he

theorem between_extend (hnew : ∀ e ∈ new, q < pos e) :
    between pos p q (log ++ new) = between pos p q log := by
  have hnil : between pos p q new = [] := between_eq_nil hnew
  unfold between at hnil ⊢
  rw [filter_append, hnil, append_nil]

/-- In a sorted list cut in two, the first part is what lies up to `q` exactly when
nothing of it lies beyond and nothing of the second part lies before; it suffices to
compare the lists through any function of the entries. -/
theorem map_eq_filter_iff {X : Type} (g : E → X)
    (hsorted : (done ++ todo).Pairwise (fun a b => pos a ≤ pos b)) :
    done.map g = ((done ++ todo).filter (fun e => decide (pos e ≤ q))).map g ↔
      (∀ e ∈ done, pos e ≤ q) ∧ ∀ e ∈ todo, q < pos e := by
  constructor
  · intro h
    have hlen := congrArg length h
    rw [length_map, length_map] at hlen
    have htodo : ∀ e ∈ todo, q < pos e := by
      intro e he
      by_contra hle
      -- then the first part lies up to `q` as a whole, and the second adds to it
      have hall : done.filter (fun e => decide (pos e ≤ q)) = done := by
        rw [filter_eq_self]
        intro d hd
        have hde := (pairwise_append.1 hsorted).2.2 d hd e he
        exact decide_eq_true (hde.trans (not_lt.1 hle))
      have hmem : e ∈ todo.filter (fun e => decide (pos e ≤ q)) :=
        mem_filter.2 ⟨he, decide_eq_true (not_lt.1 hle)⟩
      have hpos := length_pos_of_mem hmem
      rw [filter_append, hall, length_append] at hlen
      omega
    refine ⟨fun e he => ?_, htodo⟩
    have hnil : todo.filter (fun e => decide (pos e ≤ q)) = [] := by
      rw [filter_eq_nil_iff]
      intro e he
      simpa using htodo e he
    rw [filter_append, hnil, append_nil] at hlen
    exact of_decide_eq_true (length_filter_eq_length_iff.1 hlen.symm e he)
  · rintro ⟨hdone, htodo⟩
    rw [filter_of_cut hdone htodo]

end Log
