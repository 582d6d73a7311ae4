/-
Rows that replace each other.

Rows are written one after the other, each to a place of its own, and the last row of a
key is the one that counts.  A store shows a log of writes if what can be read in it is
the last row of every key, and nothing else (`Shows`).  It does so after one more write
if that write hides the rows of its key and no others (`Shows.write`).
-/
import Mathlib.Data.List.Nodup

namespace Versions

open List

variable {L R I : Type} [DecidableEq I] (key : R → I)

/-- The last row of the key, and its place. -/
def last (log : List (L × R)) (i : I) : Option (L × R) :=
  (log.filter (fun e => key e.2 = i)).getLast?

variable {key} {log : List (L × R)} {i : I}

@[simp]
theorem last_nil : last key ([] : List (L × R)) i = none := rfl

variable {e : L × R}

theorem last_append_singleton :
    last key (log ++ [e]) i = if key e.2 = i then some e else last key log i := by
  unfold last
  split
  · next h => simp [h]
  · next h => simp [h]

variable {log' : List (L × R)}

theorem last_append : last key (log ++ log') i = (last key log' i).or (last key log i) := by
  unfold last
  rw [filter_append, getLast?_append]

theorem mem_of_last (h : last key log i = some e) : e ∈ log ∧ key e.2 = i := by
  have hmem := mem_of_getLast? h
  rw [mem_filter, decide_eq_true_eq] at hmem
  exact hmem

theorem last_eq_none : last key log i = none ↔ ∀ e ∈ log, key e.2 ≠ i := by simp [last]

theorem last_of_nodup (hnodup : (log.map (fun e => key e.2)).Nodup) (he : e ∈ log) :
    last key log (key e.2) = some e := by
  cases hlast : last key log (key e.2) with
  | none => exact absurd rfl (last_eq_none.1 hlast e he)
  | some e' =>
    obtain ⟨he', hkey⟩ := mem_of_last hlast
    rw [inj_on_of_nodup_map hnodup he' he hkey]

/-- The last row of a key comes after the others. -/
theorem rel_of_last (hlog : log.Pairwise r)
    (h : last key log i = some e) (he' : e' ∈ log) (hkey : key e'.2 = i) : e' = e ∨ r e' e := by
  obtain ⟨before, hsplit⟩ := getLast?_eq_some_iff.1 h
  have hsorted : (before ++ [e]).Pairwise r := hsplit ▸ hlog.filter _
  have hmem : e' ∈ before ++ [e] := by
    rw [← hsplit, mem_filter]
    exact ⟨he', decide_eq_true hkey⟩
  rcases mem_append.1 hmem with hmem | hmem
  · exact .inr ((pairwise_append.1 hsorted).2.2 e' hmem e (mem_singleton_self e))
  · exact .inl (mem_singleton.1 hmem)

/-- A row that no other row of its key comes after is the last one. -/
theorem last_of_rel (hlog : log.Pairwise r) (he : e ∈ log)
    (hkey : key e.2 = i) (hmax : ∀ e' ∈ log, key e'.2 = i → ¬ r e e') : last key log i = some e := by
  cases hlast : last key log i with
  | none => exact absurd hkey (last_eq_none.1 hlast e he)
  | some e' =>
    obtain ⟨he', hkey'⟩ := mem_of_last hlast
    rcases rel_of_last hlog hlast he hkey with rfl | hrel
    · rfl
    · exact absurd hrel (hmax e' he' hkey')

/-- A row of the log that is not the last of its key. -/
def Superseded (key : R → I) (log : List (L × R)) (l : L) (r : R) : Prop :=
  (l, r) ∈ log ∧ last key log (key r) ≠ some (l, r)

/-- A write to a new place supersedes the last row of its key. -/
theorem superseded_append_singleton (hplace : place ∉ log.map Prod.fst) :
    Superseded key (log ++ [(place, row)]) l r ↔
      Superseded key log l r ∨ last key log (key row) = some (l, r) := by
  have hne : (l, r) ∈ log → (place, row) ≠ (l, r) := by
    rintro hmem heq
    cases heq
    exact hplace (mem_map_of_mem hmem)
  unfold Superseded
  rw [last_append_singleton, mem_append, mem_singleton]
  by_cases hkey : key row = key r
  · rw [if_pos hkey, hkey]
    constructor
    · rintro ⟨hmem | heq, hlast⟩
      · by_cases h : last key log (key r) = some (l, r)
        · exact .inr h
        · exact .inl ⟨hmem, h⟩
      · exact absurd (congrArg some heq.symm) hlast
    · rintro (⟨hmem, -⟩ | h)
      · exact ⟨.inl hmem, fun heq => hne hmem (Option.some.inj heq)⟩
      · have hmem := (mem_of_last h).1
        exact ⟨.inl hmem, fun heq => hne hmem (Option.some.inj heq)⟩
  · rw [if_neg hkey]
    constructor
    · rintro ⟨hmem | heq, hlast⟩
      · exact .inl ⟨hmem, hlast⟩
      · cases heq
        exact absurd rfl hkey
    · rintro (⟨hmem, hlast⟩ | h)
      · exact ⟨.inl hmem, hlast⟩
      · exact absurd (mem_of_last h).2.symm hkey

theorem last_map_key : last (fun x => x) (log.map (fun e => (e.1, key e.2))) i =
    (last key log i).map (fun e => (e.1, key e.2)) := by
  unfold last
  rw [filter_map, getLast?_map]
  rfl

/-- What can be read is the last row of every key. -/
def Shows (key : R → I) (live : L → R → Prop) (log : List (L × R)) : Prop :=
  ∀ l r, live l r ↔ last key log (key r) = some (l, r)

variable {live live' : L → R → Prop}

theorem Shows.congr (h : Shows key live log) (hlive : ∀ l r, live' l r ↔ live l r) :
    Shows key live' log :=
  fun l r => (hlive l r).trans (h l r)

theorem Shows.write (h : Shows key live log)
    (hlive : ∀ l r, live' l r ↔ live l r ∧ key r ≠ key row ∨ l = place ∧ r = row) :
    Shows key live' (log ++ [(place, row)]) := by
  intro l r
  rw [last_append_singleton, hlive]
  by_cases hkey : key row = key r
  · rw [if_pos hkey]
    constructor
    · rintro (⟨-, hne⟩ | ⟨rfl, rfl⟩)
      · exact absurd hkey.symm hne
      · rfl
    · intro heq
      cases heq
      exact .inr ⟨rfl, rfl⟩
  · rw [if_neg hkey, h l r]
    constructor
    · rintro (⟨hlast, -⟩ | ⟨-, rfl⟩)
      · exact hlast
      · exact absurd rfl hkey
    · intro hlast
      exact .inl ⟨hlast, fun heq => hkey heq.symm⟩

/-- Several writes, that hide the older rows of their keys and those of each other. -/
theorem Shows.append (h : Shows key live log)
    (hlive : ∀ l r, live' l r ↔
      live l r ∧ last key log' (key r) = none ∨ last key log' (key r) = some (l, r)) :
    Shows key live' (log ++ log') := by
  intro l r
  rw [last_append, hlive, h l r]
  cases last key log' (key r) with
  | none | some => simp

end Versions
