/-
Runs of a machine given by a step function.

A machine takes one action after the other; `run` is the state it ends in.  A
condition on actions that may look at the state it is taken in is meant at every
step, which is what `Along` says.  The rule for invariants (`run_inv`) is the one
induction every result about whole runs rests on.
-/
import Mathlib.Data.List.Basic

namespace Machine

variable {A S : Type} (step : A → S → S)

def run : List A → S → S
  | [], s => s
  | a :: rest, s => run rest (step a s)

/-- Every action of the run meets the condition in the state it is taken in. -/
def Along (ok : A → S → Prop) : List A → S → Prop
  | [], _ => True
  | a :: rest, s => ok a s ∧ Along ok rest (step a s)

instance decidableAlong (ok : A → S → Prop) [∀ a s, Decidable (ok a s)] :
    ∀ l s, Decidable (Along step ok l s)
  | [], _ => isTrue trivial
  | a :: rest, s =>
    have := decidableAlong ok rest (step a s)
    inferInstanceAs (Decidable (ok a s ∧ Along step ok rest (step a s)))

theorem run_append (before after : List A) (s : S) :
    run step (before ++ after) s = run step after (run step before s) := by
  induction before generalizing s with
  | nil => rfl
  | cons a rest ih => exact ih (step a s)

variable {step}

theorem along_append :
    Along step ok (before ++ after) s ↔ Along step ok before s ∧ Along step ok after (run step before s) := by
  induction before generalizing s with
  | nil => simp [Along, run]
  | cons a rest ih =>
    rw [List.cons_append, Along, Along, ih, and_assoc]
    rfl

theorem along_congr (h : ∀ a ∈ l, ∀ s, ok a s ↔ ok' a s) :
    Along step ok l s ↔ Along step ok' l s := by
  induction l generalizing s with
  | nil => exact Iff.rfl
  | cons a rest ih =>
    exact and_congr (h a List.mem_cons_self s) (ih fun b hb => h b (List.mem_cons_of_mem _ hb))

theorem run_inv {I : S → Prop} (hstep : ∀ a s, I s → ok a s → I (step a s)) (hs : I s)
    (hl : Along step ok l s) : I (run step l s) := by
  induction l generalizing s with
  | nil => exact hs
  | cons a rest ih => exact ih (hstep a s hs hl.1) hl.2

theorem run_keeps {I : S → Prop} (hstep : ∀ a s, I s → I (step a s)) (hs : I s) (l : List A) :
    I (run step l s) := by
  induction l generalizing s with
  | nil => exact hs
  | cons a rest ih => exact ih (hstep a s hs)

end Machine
