/-
Events for many machines at once.

A family of machines, one for each key, is fed a list of events that each go to one key.  A
machine may refuse an event, and then the whole list is refused.  The machines do not see each
other's events: the list is accepted exactly if each machine accepts the events for its key, in
their order (`feed_eq_some_iff`).
-/
import Mathlib.Logic.Function.Basic

namespace Keyed

open Function Option

variable {K S E : Type}

/-- One machine over a list of events; `none` when it refuses one. -/
def run (step : S → E → Option S) : S → List E → Option S
  | s, [] => some s
  | s, e :: rest => (step s e).bind (fun s' => run step s' rest)

@[simp] theorem run_nil (step : S → E → Option S) (s : S) : run step s [] = some s := rfl

theorem run_append (step : S → E → Option S) (s : S) (l l' : List E) :
    run step s (l ++ l') = (run step s l).bind (fun s' => run step s' l') := by
  induction l generalizing s with
  | nil => rfl
  | cons e rest ih =>
    simp only [run, bind_assoc]
    exact congrArg _ (funext fun s' => ih s')

/-- A property that each accepted event keeps holds at the end. -/
theorem run_induction {I : S → List E → Prop} (hs : I s [])
    (hstep : ∀ s e seen s', I s seen → step s e = some s' → I s' (seen ++ [e]))
    (h : run step s l = some s') : I s' l := by
  have hall : ∀ (l seen : List E) (s : S), I s seen → run step s l = some s' → I s' (seen ++ l) := by
    intro l
    induction l with
    | nil =>
      intro seen s hs h
      cases h
      simpa using hs
    | cons e rest ih =>
      intro seen s hs h
      obtain ⟨s₁, he, hrest⟩ := bind_eq_some_iff.1 h
      simpa using ih (seen ++ [e]) s₁ (hstep s e seen s₁ hs he) hrest
  exact hall l [] s hs h

section Feed

variable [DecidableEq K]

def eventsOf (k : K) (l : List (K × E)) : List E := l.filterMap (fun p => if p.1 = k then some p.2 else none)

/-- The events go to the machines one by one. -/
def feed (step : K → S → E → Option S) : (K → S) → List (K × E) → Option (K → S)
  | s, [] => some s
  | s, (k, e) :: rest => (step k (s k) e).bind (fun c => feed step (Function.update s k c) rest)

theorem eventsOf_cons_self (k : K) (e : E) (l : List (K × E)) : eventsOf k ((k, e) :: l) = e :: eventsOf k l := by
  simp [eventsOf]

theorem eventsOf_cons_of_ne (h : k ≠ k') (e : E) (l : List (K × E)) :
    eventsOf k' ((k, e) :: l) = eventsOf k' l := by
  simp [eventsOf, h]

theorem eventsOf_append (k : K) (l l' : List (K × E)) : eventsOf k (l ++ l') = eventsOf k l ++ eventsOf k l' := by
  simp [eventsOf]

theorem feed_eq_some_iff (step : K → S → E → Option S) (s s' : K → S) (l : List (K × E)) :
    feed step s l = some s' ↔ ∀ k, run (step k) (s k) (eventsOf k l) = some (s' k) := by
  induction l generalizing s with
  | nil =>
    simp only [feed, some.injEq, eventsOf, List.filterMap_nil, run_nil]
    exact funext_iff
  | cons p rest ih =>
    obtain ⟨k, e⟩ := p
    -- the event moves its own machine and no other
    have hother : ∀ c k', k ≠ k' → (run (step k') (update s k c k') (eventsOf k' rest) = some (s' k') ↔
        run (step k') (s k') (eventsOf k' ((k, e) :: rest)) = some (s' k')) := by
      intro c k' hne
      rw [eventsOf_cons_of_ne hne, update_of_ne (Ne.symm hne)]
    simp only [feed, bind_eq_some_iff]
    constructor
    · rintro ⟨c, hc, hrest⟩ k'
      have hk' := (ih _).1 hrest k'
      by_cases hne : k = k'
      · subst hne
        rw [update_self] at hk'
        rw [eventsOf_cons_self, run, hc]
        exact hk'
      · exact (hother c k' hne).1 hk'
    · intro h
      have hk := h k
      rw [eventsOf_cons_self] at hk
      obtain ⟨c, hc, hrun⟩ := bind_eq_some_iff.1 hk
      refine ⟨c, hc, (ih _).2 fun k' => ?_⟩
      by_cases hne : k = k'
      · subst hne
        rw [update_self]
        exact hrun
      · exact (hother c k' hne).2 (h k')

end Feed

end Keyed
