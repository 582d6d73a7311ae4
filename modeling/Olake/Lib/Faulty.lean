/-
Programs over a store whose calls can fail.

A program runs against a list of faults that says what becomes of each call: it is
done, it is refused (and may be tried again), it returns an error, or the process
crashes in it; in the last two cases the call may have taken effect all the same.
Where the list ends nothing fails any more.

`Spec I P p Q` says what holds however the faults fall: started in `P`, the program
either returns in `Q`, or stops early (with an error or by a crash) in `I`, and the
latter only if there was a fault.  The rules below follow the program's structure,
so the invariant `I` is argued for once per call.
-/
import Mathlib.Data.List.Basic

namespace Faulty

open List

variable {σ α β : Type}

/-! ### Programs -/

inductive Fault where
  | done
  /-- Turned away without effect. -/
  | refused
  | error (applied : Bool)
  | crash (applied : Bool)

inductive Outcome (α : Type) where
  | ok (a : α)
  | error
  | crashed

def Outcome.isOk : Outcome α → Bool
  | .ok _ => true
  | .error => false
  | .crashed => false

/-- A program takes the faults and the store; it leaves the store and the faults it
has not come to. -/
def Prog (σ α : Type) : Type := List Fault → σ → Outcome α × σ × List Fault

namespace Prog

def ret (a : α) : Prog σ α := fun faults s => (.ok a, s, faults)

def fail : Prog σ α := fun faults s => (.error, s, faults)

/-- Sequencing: the second program runs if the first one returned a value. -/
def andThen (p : Prog σ α) (q : α → Prog σ β) : Prog σ β := fun faults s =>
  match p faults s with
  | (.ok a, s', rest) => q a rest s'
  | (.error, s', rest) => (.error, s', rest)
  | (.crashed, s', rest) => (.crashed, s', rest)

instance : Monad (Prog σ) where
  pure := ret
  bind := andThen

/-- A call that is tried again up to `retries` times while it is refused. -/
def call (retries : Nat) (f : σ → α × σ) : Prog σ α
  | [], s => (.ok (f s).1, (f s).2, [])
  | .done :: rest, s => (.ok (f s).1, (f s).2, rest)
  | .refused :: rest, s =>
    match retries with
    | 0 => (.error, s, rest)
    | n + 1 => call n f rest s
  | .error applied :: rest, s => (.error, if applied then (f s).2 else s, rest)
  | .crash applied :: rest, s => (.crashed, if applied then (f s).2 else s, rest)

/-- One after the other, up to the first that fails. -/
def forEach (body : α → Prog σ Unit) : List α → Prog σ Unit
  | [] => ret ()
  | x :: xs => andThen (body x) (fun _ => forEach body xs)

def worse : Outcome Unit → Outcome Unit → Outcome Unit
  | .ok (), o => o
  | .error, .crashed => .crashed
  | .error, _ => .error
  | .crashed, _ => .crashed

/-- Side by side: when one fails, any of the others may still take place. -/
def concurrent (body : α → Prog σ Unit) : List α → Prog σ Unit
  | [], faults, s => (.ok (), s, faults)
  | x :: xs, faults, s =>
    let (o, s', rest) := body x faults s
    let (o', s'', rest') := concurrent body xs rest s'
    (worse o o', s'', rest')

/-- The store after the program has returned or stopped. -/
def after (p : Prog σ α) (faults : List Fault) (s : σ) : σ := (p faults s).2.1

end Prog

open Prog

/-! ### Specifications -/

/-- How a run that was given these faults may end. -/
def Ends (I : σ → Prop) (Q : α → σ → Prop) (faults : List Fault) :
    Outcome α × σ × List Fault → Prop
  | (.ok a, s, rest) => Q a s ∧ (faults = [] → rest = [])
  | (.error, s, _) => I s ∧ faults ≠ []
  | (.crashed, s, _) => I s ∧ faults ≠ []

/-- Started in `P`, the program returns in `Q` or stops early in `I`. -/
def Spec (I P : σ → Prop) (p : Prog σ α) (Q : α → σ → Prop) : Prop :=
  ∀ faults s, P s → Ends I Q faults (p faults s)

variable {I P : σ → Prop} {p : Prog σ α} {Q : α → σ → Prop} {Q' : α → σ → Prop} {I' : σ → Prop}

theorem Ends.mono (h : Ends I Q faults r)
    (hI : ∀ s, I s → I' s) (hQ : ∀ a s, Q a s → Q' a s) : Ends I' Q' faults r := by
  obtain ⟨o, s, rest⟩ := r
  cases o with
  | ok a => exact ⟨hQ a s h.1, h.2⟩
  | error | crashed => exact ⟨hI s h.1, h.2⟩

theorem Spec.mono (h : Spec I P p Q) (hI : ∀ s, I s → I' s) (hP : ∀ s, P' s → P s)
    (hQ : ∀ a s, Q a s → Q' a s) : Spec I' P' p Q' :=
  fun faults s hs => (h faults s (hP s hs)).mono hI hQ

theorem Spec.pre (h : Spec I P p Q) (hP : ∀ s, P' s → P s) : Spec I P' p Q :=
  h.mono (fun _ hs => hs) hP (fun _ _ hq => hq)

theorem Spec.post (h : Spec I P p Q) (hQ : ∀ a s, Q a s → Q' a s) : Spec I P p Q' :=
  h.mono (fun _ hs => hs) (fun _ hs => hs) hQ

theorem Spec.inv (h : Spec I P p Q) (hI : ∀ s, I s → I' s) : Spec I' P p Q :=
  h.mono hI (fun _ hs => hs) (fun _ _ hq => hq)

theorem Spec.of_start (h : ∀ s, P s → Spec I (fun t => t = s) p Q) : Spec I P p Q :=
  fun faults s hs => h s hs faults s rfl

/-- What holds at the end for every index holds for all of them. -/
theorem Spec.forall {ι : Type} [Inhabited ι] {R : ι → α → σ → Prop} (h : ∀ i, Spec I P p (R i)) :
    Spec I P p (fun a s => ∀ i, R i a s) := by
  intro faults s hs
  have hends := fun i => h i faults s hs
  generalize p faults s = r at hends ⊢
  obtain ⟨o, s', rest⟩ := r
  cases o with
  | ok a => exact ⟨fun i => (hends i).1, (hends default).2⟩
  | error | crashed => exact hends default

theorem Spec.ret (h : ∀ s, P s → Q a s) : Spec I P (ret a) Q := fun _ s hs => ⟨h s hs, fun hf => hf⟩

theorem Spec.of_false (h : ∀ s, ¬ P s) : Spec I P p Q := fun _ s hs => absurd hs (h s)

theorem Spec.andThen (hp : Spec I P p Q)
    (hq : ∀ a, Spec I (Q a) (q a) R) : Spec I P (andThen p q) R := by
  intro faults s hs
  have hfirst := hp faults s hs
  unfold Prog.andThen
  generalize p faults s = r at hfirst ⊢
  obtain ⟨o, s', rest⟩ := r
  cases o with
  | error | crashed => exact hfirst
  | ok a =>
    obtain ⟨hQ, hrest⟩ := hfirst
    have hsecond := hq a rest s' hQ
    show Ends I R faults (q a rest s')
    generalize q a rest s' = r' at hsecond ⊢
    obtain ⟨o', s'', rest'⟩ := r'
    cases o' with
    | ok | error | crashed => exact ⟨hsecond.1, fun hf => hsecond.2 (hrest hf)⟩

/-- After a step that only reads. -/
theorem Spec.reads {f : σ → α} (hp : Spec I (fun t => t = s) p (fun a t => t = s ∧ a = f t))
    (hq : Spec I (fun t => t = s) (q (f s)) R) : Spec I (fun t => t = s) (p.andThen q) R := by
  refine hp.andThen (fun a => of_start (fun t ht => ?_))
  obtain ⟨rfl, rfl⟩ := ht
  exact hq

/-- A call that may or may not take effect has to keep the invariant both ways. -/
theorem Spec.call (hI : ∀ s, P s → I s)
    (hf : ∀ s, P s → I (f s).2 ∧ Q (f s).1 (f s).2) : Spec I P (Prog.call retries f) Q := by
  intro faults s hs
  induction faults generalizing retries with
  | nil =>
    rw [Prog.call]
    exact ⟨(hf s hs).2, fun h => h⟩
  | cons fault rest ih =>
    have hfaults : fault :: rest ≠ [] := cons_ne_nil _ _
    cases fault with
    | done =>
      rw [Prog.call]
      exact ⟨(hf s hs).2, fun h => absurd h hfaults⟩
    | refused =>
      cases retries with
      | zero => exact ⟨hI s hs, hfaults⟩
      | succ n =>
        have hagain : Ends I Q rest (Prog.call n f rest s) := ih
        rw [Prog.call]
        generalize Prog.call n f rest s = r at hagain ⊢
        obtain ⟨o, s', rest'⟩ := r
        cases o with
        | ok a => exact ⟨hagain.1, fun h => absurd h hfaults⟩
        | error | crashed => exact ⟨hagain.1, hfaults⟩
    | error applied | crash applied =>
      rw [Prog.call]
      cases applied with
      | true => exact ⟨(hf s hs).1, hfaults⟩
      | false => exact ⟨hI s hs, hfaults⟩

/-! ### Loops -/

/-- A loop keeps what holds of the part of the list behind it. -/
theorem Spec.forEach {J : List α → σ → Prop} (xs : List α)
    (h : ∀ before x rest, xs = before ++ x :: rest →
      Spec I (J before) (body x) (fun _ => J (before ++ [x]))) :
    Spec I (J []) (forEach body xs) (fun _ => J xs) := by
  -- induction on what is left, for any part that is behind
  have hloop : ∀ rest before, before ++ rest = xs →
      Spec I (J before) (Prog.forEach body rest) (fun _ => J xs) := by
    intro rest
    induction rest with
    | nil =>
      intro before hsplit
      rw [append_nil] at hsplit
      rw [hsplit]
      exact Spec.ret (fun s hs => hs)
    | cons x rest ih =>
      intro before hsplit
      refine (h before x rest hsplit.symm).andThen (fun _ => ih (before ++ [x]) ?_)
      rw [append_assoc]
      exact hsplit
  exact hloop xs [] rfl

/-- Side by side: each keeps what the others have done. -/
theorem Spec.concurrent {J : List α → σ → Prop} (xs : List α)
    (hdrop : ∀ before rest s, J (before ++ rest) s → J before s)
    (h : ∀ before, ∀ x ∈ xs, Spec (J before) (J before) (body x) (fun _ => J (before ++ [x]))) :
    Spec (J []) (J []) (concurrent body xs) (fun _ => J xs) := by
  -- what is done already is carried along, also past a failure
  have hall : ∀ before,
      Spec (J before) (J before) (Prog.concurrent body xs) (fun _ => J (before ++ xs)) := by
    induction xs with
    | nil =>
      intro before faults s hs
      rw [append_nil]
      exact ⟨hs, fun hf => hf⟩
    | cons x rest ih =>
      intro before faults s hs
      have hfirst := h before x mem_cons_self faults s hs
      have hrest := ih fun before y hy => h before y (mem_cons_of_mem x hy)
      unfold Prog.concurrent
      generalize body x faults s = r at hfirst ⊢
      obtain ⟨o, s', left⟩ := r
      cases o with
      | ok u =>
        obtain ⟨hx, hleft⟩ := hfirst
        have hsecond := hrest (before ++ [x]) left s' hx
        simp only
        generalize Prog.concurrent body rest left s' = r' at hsecond ⊢
        obtain ⟨o', s'', left'⟩ := r'
        rw [append_assoc] at hsecond
        cases o' with
        | ok u' => exact ⟨hsecond.1, fun hf => hsecond.2 (hleft hf)⟩
        | error | crashed => exact ⟨hdrop _ _ _ hsecond.1, fun hf => hsecond.2 (hleft hf)⟩
      | error | crashed =>
        have hsecond := hrest before left s' hfirst.1
        simp only
        generalize Prog.concurrent body rest left s' = r' at hsecond ⊢
        obtain ⟨o', s'', left'⟩ := r'
        cases o' with
        | ok u' => exact ⟨hdrop _ _ _ hsecond.1, hfirst.2⟩
        | error | crashed => exact ⟨hsecond.1, hfirst.2⟩
  exact hall []

/-! ### Runs -/

/-- However the program ends, the invariant holds. -/
theorem Spec.after_inv (h : Spec I P p Q) (hQ : ∀ a s, Q a s → I s) (hs : P s)
    (faults : List Fault) : I (p.after faults s) := by
  have hends := h faults s hs
  unfold Prog.after
  generalize p faults s = r at hends ⊢
  obtain ⟨o, s', rest⟩ := r
  cases o with
  | ok a => exact hQ a s' hends.1
  | error | crashed => exact hends.1

theorem Spec.of_ok (h : Spec I P p Q) (hs : P s)
    (hrun : (p faults s).1 = .ok a) : Q a (p.after faults s) := by
  have hends := h faults s hs
  unfold Prog.after
  generalize p faults s = r at hends hrun ⊢
  obtain ⟨o, s', rest⟩ := r
  cases hrun
  exact hends.1

theorem Outcome.ok_of_isOk {o : Outcome α} (h : o.isOk = true) : ∃ a, o = .ok a := by
  cases o with
  | ok a => exact ⟨a, rfl⟩
  | error | crashed => cases h

/-- Without a fault the program returns. -/
theorem Spec.without_faults (h : Spec I P p Q) (hs : P s) : ∃ a, Q a (p.after [] s) := by
  have hends := h [] s hs
  unfold Prog.after
  generalize p [] s = r at hends ⊢
  obtain ⟨o, s', rest⟩ := r
  cases o with
  | ok a => exact ⟨a, hends.1⟩
  | error | crashed => exact absurd rfl hends.2

end Faulty
