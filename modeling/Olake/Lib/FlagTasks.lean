/-
Tasks that run at the same time and share a flag.

Each task first prepares, which can fail, and then looks at its item, unless the flag is set by
then; looking may fail too, or set the flag.  The tasks take their steps in turns.  However these
go, when all tasks are done without an error every task could prepare, and the flag is set
exactly if one would set it; if it is not set, every task has looked and found nothing
(`run_spec`).  On the other hand the turns can be taken such that any one task is the first to
look (`exists_fails`, `exists_sets`).
-/
import Mathlib.Data.List.Basic

namespace FlagTasks

open List

variable {E : Type}

inductive Look (E : Type) where
  | fails (e : E)
  | sets
  | clear

/-- A task: the error of its preparation, if any, and what it would find. -/
structure Job (E : Type) where
  prepare : Option E
  look : Look E

inductive Task where
  | waiting
  /-- It is prepared and has seen the flag not set. -/
  | looking
  | done
deriving DecidableEq, Repr

structure State (E : Type) where
  flag : Bool
  /-- The first error. -/
  err : Option E
  task : Nat → Task

def State.finish (s : State E) (i : Nat) : State E :=
  { s with task := fun j => if j = i then .done else s.task j }

def State.fail (s : State E) (i : Nat) (e : E) : State E :=
  { s.finish i with err := some (s.err.getD e) }

variable (jobs : List (Job E))

/-- The next step of a task. -/
def advance (i : Nat) (s : State E) : State E :=
  match jobs[i]? with
  | none => s
  | some job =>
    match s.task i with
    | .done => s
    | .waiting =>
      match job.prepare with
      | some e => s.fail i e
      | none =>
        if s.flag then s.finish i
        else { s with task := fun j => if j = i then .looking else s.task j }
    | .looking =>
      match job.look with
      | .fails e => s.fail i e
      | .sets => { s.finish i with flag := true }
      | .clear => s.finish i

def start : State E := ⟨false, none, fun _ => .waiting⟩

def after (s : State E) (turns : List Nat) : State E := turns.foldl (fun s i => advance jobs i s) s

def run (turns : List Nat) : State E := after jobs start turns

/-- All tasks are done when the turns are over. -/
abbrev Complete (turns : List Nat) : Prop := ∀ i < jobs.length, (run jobs turns).task i = .done

@[simp] theorem finish_task (s : State E) (i j : Nat) :
    (s.finish i).task j = if j = i then .done else s.task j := rfl

@[simp] theorem fail_task (s : State E) (i j : Nat) (e : E) :
    (s.fail i e).task j = if j = i then .done else s.task j := rfl

/-! ### Steps -/

inductive Turn (i : Nat) (s : State E) : State E → Prop
  | idle : (∀ job, jobs[i]? = some job → s.task i = .done) → Turn i s s
  | unprepared {job : Job E} {e : E} : jobs[i]? = some job → s.task i = .waiting → job.prepare = some e →
      Turn i s (s.fail i e)
  | skips {job : Job E} : jobs[i]? = some job → s.task i = .waiting → job.prepare = none → s.flag = true →
      Turn i s (s.finish i)
  | sees {job : Job E} : jobs[i]? = some job → s.task i = .waiting → job.prepare = none → s.flag = false →
      Turn i s { s with task := fun j => if j = i then .looking else s.task j }
  | fails {job : Job E} {e : E} : jobs[i]? = some job → s.task i = .looking → job.look = .fails e →
      Turn i s (s.fail i e)
  | sets {job : Job E} : jobs[i]? = some job → s.task i = .looking → job.look = .sets →
      Turn i s { s.finish i with flag := true }
  | clear {job : Job E} : jobs[i]? = some job → s.task i = .looking → job.look = .clear → Turn i s (s.finish i)

theorem turn_advance (i : Nat) (s : State E) : Turn jobs i s (advance jobs i s) := by
  fun_cases advance jobs i s with
  | case1 hi => exact Turn.idle fun job h => by simp [hi] at h
  | case2 job hi htask => exact Turn.idle fun _ _ => htask
  | case3 job hi htask e hprepare => exact Turn.unprepared hi htask hprepare
  | case4 job hi htask hprepare hflag => exact Turn.skips hi htask hprepare hflag
  | case5 job hi htask hprepare hflag => exact Turn.sees hi htask hprepare (by simpa using hflag)
  | case6 job hi htask e hlook => exact Turn.fails hi htask hlook
  | case7 job hi htask hlook => exact Turn.sets hi htask hlook
  | case8 job hi htask hlook => exact Turn.clear hi htask hlook

variable {jobs} {s : State E}

theorem after_keeps {I : State E → Prop} (hturn : ∀ i s s', I s → Turn jobs i s s' → I s') (hs : I s)
    (turns : List Nat) : I (after jobs s turns) := by
  induction turns generalizing s with
  | nil => exact hs
  | cons i rest ih => exact ih (hturn i s _ hs (turn_advance jobs i s))

/-! ### Whole runs -/

variable (jobs) in
structure Inv (s : State E) : Prop where
  flag : s.flag = true → ∃ job ∈ jobs, job.look = .sets
  err : s.err.isSome → ∃ job ∈ jobs, job.prepare.isSome ∨ ∃ e, job.look = .fails e
  looking : ∀ i job, jobs[i]? = some job → s.task i = .looking → job.prepare = none
  done : ∀ i job, jobs[i]? = some job → s.task i = .done → s.err = none →
    job.prepare = none ∧ (s.flag = true ∨ job.look = .clear)

theorem inv_start : Inv jobs start where
  flag h := by cases h
  err h := by cases h
  looking i job _ h := by cases h
  done i job _ h := by cases h

variable {i : Nat} {s' : State E}

/-- A turn of one task leaves what is known of the others: the flag and the error only grow. -/
theorem Inv.own (h : Inv jobs s) (hi : jobs[i]? = some job)
    (hother : ∀ j, j ≠ i → s'.task j = s.task j) (hgrow : s.flag = true → s'.flag = true)
    (hkeep : s'.err = none → s.err = none) (hflag : s'.flag = true → s.flag = true ∨ job.look = .sets)
    (herr : s'.err.isSome → s.err.isSome ∨ job.prepare.isSome ∨ ∃ e, job.look = .fails e)
    (hlooking : s'.task i = .looking → job.prepare = none)
    (hdone : s'.task i = .done → s'.err = none → job.prepare = none ∧ (s'.flag = true ∨ job.look = .clear)) :
    Inv jobs s' := by
  have hmem := mem_of_getElem? hi
  refine ⟨fun hf => ?_, fun he => ?_, fun j job' hj htask => ?_, fun j job' hj htask hnone => ?_⟩
  · rcases hflag hf with hf | hf
    · exact h.flag hf
    · exact ⟨job, hmem, hf⟩
  · rcases herr he with he | he
    · exact h.err he
    · exact ⟨job, hmem, he⟩
  · by_cases hji : j = i
    · subst hji
      rw [hi] at hj
      cases hj
      exact hlooking htask
    · exact h.looking j job' hj (hother j hji ▸ htask)
  · by_cases hji : j = i
    · subst hji
      rw [hi] at hj
      cases hj
      exact hdone htask hnone
    · obtain ⟨hprepare, hf⟩ := h.done j job' hj (hother j hji ▸ htask) (hkeep hnone)
      exact ⟨hprepare, hf.imp_left hgrow⟩

theorem Inv.turn (h : Inv jobs s) (hturn : Turn jobs i s s') : Inv jobs s' := by
  cases hturn with
  | idle => exact h
  | unprepared hi _ hprepare =>
    exact h.own hi (fun j hj => if_neg hj) id (nofun) .inl
      (fun _ => .inr (.inl (by simp [hprepare]))) (fun htask => by simp at htask) (nofun)
  | skips hi _ hprepare hflag =>
    exact h.own hi (fun j hj => if_neg hj) id id .inl .inl (fun htask => by simp at htask)
      (fun _ _ => ⟨hprepare, .inl hflag⟩)
  | sees hi _ hprepare =>
    exact h.own hi (fun j hj => if_neg hj) id id .inl .inl (fun _ => hprepare) (fun htask => by simp at htask)
  | fails hi _ hlook =>
    exact h.own hi (fun j hj => if_neg hj) id (nofun) .inl
      (fun _ => .inr (.inr ⟨_, hlook⟩)) (fun htask => by simp at htask) (nofun)
  | sets hi htask hlook =>
    exact h.own hi (fun j hj => if_neg hj) (fun _ => rfl) id (fun _ => .inr hlook) .inl
      (fun htask => by simp at htask) (fun _ _ => ⟨h.looking i _ hi htask, .inl rfl⟩)
  | clear hi htask hlook =>
    exact h.own hi (fun j hj => if_neg hj) id id .inl .inl (fun htask => by simp at htask)
      (fun _ _ => ⟨h.looking i _ hi htask, .inr hlook⟩)

theorem inv_run (turns : List Nat) : Inv jobs (run jobs turns) :=
  after_keeps (fun _ _ _ h hturn => h.turn hturn) inv_start turns

/-- What a run comes to, when all tasks are done. -/
theorem run_spec (hcomplete : Complete jobs turns) :
    ((run jobs turns).err.isSome ∧ ∃ job ∈ jobs, job.prepare.isSome ∨ ∃ e, job.look = .fails e) ∨
    (run jobs turns).err = none ∧ (∀ job ∈ jobs, job.prepare = none) ∧
      ((run jobs turns).flag = true ∧ (∃ job ∈ jobs, job.look = .sets) ∨
        (run jobs turns).flag = false ∧ ∀ job ∈ jobs, job.look = .clear) := by
  have hinv : Inv jobs (run jobs turns) := inv_run turns
  unfold Complete at hcomplete
  generalize run jobs turns = s at *
  have hall : s.err = none → ∀ job ∈ jobs, job.prepare = none ∧ (s.flag = true ∨ job.look = .clear) := by
    intro hnone job hjob
    obtain ⟨i, hi⟩ := mem_iff_getElem?.1 hjob
    exact hinv.done i job hi (hcomplete i (List.getElem?_eq_some_iff.1 hi).1) hnone
  cases herr : s.err with
  | some e => exact .inl ⟨rfl, hinv.err (by simp [herr])⟩
  | none =>
    refine .inr ⟨rfl, fun job hjob => (hall herr job hjob).1, ?_⟩
    cases hflag : s.flag with
    | true => exact .inl ⟨rfl, hinv.flag hflag⟩
    | false =>
      refine .inr ⟨rfl, fun job hjob => ?_⟩
      rcases (hall herr job hjob).2 with h | h
      · rw [hflag] at h
        cases h
      · exact h

/-! ### The tasks of items -/

/-- What a look finds, by two properties of the item. -/
inductive Look.Tells (bad sets : Prop) : Look E → Prop
  | fails (e : E) : bad → Tells bad sets (.fails e)
  | sets : sets → Tells bad sets .sets
  | clear : ¬ bad → ¬ sets → Tells bad sets .clear

theorem run_items {X : Type} {items : List X} {job : Nat → X → Job E} (Prepared Bad Sets : X → Prop)
    (hprepare : ∀ i x, (job i x).prepare = none ↔ Prepared x)
    (hlook : ∀ i x, Prepared x → (job i x).look.Tells (Bad x) (Sets x))
    (hcomplete : Complete (items.mapIdx job) turns) :
    let s := run (items.mapIdx job) turns;
    (s.err.isSome ∧ ∃ x ∈ items, ¬ Prepared x ∨ Bad x) ∨
    s.err = none ∧ (∀ x ∈ items, Prepared x) ∧
      (s.flag = true ∧ (∃ x ∈ items, Sets x) ∨ s.flag = false ∧ ∀ x ∈ items, ¬ Bad x ∧ ¬ Sets x) := by
  rcases run_spec hcomplete with ⟨herr, j, hj, hbad⟩ | ⟨herr, hnone, hlooks⟩
  · obtain ⟨i, hi, rfl⟩ := mem_mapIdx.1 hj
    refine .inl ⟨herr, _, getElem_mem hi, ?_⟩
    by_cases hp : Prepared items[i]
    · have htells := hlook i _ hp
      rcases hbad with hbad | ⟨e, hbad⟩
      · rw [(hprepare i _).2 hp] at hbad
        cases hbad
      · rw [hbad] at htells
        cases htells with
        | fails _ h => exact .inr h
    · exact .inl hp
  · have hall : ∀ x ∈ items, Prepared x ∧ ∃ i, job i x ∈ items.mapIdx job := by
      intro x hx
      obtain ⟨i, hi, rfl⟩ := mem_iff_getElem.1 hx
      have hmem : job i items[i] ∈ items.mapIdx job := mem_mapIdx.2 ⟨i, hi, rfl⟩
      exact ⟨(hprepare i _).1 (hnone _ hmem), i, hmem⟩
    refine .inr ⟨herr, fun x hx => (hall x hx).1, ?_⟩
    rcases hlooks with ⟨hflag, j, hj, hsets⟩ | ⟨hflag, hclear⟩
    · obtain ⟨i, hi, rfl⟩ := mem_mapIdx.1 hj
      have htells := hlook i _ (hall _ (getElem_mem hi)).1
      rw [hsets] at htells
      cases htells with
      | sets h => exact .inl ⟨hflag, _, getElem_mem hi, h⟩
    · refine .inr ⟨hflag, fun x hx => ?_⟩
      obtain ⟨hp, i, hmem⟩ := hall x hx
      have htells := hlook i x hp
      rw [hclear _ hmem] at htells
      cases htells with
      | clear hbad hsets => exact ⟨hbad, hsets⟩

/-! ### Taking turns -/

def twoEach (n : Nat) : List Nat := (List.range n).flatMap (fun i => [i, i])

theorem task_done_turn (h : s.task j = .done) (hturn : Turn jobs i s s') : s'.task j = .done := by
  cases hturn with
  | idle => exact h
  | sees _ htask =>
    by_cases hji : j = i
    · subst hji
      rw [h] at htask
      cases htask
    · simpa [hji] using h
  | _ => simp [h]

theorem progress (hi : i < jobs.length) (hturn : Turn jobs i s s') :
    s'.task i = .done ∨ s.task i = .waiting ∧ s'.task i = .looking := by
  cases hturn with
  | idle hidle => exact .inl (hidle _ (getElem?_eq_getElem hi))
  | sees _ htask => exact .inr ⟨htask, by simp⟩
  | _ => exact .inl (by simp)

theorem task_done_twice (s : State E) (hi : i < jobs.length) : (after jobs s [i, i]).task i = .done
    := by
  have hfirst := turn_advance jobs i s
  have hsecond := turn_advance jobs i (advance jobs i s)
  rcases progress hi hfirst with hdone | ⟨-, hlooking⟩
  · exact task_done_turn hdone hsecond
  · rcases progress hi hsecond with hdone | ⟨hwaiting, -⟩
    · exact hdone
    · rw [hlooking] at hwaiting
      cases hwaiting

theorem task_done_twoEach (s : State E) (hi : i < jobs.length) :
    (after jobs s (twoEach jobs.length)).task i = .done := by
  have hall : ∀ (l : List Nat) (s : State E), i ∈ l →
      (after jobs s (l.flatMap (fun i => [i, i]))).task i = .done := by
    intro l
    induction l with
    | nil => exact nofun
    | cons j rest ih =>
      intro s hmem
      rcases mem_cons.1 hmem with rfl | hmem
      · exact after_keeps (fun j s s' hdone hturn => task_done_turn hdone hturn) (task_done_twice s hi) _
      · exact ih _ hmem
  exact hall _ s (mem_range.2 hi)

theorem run_append (first rest : List Nat) : run jobs (first ++ rest) = after jobs (run jobs first) rest :=
  foldl_append

theorem complete_append (first : List Nat) : Complete jobs (first ++ twoEach jobs.length) := by
  intro i hi
  rw [run_append]
  exact task_done_twoEach _ hi

variable (jobs) in
theorem exists_complete : ∃ turns, Complete jobs turns := ⟨_, complete_append []⟩

/-- The turns can be taken such that a task that fails is met. -/
theorem exists_fails (hjob : job ∈ jobs) (hprepare : job.prepare = none)
    (hlook : job.look = .fails e) : ∃ turns, Complete jobs turns ∧ (run jobs turns).err.isSome := by
  obtain ⟨i, hi⟩ := mem_iff_getElem?.1 hjob
  have herr : (run jobs [i, i]).err.isSome := by
    simp [run, after, start, advance, hi, hprepare, hlook, State.fail]
  refine ⟨[i, i] ++ twoEach jobs.length, complete_append _, ?_⟩
  refine after_keeps (I := fun s => s.err.isSome) (fun j s s' hs hturn => ?_) herr _
  cases hturn with
  | unprepared | fails => rfl
  | _ => exact hs

/-- The turns can be taken such that a task that sets the flag is met first, and then no other
looks. -/
theorem exists_sets (hjob : job ∈ jobs) (hlook : job.look = .sets)
    (hprepare : ∀ job ∈ jobs, job.prepare = none) : ∃ turns, Complete jobs turns ∧ (run jobs turns).err = none := by
  obtain ⟨i, hi⟩ := mem_iff_getElem?.1 hjob
  have hstart : let s := run jobs [i, i]; s.err = none ∧ s.flag = true ∧ ∀ j, s.task j ≠ .looking := by
    refine ⟨?_, ?_, fun j => ?_⟩
    · simp [run, after, start, advance, hi, hprepare job hjob, hlook, State.finish]
    · simp [run, after, start, advance, hi, hprepare job hjob, hlook]
    · by_cases hji : j = i <;> simp [run, after, start, advance, hi, hprepare job hjob, hlook, hji]
  refine ⟨[i, i] ++ twoEach jobs.length, complete_append _, ?_⟩
  refine (after_keeps (I := fun s => s.err = none ∧ s.flag = true ∧ ∀ j, s.task j ≠ .looking)
    (fun j s s' hs hturn => ?_) hstart _).1
  obtain ⟨herr, hflag, htask⟩ := hs
  cases hturn with
  | idle => exact ⟨herr, hflag, htask⟩
  | unprepared hj _ hbad =>
    rw [hprepare _ (mem_of_getElem? hj)] at hbad
    cases hbad
  | skips =>
    refine ⟨herr, hflag, fun j' => ?_⟩
    rw [finish_task]
    split
    · simp
    · exact htask j'
  | sees _ _ _ hnot =>
    rw [hflag] at hnot
    cases hnot
  | fails _ hlooking | sets _ hlooking | clear _ hlooking => exact absurd hlooking (htask j)

end FlagTasks
