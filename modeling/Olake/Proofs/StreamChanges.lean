/-
What one attempt of `streamChanges` can do, once and for every driver.

`Attempted` lists the ways an attempt can end, each with what it left at the
destination and in the driver: the writers could not all be created, the driver
did not stream, some writers committed and some did not, or all of them did.
Only the first and the last run `PostCDC` on a live context.  Every invariant of
a driver is then a case analysis over `Attempted`, and no proof about a driver
unfolds the loop that closes the writers.
-/
import Mathlib.Algebra.GroupWithZero.Nat
import Olake.Model.StreamChanges

namespace Olake

open List Function Bool

variable {S Row Meta σ In : Type} [DecidableEq S]

instance neZeroTwo : NeZero 2 := ⟨by decide⟩

/-- The positions of the tables. -/
abbrev System.states (sys : System σ S Row Meta) : S → Option Meta := fun s => (sys.dest s).state

/-! ### Rows pushed to one writer -/

@[simp] theorem rowsFor_nil (s : S) : rowsFor s ([] : List (S × Row)) = [] := rfl

@[simp] theorem rowsFor_append (s : S) (l l' : List (S × Row)) :
    rowsFor s (l ++ l') = rowsFor s l ++ rowsFor s l' :=
  filterMap_append

theorem rowsFor_map_self (s : S) (rows : List Row) :
    rowsFor s (rows.map (fun r => (s, r))) = rows := by
  unfold rowsFor
  simp

theorem rowsFor_map_of_ne {s s' : S} (h : s' ≠ s) (rows : List Row) :
    rowsFor s' (rows.map (fun r => (s, r))) = [] := by
  unfold rowsFor
  rw [filterMap_map, filterMap_eq_nil_iff]
  intro r _
  simp [Ne.symm h]

theorem mem_rowsFor {l : List (S × Row)} : r ∈ rowsFor s l ↔ (s, r) ∈ l := by
  unfold rowsFor
  rw [mem_filterMap]
  constructor
  · rintro ⟨⟨s', r'⟩, hmem, heq⟩
    split at heq
    · rename_i hs
      cases heq
      cases hs
      exact hmem
    · cases heq
  · intro hmem
    exact ⟨(s, r), hmem, if_pos rfl⟩

theorem rowsFor_filter_of_mem {filter : List S} (hs : s ∈ filter) (l : List (S × Row)) :
    rowsFor s (l.filter (fun c => decide (c.1 ∈ filter))) = rowsFor s l := by
  unfold rowsFor
  rw [filterMap_filter]
  congr 1
  funext c
  by_cases hc : c.1 = s
  · simp [hc, hs]
  · simp [hc]

theorem rowsFor_filter_of_notMem {filter : List S} (hs : s ∉ filter)
    (l : List (S × Row)) : rowsFor s (l.filter (fun c => decide (c.1 ∈ filter))) = [] := by
  unfold rowsFor
  rw [filterMap_filter, filterMap_eq_nil_iff]
  intro c _
  by_cases hc : c.1 = s
  · simp [hc, hs]
  · simp [hc]

/-! ### Commits -/

variable (merge : Meta → Meta → Meta) (t : Table Row Meta)

@[simp] theorem commit_nil (f : Option Meta) :
    t.commit merge [] f = t := if_pos rfl

theorem commit_of_ne_nil (h : rows ≠ []) (f : Option Meta) :
    t.commit merge rows f = { rows := t.rows ++ rows, state := mergeState merge t.state f } :=
  if_neg h

@[simp] theorem commit_rows (rows : List Row)
    (f : Option Meta) : (t.commit merge rows f).rows = t.rows ++ rows := by
  by_cases h : rows = []
  · subst h
    rw [commit_nil, append_nil]
  · rw [commit_of_ne_nil merge t h]

/-! ### The loop over the writers -/

/-- What the loop leaves in the table of `s`, when it visits `order`. -/
def destAfter (merge : Meta → Meta → Meta) (r : Streamed σ S Row Meta) (outcome : S → CloseOutcome)
    (order : List S) (dest : S → Table Row Meta) (s : S) : Table Row Meta :=
  if s ∈ order ∧ (outcome s).durable then (dest s).commit merge (rowsFor s r.pushed) (r.final s)
  else dest s

variable (r : Streamed σ S Row Meta) (outcome : S → CloseOutcome)

variable {merge r} in
theorem destAfter_of_rows_nil (h : rowsFor s r.pushed = []) :
    destAfter merge r outcome order dest s = dest s := by
  unfold destAfter
  rw [h, commit_nil, ite_self]

/-- A table that has changed was committed to. -/
theorem destAfter_cases (order : List S) (dest : S → Table Row Meta) (s : S) :
    destAfter merge r outcome order dest s = dest s ∨
    (s ∈ order ∧ (outcome s).durable = true) ∧ rowsFor s r.pushed ≠ [] ∧
      destAfter merge r outcome order dest s
        = (dest s).commit merge (rowsFor s r.pushed) (r.final s) := by
  by_cases hrows : rowsFor s r.pushed = []
  · exact .inl (destAfter_of_rows_nil outcome hrows)
  · by_cases hs : s ∈ order ∧ (outcome s).durable
    · exact .inr ⟨hs, hrows, if_pos hs⟩
    · exact .inl (if_neg hs)

theorem closeWriters_done (order : List S) (dest : S → Table Row Meta) :
    (closeWriters merge true r outcome order dest).1 = dest := by
  induction order with
  | nil => rfl
  | cons s rest ih =>
    have hstay : update dest s (dest s) = dest := update_eq_self s dest
    simp only [closeWriters, closeWriter, if_true]
    rw [hstay]
    exact ih

theorem closeWriters_dest (dest : S → Table Row Meta) (hnodup : order.Nodup) :
    (closeWriters merge false r outcome order dest).1 = destAfter merge r outcome order dest := by
  induction order generalizing dest with
  | nil =>
    funext s
    simp [closeWriters, destAfter]
  | cons a rest ih =>
    obtain ⟨hfresh, hrest⟩ := nodup_cons.1 hnodup
    simp only [closeWriters]
    rw [ih _ hrest]
    funext s
    by_cases hs : s = a
    · -- the head's table is not touched again
      subst hs
      simp [destAfter, closeWriter, hfresh]
    · simp [destAfter, hs]

theorem closeWriters_err (order : List S) (dest : S → Table Row Meta) :
    (closeWriters merge false r outcome order dest).2 = false ↔
      ∀ s ∈ order, outcome s = .committed := by
  induction order generalizing dest with
  | nil => simp [closeWriters]
  | cons a rest ih =>
    simp only [closeWriters, closeWriter, false_eq_true, if_false,
      or_eq_false_iff, bne_eq_false_iff_eq, forall_mem_cons]
    rw [ih]

/-- The loop commutes with a map of the tables that every commit commutes with. -/
theorem closeWriters_map {Row' Meta' : Type} (f : Table Row Meta → Table Row' Meta')
    {merge : Meta → Meta → Meta} {merge' : Meta' → Meta' → Meta'}
    {r : Streamed σ S Row Meta} {r' : Streamed σ S Row' Meta'}
    (hf : ∀ s t, f (t.commit merge (rowsFor s r.pushed) (r.final s)) =
      (f t).commit merge' (rowsFor s r'.pushed) (r'.final s))
    (done : Bool) (outcome : S → CloseOutcome) (order : List S) (dest : S → Table Row Meta) :
    closeWriters merge' done r' outcome order (fun s => f (dest s)) =
      ((fun s => f ((closeWriters merge done r outcome order dest).1 s)),
        (closeWriters merge done r outcome order dest).2) := by
  induction order generalizing dest with
  | nil => rfl
  | cons s rest ih =>
    have hclose : closeWriter merge' done (rowsFor s r'.pushed) (r'.final s) (outcome s) (f (dest s)) =
        (closeWriter merge done (rowsFor s r.pushed) (r.final s) (outcome s) (dest s)).map f id := by
      unfold closeWriter
      split
      · rfl
      · split <;> simp [hf]
    have hupdate : ∀ t, update (fun s' => f (dest s')) s (f t) =
        fun s' => f (update dest s t s') := fun t =>
      (comp_update f dest s t).symm
    simp only [closeWriters, hclose, Prod.map_fst, Prod.map_snd, id, hupdate, ih]

theorem destAfter_congr (dest : S → Table Row Meta) (h : ∀ s, s ∈ order ↔ s ∈ order') :
    destAfter merge r outcome order dest = destAfter merge r outcome order' dest := by
  funext s
  simp only [destAfter, h s]

/-! ### The ways an attempt ends -/

/-- The writers an attempt comes to close. -/
def Attempt.visited {streams : List S} (a : Attempt streams In) : List S :=
  match a.diesAfter with
  | some k => a.order.take k
  | none => a.order

omit [DecidableEq S] in
theorem visited_nodup (a : Attempt streams In) : a.visited.Nodup := by
  unfold Attempt.visited
  cases a.diesAfter with
  | some k => exact a.order_nodup.sublist (take_sublist k _)
  | none => exact a.order_nodup

section Attempted

variable (D : DriverInterface S Row Meta σ In) {streams : List S}

/-- What the driver's `StreamChanges` does in an attempt that creates its writers. -/
def streamed (a : Attempt streams In) (sys : System σ S Row Meta) : Streamed σ S Row Meta :=
  D.StreamChanges a.input sys.world sys.states

/-- The ways one attempt can end. -/
inductive Attempted (a : Attempt streams In) (sys : System σ S Row Meta) :
    System σ S Row Meta → Prop
  /-- A writer could not be created; `PostCDC` still runs. -/
  | notCreated (k : Fin streams.length) (done : Bool) (h : a.createFails = some (k, done)) :
      Attempted a sys { sys with world := runPostCDC D a.input done sys.world }
  /-- The driver failed, was cancelled or never returned. -/
  | notStreamed (h : a.createFails = none) (hr : (streamed D a sys).exit ≠ .ok) (w : σ)
      (hw : w = D.newProcess (streamed D a sys).world ∨
        w = runPostCDC D a.input true (streamed D a sys).world) :
      Attempted a sys { sys with world := w }
  /-- The driver streamed; any of the writers committed, and `PostCDC` was not
  reached or found its context done. -/
  | notSaved (h : a.createFails = none) (hr : (streamed D a sys).exit = .ok) (w : σ)
      (hw : w = D.newProcess (streamed D a sys).world ∨
        w = runPostCDC D a.input true (streamed D a sys).world) :
      Attempted a sys
        { world := w, dest := destAfter D.merge (streamed D a sys) a.outcome a.visited sys.dest }
  /-- The driver streamed, every writer committed, and `PostCDC` ran. -/
  | saved (h : a.createFails = none) (hr : (streamed D a sys).exit = .ok)
      (hd : a.diesAfter = none) (hcancel : a.cancelled = false)
      (hall : ∀ s ∈ streams, a.outcome s = .committed) :
      Attempted a sys
        { world := runPostCDC D a.input false (streamed D a sys).world
          dest := destAfter D.merge (streamed D a sys) a.outcome streams sys.dest }

variable (a : Attempt streams In)

/-- After a `StreamChanges` that did not return nil no writer commits. -/
theorem runDeferred_of_not_ok (dest : S → Table Row Meta)
    {r : Streamed σ S Row Meta} (hr : r.exit ≠ .ok) :
    ∃ w, (w = D.newProcess r.world ∨ w = runPostCDC D a.input true r.world) ∧
      runDeferred D a dest r = { world := w, dest := dest } := by
  have hdone : (r.exit != .ok) = true := bne_iff_ne.2 hr
  unfold runDeferred
  rw [hdone]
  simp only [closeWriters_done]
  cases hexit : r.exit with
  | killed => exact ⟨_, .inl rfl, rfl⟩
  | ok => exact absurd hexit hr
  | err | cancelled =>
    cases a.diesAfter with
    | some k => exact ⟨_, .inl rfl, rfl⟩
    | none => exact ⟨_, .inr rfl, rfl⟩

theorem streamChanges_attempted (sys : System σ S Row Meta) :
    Attempted D a sys (streamChanges D a sys) := by
  unfold streamChanges
  cases hc : a.createFails with
  | some kd =>
    obtain ⟨k, done⟩ := kd
    exact .notCreated k done hc
  | none =>
    show Attempted D a sys (runDeferred D a sys.dest (streamed D a sys))
    by_cases hr : (streamed D a sys).exit = .ok
    · unfold runDeferred
      simp only [hr, bne_self_eq_false, Bool.false_or]
      have hvisited := closeWriters_dest D.merge (streamed D a sys) a.outcome sys.dest
        (visited_nodup a)
      cases hd : a.diesAfter with
      | some k =>
        have horder : a.visited = a.order.take k := by simp only [Attempt.visited, hd]
        simp only [← horder, hvisited]
        exact .notSaved hc hr _ (.inl rfl)
      | none =>
        have horder : a.visited = a.order := by simp only [Attempt.visited, hd]
        simp only [← horder, hvisited]
        cases hdone : ((closeWriters D.merge false (streamed D a sys) a.outcome a.visited
            sys.dest).2 || a.cancelled) with
        | true => exact .notSaved hc hr _ (.inr rfl)
        | false =>
          obtain ⟨herr, hcancel⟩ := Bool.or_eq_false_iff.1 hdone
          rw [horder] at herr ⊢
          rw [destAfter_congr D.merge _ _ _ a.mem_order]
          exact .saved hc hr hd hcancel (fun s hs =>
            (closeWriters_err D.merge _ _ _ _).1 herr s ((a.mem_order s).2 hs))
    · obtain ⟨w, hw, heq⟩ := runDeferred_of_not_ok D a sys.dest hr
      rw [heq]
      exact .notStreamed hc hr w hw

/-- An attempt in which nothing fails saves. -/
theorem streamChanges_saved {a : Attempt streams In} (hc : a.createFails = none)
    (hr : (streamed D a sys).exit = .ok) (hd : a.diesAfter = none) (hcancel : a.cancelled = false)
    (hall : ∀ s ∈ streams, a.outcome s = .committed) : streamChanges D a sys =
      { world := runPostCDC D a.input false (streamed D a sys).world
        dest := destAfter D.merge (streamed D a sys) a.outcome streams sys.dest } := by
  have herr : (closeWriters D.merge false (streamed D a sys) a.outcome a.order sys.dest).2
      = false :=
    (closeWriters_err D.merge _ _ _ _).2 (fun s hs => hall s ((a.mem_order s).1 hs))
  unfold streamChanges
  rw [hc]
  show runDeferred D a sys.dest (streamed D a sys) = _
  unfold runDeferred
  simp only [hr, hd, bne_self_eq_false, Bool.false_or, herr, hcancel,
    closeWriters_dest D.merge _ _ _ a.order_nodup]
  rw [destAfter_congr D.merge _ _ _ a.mem_order]

/-- A table is left as it is, or gets the rows that the driver streamed for it. -/
theorem streamChanges_dest (sys : System σ S Row Meta) (s : S) :
    (streamChanges D a sys).dest s = sys.dest s ∨
      (a.createFails = none ∧ (streamed D a sys).exit = .ok ∧ (a.outcome s).durable = true ∧
        rowsFor s (streamed D a sys).pushed ≠ [] ∧
        (streamChanges D a sys).dest s = (sys.dest s).commit D.merge
          (rowsFor s (streamed D a sys).pushed) ((streamed D a sys).final s)) := by
  have hclosed : ∀ order, a.createFails = none → (streamed D a sys).exit = .ok →
      destAfter D.merge (streamed D a sys) a.outcome order sys.dest s = sys.dest s ∨
      (a.createFails = none ∧ (streamed D a sys).exit = .ok ∧ (a.outcome s).durable = true ∧
        rowsFor s (streamed D a sys).pushed ≠ [] ∧
        destAfter D.merge (streamed D a sys) a.outcome order sys.dest s = (sys.dest s).commit D.merge
          (rowsFor s (streamed D a sys).pushed) ((streamed D a sys).final s)) :=
    fun order hc hr => (destAfter_cases _ _ _ order _ s).imp_right (fun ⟨hs, hcommit⟩ => ⟨hc, hr, hs.2, hcommit⟩)
  have hattempted := streamChanges_attempted D a sys
  generalize streamChanges D a sys = sys' at hattempted ⊢
  cases hattempted with
  | notCreated | notStreamed => exact .inl rfl
  | notSaved h hr w hw => exact hclosed a.visited h hr
  | saved h hr hd hcancel hall => exact hclosed streams h hr

theorem streamChanges_of_notMem (sys : System σ S Row Meta) (hs : s ∉ streams) :
    (streamChanges D a sys).dest s = sys.dest s := by
  have hvisited : s ∉ a.visited := by
    intro hmem
    refine hs ((a.mem_order s).1 ?_)
    unfold Attempt.visited at hmem
    split at hmem
    · exact mem_of_mem_take hmem
    · exact hmem
  have hattempted := streamChanges_attempted D a sys
  generalize streamChanges D a sys = sys' at hattempted ⊢
  cases hattempted with
  | notCreated | notStreamed => rfl
  | notSaved => exact if_neg fun h => hvisited h.1
  | saved => exact if_neg fun h => hs h.1

/-- What holds of the driver's state before the attempt and after `StreamChanges`, and is
kept by `PostCDC` and by a new process, holds after the attempt. -/
theorem streamChanges_world {P : σ → Prop} (a : Attempt streams In) (sys : System σ S Row Meta)
    (hstart : P sys.world) (hstreamed : P (streamed D a sys).world)
    (hpost : ∀ done w, P w → P (runPostCDC D a.input done w)) (hnew : ∀ w, P w → P (D.newProcess w)) :
    P (streamChanges D a sys).world := by
  have hunsaved : ∀ w, (w = D.newProcess (streamed D a sys).world ∨
      w = runPostCDC D a.input true (streamed D a sys).world) → P w := by
    rintro w (rfl | rfl)
    · exact hnew _ hstreamed
    · exact hpost true _ hstreamed
  have hattempted := streamChanges_attempted D a sys
  generalize streamChanges D a sys = sys' at hattempted ⊢
  cases hattempted with
  | notCreated k done h => exact hpost done _ hstart
  | notStreamed h hr w hw | notSaved h hr w hw => exact hunsaved w hw
  | saved h hr hd hcancel hall => exact hpost false _ hstreamed

/-- What attempts, new processes and changes of the source keep holds in every state they lead to. -/
theorem Reaches.keeps {D : DriverInterface S Row Meta σ In} {I : System σ S Row Meta → Prop}
    (hrun : Reaches D streams Grows Allowed sys sys') (h : I sys)
    (hattempt : ∀ {sys} a, I sys → Allowed a sys → I (streamChanges D a sys))
    (hrestart : ∀ {sys}, I sys → I { sys with world := D.newProcess sys.world })
    (hsource : ∀ {sys w}, I sys → Grows sys.world w → I { sys with world := w }) : I sys' := by
  induction hrun with
  | refl => exact h
  | tail _ hstep ih =>
    cases hstep with
    | attempt a ha => exact hattempt a ih ha
    | restart => exact hrestart ih
    | source hw => exact hsource ih hw

end Attempted

end Olake
