/-
What a writer thread does with the records it is given.

At any time, unless a flush has failed or the context is done, the records given to the
thread are those of the batches flattened so far, of the batch that is about to be, of the
waiting batch and of the buffer, in this order (`Conserved.records`).  The group runs one
flush at a time, so the batches are flattened in the order in which they were handed over,
and a batch is flattened only when the one before is written (`Conserved.batches`).

A thread that commits has neither a failed flush nor a context that is done, and there is
nothing left of the batch, the waiting batch and the buffer.
-/
import Olake.Lib.Run
import Olake.Model.WriterThread

namespace Olake.WriterThread

variable {Rec Out : Type}

/-! ### The parts of a thread -/

/-- The batch of a flush that has not been flattened. -/
def Flush.unflattened : Flush Rec Out → List Rec
  | .flattening buf => buf
  | _ => []

/-- The batch of a flush that was flattened and is not written. -/
def Flush.unwritten : Flush Rec Out → List (List Rec × List Out)
  | .flattening _ => []
  | .evolving buf out => [(buf, out)]
  | .writing buf out => [(buf, out)]

namespace Thread

/-- The records that are still to be flattened. -/
def pending (wt : Thread Rec Out) : List Rec :=
  (wt.running.map Flush.unflattened).getD [] ++ wt.waiting.getD [] ++ wt.buffer

end Thread

def Phase.over : Phase → Bool
  | .aborted | .finishing | .closed _ | .released => true
  | _ => false

def Phase.drained : Phase → Bool
  | .closing | .finishing | .closed true => true
  | _ => false

def Phase.rolledBack : Phase → Bool
  | .aborted | .closed false => true
  | _ => false

/-- How a thread stands whose close has returned no error: it has committed, or its context is
done. -/
def Phase.Ended (groupErr ctxDone : Bool) : Phase → Prop
  | .closed true => groupErr = false ∧ ctxDone = false
  | .released => groupErr = false ∧ ctxDone = true
  | _ => True

variable (batchSize : Nat) (base : Stats)

namespace Thread

/-- What is true of every thread. -/
structure Conserved (wt : Thread Rec Out) : Prop where
  /-- Records are only lost if the thread will not commit. -/
  records : wt.groupErr = false → wt.ctxDone = false →
    (wt.flattened.map Prod.fst).flatten ++ wt.pending = wt.calls
  batches : wt.groupErr = false → wt.written ++ (wt.running.map Flush.unwritten).getD [] = wt.flattened
  drained : wt.phase.drained = true → wt.buffer = []
  idle : wt.phase.over = true → wt.waiting = none ∧ wt.running = none
  ended : wt.phase.Ended wt.groupErr wt.ctxDone
  stats : wt.stats = if wt.phase.rolledBack then base else base.add wt.contributed

variable {base : Stats} {wt : Thread Rec Out}

theorem Conserved.init : (Thread.init base : Thread Rec Out).Conserved base where
  records _ _ := rfl
  batches _ := rfl
  drained h := by cases h
  idle h := by cases h
  ended := trivial
  stats := by simp [Thread.init, Stats.add, Stats.zero]

theorem Stats.add_assoc (a b c : Stats) : (a.add b).add c = a.add (b.add c) := by
  simp [Stats.add, Int.add_assoc]

theorem Stats.add_sub_cancel (a b : Stats) : (a.add b).sub b = a := by simp [Stats.add, Stats.sub]

variable (h : wt.Conserved base)
include h

/-- `Push` of an open thread whose last batch was taken. -/
theorem Conserved.push (hphase : wt.phase = .opened) (hwaiting : wt.waiting = none)
    (batchSize : Nat) (record : Rec) (sourceBytes : Int) (pickGroup : Bool) :
    (wt.Push batchSize record sourceBytes pickGroup).Conserved base := by
  -- a record that is not taken is one of a thread that will not commit
  have hlost : wt.groupErr = true ∨ wt.ctxDone = true → Conserved base { wt with calls := wt.calls ++ [record] } := by
    intro hlost
    refine { h with records := fun hgroup hctx => ?_ }
    rcases hlost with hlost | hlost
    · cases hlost.symm.trans hgroup
    · cases hlost.symm.trans hctx
  have hrecords : wt.groupErr = false → wt.ctxDone = false →
      (wt.flattened.map Prod.fst).flatten ++ ((wt.running.map Flush.unflattened).getD [] ++ wt.buffer) =
        wt.calls := by
    intro hgroup hctx
    simpa [pending, hwaiting] using h.records hgroup hctx
  have hstats : wt.stats.add ⟨1, 0, sourceBytes⟩ = base.add (wt.contributed.add ⟨1, 0, sourceBytes⟩) := by
    rw [h.stats, hphase, ← Stats.add_assoc]
    rfl
  unfold Push
  split
  · next hctx => exact hlost (.inr (by simp_all))
  split
  · next hdone =>
    split
    · exact h
    · exact hlost (by simpa [groupDone] using hdone)
  dsimp only
  split
  · refine
      { records := fun hgroup hctx => ?_
        batches := h.batches
        drained := fun _ => rfl
        idle := fun hover => by simp [count, hphase, Phase.over] at hover
        ended := h.ended
        stats := ?_ }
    · simp [count, pending, ← hrecords hgroup hctx]
    · simp [count, hphase, Phase.rolledBack, hstats]
  · refine
      { records := fun hgroup hctx => ?_
        batches := h.batches
        drained := fun hdrained => by simp [count, hphase, Phase.drained] at hdrained
        idle := fun hover => by simp [count, hphase, Phase.over] at hover
        ended := h.ended
        stats := ?_ }
    · simp [count, pending, hwaiting, ← hrecords hgroup hctx]
    · simp [count, hphase, Phase.rolledBack, hstats]

theorem Conserved.fail (hrunning : wt.running ≠ none)
    {flattened written : List (List Rec × List Out)} :
    ({ wt with flattened := flattened, written := written } : Thread Rec Out).fail.Conserved base where
  records hgroup := by cases hgroup
  batches hgroup := by cases hgroup
  drained := h.drained
  idle hover := absurd (h.idle hover).2 hrunning
  ended := by
    show wt.phase.Ended true wt.ctxDone
    have hover := mt (fun hover => (h.idle hover).2) hrunning
    cases hphase : wt.phase with
    | closed | released => exact absurd (by rw [hphase]; rfl) hover
    | _ => trivial
  stats := h.stats

theorem Conserved.spawn : wt.spawn.Conserved base := by
  unfold Thread.spawn
  split
  · next hwaiting hrunning =>
    refine { h with records := fun hgroup hctx => ?_, idle := fun _ => ⟨rfl, hrunning⟩ }
    simpa [pending, hwaiting] using h.records hgroup hctx
  · next buf _ hwaiting hrunning =>
    refine { h with
      records := fun hgroup hctx => ?_
      batches := fun hgroup => ?_
      idle := fun hover => ?_ }
    · simpa [pending, hwaiting, hrunning, Flush.unflattened] using h.records hgroup hctx
    · simpa [hrunning, Flush.unwritten] using h.batches hgroup
    · have hnone := (h.idle hover).1
      rw [hwaiting] at hnone
      cases hnone
  · exact h

theorem Conserved.flatten (result : Option (List Out × Bool)) :
    (wt.flatten result).Conserved base := by
  unfold Thread.flatten
  split
  · next hrunning => exact h.fail (by simp [hrunning])
  · next buf out evolution hrunning =>
    have hnot : wt.phase.over ≠ true := fun hover => by simp [(h.idle hover).2] at hrunning
    refine
      { records := fun hgroup hctx => ?_
        batches := fun hgroup => ?_
        drained := h.drained
        idle := fun hover => absurd hover hnot
        ended := h.ended
        stats := ?_ }
    · have hrecords := h.records hgroup hctx
      cases evolution <;>
        simpa [count, pending, hrunning, Flush.unflattened] using hrecords
    · have hbatches := h.batches hgroup
      cases evolution <;> simpa [count, hrunning, Flush.unwritten] using hbatches
    · have hrolled : wt.phase.rolledBack = false := by
        cases hp : wt.phase <;> simp_all [Phase.over, Phase.rolledBack]
      have hstats := h.stats
      simp [count, hrolled, hstats, Stats.add_assoc]
  · exact h

theorem Conserved.evolve_write (ok : Bool) :
    (wt.evolveSchema ok).Conserved base ∧ (wt.write ok).Conserved base := by
  unfold Thread.evolveSchema Thread.write
  constructor
  all_goals
    split
    · next buf out hrunning =>
      split
      · refine { h with
          records := fun hgroup hctx => ?_
          batches := fun hgroup => ?_
          idle := fun hover => ?_ }
        · simpa [pending, hrunning, Flush.unflattened] using h.records hgroup hctx
        · simpa [hrunning, Flush.unwritten] using h.batches hgroup
        · simp [(h.idle hover).2] at hrunning
      · exact h.fail (by simp [hrunning])
    · exact h

theorem Conserved.close (hphase : wt.phase = .opened) (hwaiting : wt.waiting = none) :
    wt.Close.Conserved base := by
  have hstats := h.stats
  rw [hphase] at hstats
  unfold Thread.Close
  split
  · exact { h with
      drained := nofun
      idle := nofun
      ended := trivial
      stats := hstats }
  · refine { h with
      records := fun hgroup hctx => ?_
      drained := fun _ => rfl
      idle := nofun
      ended := trivial
      stats := hstats }
    simpa [pending, hwaiting] using h.records hgroup hctx

theorem Conserved.block : wt.block.Conserved base := by
  unfold Thread.block
  split
  · exact h
  next hidle =>
  have hnone : wt.waiting = none ∧ wt.running = none := by simpa using hidle
  have hstats := h.stats
  split
  · next hphase =>
    rw [hphase] at hstats
    exact { h with
      drained := nofun
      idle := fun _ => hnone
      ended := trivial
      stats := by
        show wt.stats.sub wt.contributed = base
        rw [hstats]
        exact Stats.add_sub_cancel _ _ }
  · next hphase =>
    rw [hphase] at hstats
    exact { h with
      drained := fun _ => h.drained (by rw [hphase]; rfl)
      idle := fun _ => hnone
      ended := trivial
      stats := hstats }
  · exact h

theorem Conserved.closeWriter (ok : Bool) : (wt.closeWriter ok).Conserved base := by
  have hstats := h.stats
  unfold Thread.closeWriter
  split
  · next hphase =>
    rw [hphase] at hstats
    exact { h with
      drained := nofun
      idle := fun _ => h.idle (by rw [hphase]; rfl)
      ended := trivial
      stats := hstats }
  · next hphase =>
    rw [hphase] at hstats
    have hidle := h.idle (by rw [hphase]; rfl)
    split
    · exact { h with
        drained := nofun
        idle := fun _ => hidle
        ended := trivial
        stats := by
          show wt.stats.sub wt.contributed = base
          rw [hstats]
          exact Stats.add_sub_cancel _ _ }
    · next hok =>
      have hgroup : wt.groupErr = false := by grind
      by_cases hctx : wt.ctxDone = true
      · rw [if_pos hctx]
        exact { h with
          drained := nofun
          idle := fun _ => hidle
          ended := ⟨hgroup, hctx⟩
          stats := hstats }
      · rw [if_neg hctx]
        exact { h with
          drained := fun _ => h.drained (by rw [hphase]; rfl)
          idle := fun _ => hidle
          ended := ⟨hgroup, by simpa using hctx⟩
          stats := hstats }
  · exact h

theorem Conserved.cancel (hclosed : ∀ committed, wt.phase ≠ .closed committed) (hreleased : wt.phase ≠ .released) :
    Conserved base { wt with ctxDone := true } :=
  { h with
    records := nofun
    ended := by
      show wt.phase.Ended wt.groupErr true
      cases hphase : wt.phase with
      | closed committed => exact absurd hphase (hclosed committed)
      | released => exact absurd hphase hreleased
      | _ => trivial }

omit h

theorem Conserved.step (e : Event Rec Out) (wt : Thread Rec Out) (h : wt.Conserved base) :
    (step batchSize e wt).Conserved base := by
  cases e with
  | push record sourceBytes pickGroup =>
    rw [Thread.step]
    split
    · next hpush => exact h.push hpush.1 (by simpa using hpush.2) _ _ _ _
    · exact h
  | cancel =>
    rw [Thread.step]
    split
    · exact h
    · exact h
    · next hclosed hreleased => exact h.cancel hclosed hreleased
  | spawn => exact h.spawn
  | flatten result => exact h.flatten result
  | evolveSchema ok => exact (h.evolve_write ok).1
  | write ok => exact (h.evolve_write ok).2
  | close =>
    rw [Thread.step]
    split
    · next hclose => exact h.close hclose.1 (by simpa using hclose.2)
    · exact h
  | block => exact h.block
  | closeWriter ok => exact h.closeWriter ok

end Thread

/-! ### Results -/

variable (events : List (Event Rec Out))

def after : Thread Rec Out :=
  Machine.run (Thread.step batchSize) events (Thread.init base)

theorem conserved_after : (after batchSize base events).Conserved base :=
  Machine.run_keeps (fun e wt h => h.step batchSize e wt) .init events

/-- A thread that commits has passed the records of all pushes to the schema handling and to
the writer, each once and in the order of the pushes.  It does not commit if a flush has
failed or the context is done. -/
theorem committed_conserves_records
    (hcommitted : (after batchSize base events).phase = .closed true) :
    ((after batchSize base events).written.map Prod.fst).flatten = (after batchSize base events).calls ∧
      (after batchSize base events).flattened = (after batchSize base events).written ∧
      (after batchSize base events).groupErr = false ∧ (after batchSize base events).ctxDone = false := by
  have h := conserved_after batchSize base events
  generalize after batchSize base events = wt at h hcommitted ⊢
  obtain ⟨hgroup, hctx⟩ : Phase.Ended _ _ (.closed true) := hcommitted ▸ h.ended
  obtain ⟨hwaiting, hrunning⟩ := h.idle (by rw [hcommitted]; rfl)
  have hbuffer := h.drained (by rw [hcommitted]; rfl)
  have hbatches : wt.written = wt.flattened := by simpa [hrunning] using h.batches hgroup
  refine ⟨?_, hbatches.symm, hgroup, hctx⟩
  rw [hbatches]
  simpa [Thread.pending, hwaiting, hrunning, hbuffer] using h.records hgroup hctx

/-- Three records in batches of two, with the second batch pushed while the first one is
flushed. -/
theorem committed_conserves_records_three :
    let wt := after 2 .zero [.push 1 10 true, .push 2 10 true, .spawn, .flatten (some (["1", "2"], true)),
      .push 3 10 true, .evolveSchema true, .close, .write true, .spawn, .flatten (some (["3"], false)),
      .write true, .block, .closeWriter true];
    wt.written = [([1, 2], ["1", "2"]), ([3], ["3"])] ∧ (wt.written.map Prod.fst).flatten = wt.calls :=
  ⟨rfl, (committed_conserves_records 2 .zero _ rfl).1⟩

open Thread in
/-- Unless a flush has failed or the context is done, each record of a push is counted once. -/
theorem readCount_after :
    let wt := after batchSize base events
    wt.groupErr = false → wt.ctxDone = false → wt.contributed.readCount = wt.calls.length := by
  refine Machine.run_keeps (I := fun wt : Thread Rec Out => wt.groupErr = false →
    wt.ctxDone = false → wt.contributed.readCount = wt.calls.length) ?_ (fun _ _ => rfl) events
  intro e wt h
  cases e <;> simp only [Thread.step, Push, spawn, flatten, evolveSchema, write, Close, block,
    Thread.closeWriter, rollbackStats, fail, groupDone]
  all_goals
    repeat' split
    all_goals grind [count, Stats.add]

/-- **What a thread adds to the statistics of the pool.**  It is what the thread has counted, or
nothing once it is rolled back.  So a thread whose close has failed leaves nothing, and one that
commits has counted all records pushed; but one whose context is done when its writer is closed
without an error leaves what it has counted, though nothing was committed. -/
theorem pool_stats (batchSize : Nat) (base : Stats) (events : List (Event Rec Out)) :
    let wt := after batchSize base events
    wt.stats = (if wt.phase.rolledBack then base else base.add wt.contributed) ∧
      (wt.phase = .closed false → wt.stats = base) ∧
      (wt.phase = .closed true → wt.contributed.readCount = wt.calls.length) ∧
      (wt.phase = .released → wt.ctxDone = true ∧ wt.groupErr = false ∧
        wt.stats = base.add wt.contributed) := by
  intro wt
  have h : wt.Conserved base := conserved_after batchSize base events
  refine ⟨h.stats, fun hfailed => ?_, fun hcommitted => ?_, fun hreleased => ?_⟩
  · rw [h.stats, hfailed]
    rfl
  · obtain ⟨hgroup, hctx⟩ : Phase.Ended _ _ (.closed true) := hcommitted ▸ h.ended
    exact readCount_after batchSize base events hgroup hctx
  · obtain ⟨hgroup, hctx⟩ : Phase.Ended _ _ .released := hreleased ▸ h.ended
    refine ⟨hctx, hgroup, ?_⟩
    rw [h.stats, hreleased]
    rfl

/-- A record is pushed and written, and the context is cancelled while `Close` waits: a writer
that returns no error leaves it counted, one that returns an error does not. -/
theorem pool_stats_cancelled :
    let closing : List (Event Nat String) := [.push 1 10 true, .close, .spawn, .flatten (some (["1"], false)),
      .write true, .block, .cancel]
    (after 2 .zero (closing ++ [.closeWriter true])).stats = ⟨1, 0, 10⟩ ∧
      (after 2 .zero (closing ++ [.closeWriter false])).stats = .zero := by
  intro closing
  obtain ⟨-, -, -, hreleased⟩ := pool_stats 2 .zero (closing ++ [.closeWriter true])
  obtain ⟨-, hfailed, -⟩ := pool_stats 2 .zero (closing ++ [.closeWriter false])
  exact ⟨(hreleased rfl).2.2, hfailed rfl⟩

end Olake.WriterThread
