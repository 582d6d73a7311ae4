/-
MySQL: the insert-dedup flag of a stream.

The driver reads forward: a pass begins behind the saved position and leaves out the
streams whose tables are ahead of it.  It ends at the server's position, or in a recovery
at the position of the tables that are ahead.  A stream that was added after those tables
were committed can have a backfill that ended later, and then its flag goes off too early.
-/
import Olake.Proofs.Alignment
import Olake.Proofs.InsertDedup.Flag

namespace Olake.MySQL

open List

variable {S Row : Type}

/-- Every row carries the end of its event. -/
def Stamped (posOf : Row → Position) (b : Binlog S Row) : Prop :=
  ∀ e ∈ b.events, ∀ c ∈ e.changes, posOf c.2 = e.endPos

/-- The server has written more events, with stamped rows. -/
def StampedGrows (posOf : Row → Position) (w w' : World S Row) : Prop :=
  Grows w w' ∧ Stamped posOf w'.binlog

variable [DecidableEq S] {streams : List S}

/-! ### Reading forward -/

variable {target : Position} {filter : List S}

/-- However a pass ends, what it has pushed stood in its events. -/
theorem Runs.mem (h : Runs filter target ticks events received cur pushed out)
    (hc : c ∈ out.pushed) : c ∈ pushed ∨ c.1 ∈ filter ∧ ∃ e ∈ events, c ∈ e.changes := by
  induction h with
  | killed | ends | fails => exact .inl hc
  | waits _ _ _ _ _ ih => exact ih hc
  | reads _ _ _ _ _ ih =>
    rcases ih hc with hc | ⟨hf, d, hd, hc⟩
    · rcases mem_append.1 hc with hc | hc
      · exact .inl hc
      · obtain ⟨hc, hf⟩ := mem_filter.1 hc
        exact .inr ⟨by simpa using hf, _, mem_cons_self, hc⟩
    · exact .inr ⟨hf, d, mem_cons_of_mem _ hd, hc⟩

variable {w : World S Row} {states : S → Option Position}

/-- What a call pushes lies behind the saved position, and for a stream whose table is
not ahead of it. -/
theorem StreamChanges_behind {i : Input streams} (hsaved : w.binlog.Boundary w.saved.position)
    (hr : (s, r) ∈ (StreamChanges i w states).pushed) :
    s ∈ streams ∧ (∀ m, states s = some m → m ≤ w.saved.position) ∧
      ∃ e ∈ w.unread, (s, r) ∈ e.changes := by
  obtain ⟨target, hpass⟩ : ∃ target, (s, r) ∈ (passTo i w states target).pushed := by
    have has := StreamChanges_as i w states
    generalize StreamChanges i w states = r at has hr
    cases has with
    | failed => cases hr
    | broken target | finished target => exact ⟨target, hr⟩
  rcases (passTo_runs target hsaved).mem hpass with hnil | ⟨hs, e, he, hc⟩
  · cases hnil
  · obtain ⟨hstream, hfinished⟩ := mem_remainingStreams.1 hs
    refine ⟨hstream, fun m hm => ?_, e, he, hc⟩
    by_contra hlt
    exact hfinished ((mem_finished _).2 ⟨(i.mem_order s).2 hstream, m, hm, not_le.1 hlt⟩)

structure Forward (streams : List S) (posOf : Row → Position) (sys : System S Row) : Prop where
  aligned : Aligned streams sys
  stamped : Stamped posOf sys.world.binlog

variable {sys : System S Row}

theorem readsForward (streams : List S) (posOf : Row → Position) :
    ReadsForward driver streams (StampedGrows posOf) (fun (_ : Attempt streams) _ => True) posOf
      (fun w _ => w.saved.position) (Forward streams posOf) where
  step := by
    intro sys sys' h hstep
    cases hstep with
    | attempt a _ =>
      refine ⟨⟨(h.aligned.attempted a).1, ?_⟩, fun _ => (h.aligned.attempted a).2⟩
      rw [streamChanges_binlog]
      exact h.stamped
    | restart => exact ⟨⟨h.aligned.restart, h.stamped⟩, fun _ => le_rfl⟩
    | source hw =>
      obtain ⟨⟨b, hb, rfl⟩, hstamped⟩ := hw
      exact ⟨⟨h.aligned.source ⟨b, hb, rfl⟩, hstamped⟩, fun _ => le_rfl⟩
  merge := fun _ _ => rfl
  pushed := by
    intro sys h a s r hr
    obtain ⟨-, hmeta, e, he, hc⟩ := StreamChanges_behind h.aligned.saved hr
    obtain ⟨hmem, hlt⟩ := Log.mem_after.1 he
    refine ⟨?_, hmeta⟩
    rw [h.stamped e hmem (s, r) hc]
    exact hlt

/-! ### Where a pass ends -/

/-- A pass whose initial wait runs out pushes nothing. -/
theorem Runs.waited (h : Runs filter target ticks events received cur pushed out)
    (hrec : received = false) (hwait : waitRunsOut ticks events = true) : out.pushed = pushed := by
  induction h with
  | killed | ends | fails => rfl
  | waits _ hnot hfailed h _ ih =>
    refine ih hrec ?_
    rcases h with hdeadline | rfl
    · simpa [waitRunsOut, hnot hrec, hdeadline] using hwait
    · simpa [waitRunsOut, hnot hrec, hfailed] using hwait
  | reads _ hnot hfailed hdeadline _ ih =>
    simp only [waitRunsOut, hnot hrec, hfailed, hdeadline, Bool.false_eq_true, if_false,
      Bool.and_eq_true, Bool.not_eq_true'] at hwait
    rw [ih (by simp [hrec, hwait.1]) hwait.2, changes_of_not_rows hwait.1, filter_nil, append_nil]

/-- A pass to `target` comes to rows of the stream: no event before them reaches it. -/
def ComesToRows (w : World S Row) (target : Position) (s : S) : Prop :=
  w.saved.position < target ∧
    ∃ e ∈ Log.after BinlogEvent.endPos w.saved.position w.binlog.events, (∃ r, (s, r) ∈ e.changes) ∧
      ∀ d ∈ Log.after BinlogEvent.endPos w.saved.position w.binlog.events,
        d.endPos < e.endPos → d.endPos < target

/-- A pass that commits rows of a stream whose flag is on goes on to the end of its
backfill: the server's position, or the position it recovers to, is not before.  Nothing
is asked for a stream whose table is ahead of the state file, since it is left out, nor
of a pass whose initial wait runs out. -/
def CoversOverlap (a : Attempt streams) (L : Synced (World S Row) S Row Position Position) : Prop :=
  let w := L.sys.world
  let states := L.sys.erase.states
  let recoveryPos := (readMetadata ⟨0, 0⟩ w.saved.position states a.input.order).1
  waitRunsOut a.input.ticks (Log.after BinlogEvent.endPos w.saved.position w.binlog.events) = false →
    ∀ s ∈ streams, a.Commits s → dedupInsertsOf (L.sys.dest s).state = true →
      (∀ m, states s = some m → m ≤ w.saved.position) →
      ∀ target, latestBinlogPos recoveryPos a.input.masterStatus = some target →
        ComesToRows w target s → L.backfillEnd s ≤ target

/-- A pass that read rows of a stream came to them before its target. -/
theorem ReadOf.comesToRows (h : ReadOf filter target w.saved.position
      (Log.after BinlogEvent.endPos w.saved.position w.binlog.events) [] out done todo)
    (hr : (s, r) ∈ out.pushed) : ComesToRows w target s := by
  rw [h.pushed] at hr
  obtain ⟨e, he, hc⟩ := mem_flatMap.1 (mem_filter.1 hr).1
  have hinc : Log.Increasing BinlogEvent.endPos done := by
    have hafter := Log.after_increasing (p := w.saved.position) w.binlog.increasing
    rw [h.split] at hafter
    exact (pairwise_append.1 hafter).1
  refine ⟨?_, e, ?_, ⟨r, hc⟩, fun d hd hde => ?_⟩
  · by_contra hle
    rw [h.stops (not_lt.1 hle)] at he
    cases he
  · rw [h.split]
    exact mem_append_left _ he
  · -- the pass stops at the first event that reaches the target
    by_contra hle
    exact absurd (le_trans (Log.le_reached hinc he) (h.first d hd (not_lt.1 hle))) (not_le.2 hde)

variable {a : Attempt streams}

/-- A call that pushed rows and returned nil has come to its target. -/
theorem Aligned.target_le (h : Aligned streams sys) (hok : (streamed driver a sys).exit = .ok)
    (hr : (s, r) ∈ (streamed driver a sys).pushed)
    (hfinal : (streamed driver a sys).final s = some x) :
    waitRunsOut a.input.ticks sys.world.unread = false ∧
      ∃ target, latestBinlogPos (metadataOf a.input sys.world sys.states).1 a.input.masterStatus
          = some target ∧ ComesToRows sys.world target s ∧ target ≤ x := by
  obtain ⟨target, htarget, hpass, heq⟩ := StreamChanges_ok hok
  change streamed driver a sys = _ at heq
  rw [heq] at hr hfinal
  change (s, r) ∈ (passTo a.input sys.world sys.states target).pushed at hr
  rw [← Option.some.inj hfinal]
  obtain ⟨done, todo, hread, hend⟩ := passTo_read h.saved hpass
  refine ⟨?_, target, htarget, hread.comesToRows hr, ?_⟩
  · by_contra hwait
    rw [(passTo_runs target h.saved).waited rfl (by simpa using hwait)] at hr
    cases hr
  obtain ⟨m, hm, hahead⟩ := h.ahead
  unfold posAfter
  rcases metadataOf_cases h.saved hm hahead a.input with ⟨hnone, -⟩ | ⟨hmeta, hname, hlatest, -⟩
  · rw [hnone]
    rcases hend with hend | ⟨-, hnil⟩
    · exact hend
    · -- the initial wait ran out, and nothing was pushed
      rw [hnil] at hr
      cases hr
  · -- a recovery is pinned to its position
    rw [hmeta, hlatest] at htarget
    rw [hmeta, if_pos hname, Option.some.inj htarget]

theorem CoversOverlap.reachesEnd (hinv : Forward streams posOf L.sys.erase)
    (h : CoversOverlap a L) : ReachesEnd driver a L := by
  intro s x hcommits hon hok hrows hfinal
  obtain ⟨r, hr⟩ := exists_mem_of_ne_nil _ hrows
  obtain ⟨hs, hmeta, -⟩ := StreamChanges_behind hinv.aligned.saved (mem_rowsFor.1 hr)
  obtain ⟨hwait, target, htarget, hcomes, hle⟩ :=
    hinv.aligned.target_le hok (mem_rowsFor.1 hr) hfinal
  exact le_trans (h hwait s hs hcommits hon hmeta target htarget hcomes) hle

end Olake.MySQL
