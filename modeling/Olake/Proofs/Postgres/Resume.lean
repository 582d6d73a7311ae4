/-
Postgres: whether the next run passes the check of the state file against the slot.

Nothing is assumed of the server here.  In every state that any sequence of runs and
crashes reaches, the tables ahead of the state file are at one position, and where
the slot is ahead of the state file too, it is at that position (`Aligned`).  So the
check fails only where the slot is ahead and no table tells why.  One crash leads
there: after the acknowledgement and before the save, in a run that had no row for
any table.
-/
import Olake.Proofs.Postgres.Boundary

namespace Olake.Postgres

open List

variable {S Row : Type} [DecidableEq S] {streams : List S}
  {sys sys' : System S Row} {a : Attempt streams}

/-! ### The three positions -/

theorem Initial.aligned (h : Initial streams sys) : Aligned streams sys where
  idle := h.inv.idle
  saved_le := h.inv.saved_le
  ahead := by
    refine ⟨0, fun s hs ⟨m, hm, hlt⟩ => ?_, fun hne => absurd (h.saved.trans h.slot.symm) hne⟩
    rw [h.saved] at hlt
    exact absurd hlt (not_lt.2 (h.state s hs m hm))

variable {w : World S Row} (h : Aligned streams sys)
include h

/-- A call that returned nil leaves a position that every table ahead is at. -/
theorem Aligned.finished (hok : (streamed driver a sys).exit = .ok) :
    ∃ x conn, (∀ s, (streamed driver a sys).final s = some x) ∧
      (streamed driver a sys).world
        = { sys.world with replicator := some ⟨x, conn⟩ } ∧
      AheadAt streams sys.world.saved sys.states x ∧ (conn = .live → sys.world.slot ≤ x) ∧
      (sys.world.saved ≠ sys.world.slot → streams ≠ [] → x = sys.world.slot) := by
  obtain ⟨hvalid, hpass, heq⟩ := StreamChanges_ok hok
  change streamed driver a sys = finishedCall a.input sys.world sys.states at heq
  rw [heq]
  obtain ⟨hahead, hle, hslot⟩ :=
    h.finalLSN hvalid (passOf a.input sys.world sys.states).reader.clientXLogPos
  exact ⟨_, _, fun _ => rfl, rfl, hahead, fun hlive => hle (slot_le_pass hpass hlive), hslot⟩

/-- Closing any of the writers of a pass leaves the positions aligned. -/
theorem Aligned.closed (hok : (streamed driver a sys).exit = .ok)
    (order : List S) (hidle : Idle w) (replicator : Option Socket)
    (hw : w = { sys.world with replicator := replicator }) : Aligned streams
      { world := w
        dest := destAfter replace (streamed driver a sys) a.outcome order sys.dest } := by
  obtain ⟨x, conn, hfinal, -, hahead, -, hslot⟩ := h.finished hok
  subst hw
  refine ⟨hidle, h.saved_le, x, hahead.closed hfinal, fun hne hrec => ?_⟩
  obtain ⟨s, hs, -⟩ := hrec
  exact (hslot hne (ne_nil_of_mem hs)).symm

omit [DecidableEq S] in
theorem Aligned.of_same (hidle : Idle w) (replicator : Option Socket)
    (hw : w = { sys.world with replicator := replicator }) :
    Aligned streams { sys with world := w } := by
  subst hw
  exact ⟨hidle, h.saved_le, h.ahead⟩

variable (a : Attempt streams)

/-- No attempt, wherever it ends, leaves the positions unaligned, or the state file behind. -/
theorem Aligned.attempted :
    Aligned streams (streamChanges driver a sys) ∧
      sys.world.saved ≤ (streamChanges driver a sys).world.saved := by
  have hended := streamChanges_attempted driver a sys
  generalize streamChanges driver a sys = sys' at hended ⊢
  cases hended with
  | notCreated k done hc =>
    obtain ⟨rep, heq, hidle⟩ := runPostCDC_nothing a.input done (.inr h.idle)
    exact ⟨h.of_same hidle rep heq, le_of_eq (congrArg World.saved heq).symm⟩
  | notStreamed hc hr w hw =>
    obtain ⟨hidle, rep, heq⟩ := unsaved_world hw
    exact ⟨h.of_same hidle rep heq, le_of_eq (congrArg World.saved heq).symm⟩
  | notSaved hc hr w hw =>
    obtain ⟨hidle, rep, heq⟩ := unsaved_world hw
    exact ⟨h.closed hr _ hidle rep heq, le_of_eq (congrArg World.saved heq).symm⟩
  | saved hc hr hd hcancel hall =>
    obtain ⟨x, conn, hfinal, hworld, hahead, hlive, -⟩ := h.finished hr
    obtain ⟨slot, saved, rep, heq, hidle, hcases, hle⟩ := runPostCDC_open a.input
      (congrArg World.replicator hworld) (fun hl => by rw [hworld]; exact hlive hl)
    rw [heq] at hidle ⊢
    rw [hworld] at hcases hle hidle ⊢
    rcases hcases with ⟨rfl, rfl⟩ | ⟨rfl, rfl | rfl⟩
    · -- acknowledged and saved
      exact ⟨⟨hidle, le_rfl, saved,
        fun s hs h' => absurd h' (hahead.not_ahead hfinal (h.saved_le.trans hle) hs),
        fun hne => absurd rfl hne⟩, h.saved_le.trans hle⟩
    · exact ⟨h.closed hr streams hidle rep rfl, le_rfl⟩
    · -- acknowledged, but not saved
      exact ⟨⟨hidle, h.saved_le.trans hle, slot, hahead.closed hfinal, fun _ _ => rfl⟩, le_rfl⟩

omit [DecidableEq S] in
theorem Aligned.restart :
    Aligned streams { sys with world := { sys.world with replicator := none } } :=
  ⟨nofun, h.saved_le, h.ahead⟩

omit [DecidableEq S] in
theorem Aligned.source (hw : Grows sys.world w) : Aligned streams { sys with world := w } := by
  obtain ⟨b, -, rfl⟩ := hw
  exact ⟨h.idle, h.saved_le, h.ahead⟩

theorem Aligned.reaches {Allowed : Attempt streams → System S Row → Prop}
    (hreach : Reaches driver streams Grows Allowed sys sys') : Aligned streams sys' :=
  hreach.keeps h (fun a h _ => (h.attempted a).1) Aligned.restart Aligned.source

omit h

/-! ### The next run -/

section Pass

variable {filter : List S} {target : LSN}

theorem mem_rowsToCome (hc : c ∈ rowsToCome filter queue) : c.2.1 ∈ filter := by
  induction queue with
  | nil => cases hc
  | cons xld queue ih =>
    unfold rowsToCome at hc
    split at hc
    · split at hc
      next hs =>
        rcases mem_cons.1 hc with rfl | hc
        · exact hs
        · exact ih hc
      next => exact ih hc
    · exact ih hc

/-- A pass only adds to what was handed over, and only rows of its filter. -/
theorem Runs.pushed (h : Runs filter target events r out) (hok : out.exit = .ok) :
    ∃ rows, out.reader.pushed = r.pushed ++ rows ∧ ∀ c ∈ rows, c.1 ∈ filter := by
  obtain ⟨received, -, hcome, hpushed, -⟩ := h.history 0 (.inl hok)
  refine ⟨_, hpushed, fun c hc => ?_⟩
  obtain ⟨c', hc', rfl⟩ := mem_map.1 hc
  have hmem : c' ∈ rowsToCome filter r.queue := by
    rw [hcome]
    exact mem_append_left _ hc'
  exact mem_rowsToCome hmem

end Pass

variable {a}

end Olake.Postgres
