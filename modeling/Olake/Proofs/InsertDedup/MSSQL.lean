/-
SQL Server: the insert-dedup flag of a stream.

The driver reads forward: a pass begins behind the cursor, and only when the table's
metadata is not ahead of it.  A pass ends at the newest LSN that the capture agent has
reached, or at the start of the next capture instance.  The flag is right as long as
neither of the two lies before the end of the backfill.
-/
import Olake.Proofs.InsertDedup.Flag
import Olake.Proofs.MSSQL

namespace Olake.MSSQL

variable {S Row : Type} [DecidableEq S] {streams : List S}

/-- Every row that is emitted carries the LSN of its change. -/
def Stamped (lsnOf : Row → Nat) (t : ChangeTables S Row) : Prop :=
  ∀ s, ∀ c ∈ t.changes s, ∀ r ∈ c.emitted, lsnOf r = c.lsn

/-- The capture agent has gone on, and stamps its rows. -/
def StampedGrows (lsnOf : Row → Nat) (w w' : World S Row) : Prop :=
  Grows w w' ∧ Stamped lsnOf w'.tables

/-! ### Reading forward -/

/-- What the driver holds in the course of an attempt that found it as `w`. -/
structure Onward (streams : List S) (w w' : World S Row) : Prop where
  tables : w'.tables = w.tables
  cursors : CursorsOnward streams w.cursor w'.cursor w'.lsnMap

variable {w : World S Row}

theorem Onward.post (h : Onward streams w w') (i : Input streams) (done : Bool) :
    Onward streams w (runPostCDC driver i done w') := by
  cases done with
  | true => exact h
  | false =>
    rw [runPostCDC_live]
    cases hl : w'.lsnMap i.stream with
    | none => exact h
    | some lsn => exact ⟨h.tables, h.cursors.save i.mem_streams hl⟩

structure Forward (streams : List S) (lsnOf : Row → Nat) (sys : System S Row) : Prop where
  stamped : Stamped lsnOf sys.world.tables
  cursors : CursorsOnward streams sys.world.cursor sys.world.cursor sys.world.lsnMap

variable {sys : System S Row} {lsnOf : Row → Nat}

theorem Forward.streamed (h : Forward streams lsnOf sys) (a : Attempt streams) :
    Onward streams sys.world (streamed driver a sys).world := by
  have has := streamed_as a sys
  generalize Olake.streamed driver a sys = r at has ⊢
  cases has with
  | failed | noChanges => exact ⟨rfl, h.cursors⟩
  | recovered m hm hlt => exact ⟨rfl, h.cursors.store (le_of_lt hlt)⟩
  | forward x hm hlt hmax htarget => exact ⟨rfl, h.cursors.store (le_of_lt hlt)⟩

theorem Forward.attempted (h : Forward streams lsnOf sys) (a : Attempt streams) :
    Onward streams sys.world (streamChanges driver a sys).world :=
  streamChanges_world driver a sys ⟨rfl, h.cursors⟩ (h.streamed a)
    (fun done _ hw => hw.post a.input done) (fun _ hw => ⟨hw.tables, hw.cursors.forget⟩)

omit [DecidableEq S] in
theorem mem_sourceRows (h : Stamped lsnOf t) (hr : r ∈ sourceRows t s p q) : p < lsnOf r := by
  obtain ⟨c, hc, hrc⟩ := List.mem_flatMap.1 hr
  obtain ⟨hmem, hlt, -⟩ := Log.mem_between.1 hc
  rw [h s c hmem r hrc]
  exact hlt

theorem readsForward (streams : List S) (lsnOf : Row → Nat) :
    ReadsForward driver streams (StampedGrows lsnOf) (fun (_ : Attempt streams) _ => True) lsnOf World.cursor
      (Forward streams lsnOf) where
  step := by
    intro sys sys' h hstep
    cases hstep with
    | attempt a _ =>
      have ha := h.attempted a
      refine ⟨⟨?_, fun _ => le_rfl, ha.cursors.cached_ge⟩, ha.cursors.cursor_le⟩
      rw [ha.tables]
      exact h.stamped
    | restart => exact ⟨⟨h.stamped, h.cursors.forget⟩, fun _ => le_rfl⟩
    | source hw =>
      obtain ⟨⟨t, -, rfl⟩, hstamped⟩ := hw
      exact ⟨⟨hstamped, h.cursors⟩, fun _ => le_rfl⟩
  merge := fun _ _ => rfl
  pushed := by
    intro sys h a s r hr
    have has := streamed_as a sys
    generalize streamed driver a sys = out at has hr
    cases has with
    | failed | recovered | noChanges => exact absurd hr List.not_mem_nil
    | forward x hm hlt hmax htarget =>
      obtain ⟨r', hr', heq⟩ := List.mem_map.1 hr
      cases heq
      exact ⟨mem_sourceRows h.stamped hr', hm⟩

/-! ### Where a pass ends -/

/-- A pass over a stream whose flag is on, that finds a change and commits it, does not
end before the end of the backfill: the capture agent has come that far, and the next
capture instance does not start before.  Nothing is asked of a recovery, which fetches
nothing. -/
def CoversOverlap (a : Attempt streams) (L : Synced (World S Row) S Row Nat Nat) : Prop :=
  let s := a.input.stream
  let cursor := L.sys.world.cursor s
  let maxLSN := L.sys.world.tables.maxLSN
  a.Commits s → a.input.fetch = .ok → dedupInsertsOf (L.sys.dest s).state = true →
    (∀ m, (L.sys.erase.dest s).state = some m → m ≤ cursor) →
    ∀ starts captureIdx startLSN, a.input.captureInstances = some starts →
      newestValidInstance starts cursor = some (captureIdx, startLSN) →
      sourceRows L.sys.world.tables s cursor (clampTarget starts captureIdx maxLSN) ≠ [] →
      L.backfillEnd s ≤ maxLSN ∧
        ∀ next, starts[captureIdx + 1]? = some next → L.backfillEnd s ≤ next

theorem CoversOverlap.reachesEnd {a : Attempt streams} (h : CoversOverlap a L) : ReachesEnd driver a L := by
  intro s x hcommits hon _ hrows hfinal
  have has := streamed_as a L.sys.erase
  generalize streamed driver a L.sys.erase = out at has hrows hfinal
  cases has with
  | failed | recovered | noChanges => exact absurd rfl hrows
  | forward y hm hlt hle htarget =>
  obtain ⟨hfetch, starts, captureIdx, startLSN, hstarts, hsel, rfl⟩ := htarget
  by_cases hs : s = a.input.stream
  case neg => exact absurd (rowsFor_map_of_ne hs _) hrows
  subst hs
  rw [rowsFor_map_self] at hrows
  obtain ⟨hmax, hnext⟩ := h hcommits hfetch hon hm starts captureIdx startLSN hstarts hsel hrows
  rw [← Option.some.inj hfinal]
  unfold clampTarget
  split
  · exact hmax
  · rename_i next hget
    split
    · exact hnext next hget
    · exact hmax

end Olake.MSSQL
