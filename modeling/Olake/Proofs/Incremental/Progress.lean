/-
Progress of the incremental sync.

The stored cursors never run ahead of the committed ones, and the cursors of the
metadata state are strictly beyond the ones whose thread ID stands beside them
(`Inv`).  So a process that reads, reads every row beyond the committed cursors; and
one that takes the committed cursors over has another thread ID the next time, and
reads then.
-/
import Olake.Lib.Run
import Olake.Proofs.Incremental.Cursors
import Olake.Proofs.State

namespace Olake.Incremental

open Sql Utf8 Binary64 Machine List Option Bool

variable {V : Type} [LinearOrder V] (S : Stream V) (ok : V → Prop) (records : Bool)

structure Inv (w : World V) : Prop where
  table : ∀ r ∈ w.table, r.Uses ok
  stored : S.Uses ok w.stored
  committed : S.Uses ok w.committed
  stored_le : w.stored.Le w.committed
  committed_le : w.committed.Le (maxCursors S w.table)
  /-- The cursors of the metadata state, and those of the thread that read them. -/
  metadata : ∀ id m, w.metadata = some (id, m) → S.Uses ok m ∧ m.Le w.committed ∧
    ∃ q, S.Uses ok q ∧ id = toValid (S.threadID q) ∧ q.Le m ∧ q ≠ m
  /-- A process that would take the metadata state over finds the committed cursors. -/
  current : ∀ id m, w.metadata = some (id, m) → id = S.threadID w.stored → m = w.committed
  /-- Without two-phase commit there is no metadata state. -/
  unrecorded : records = false → w.metadata = none

variable {S ok records} {w : World V} {table : List (Row V)} {r : Row V}

theorem mem_maxCursors (hr : r ∈ table) : OptLe r.primary (maxCursors S table).primary ∧
      (S.secondary.isSome → OptLe r.secondary (maxCursors S table).secondary) := by
  refine ⟨le_sqlMax (mem_map_of_mem hr), fun hs => ?_⟩
  unfold maxCursors
  rw [if_pos hs]
  exact le_sqlMax (mem_map_of_mem hr)

theorem uses_maxCursors (h : ∀ r ∈ table, r.Uses ok) : S.Uses ok (maxCursors S table) := by
  refine ⟨fun v hv => ?_, fun v hv => ?_, fun hs => ?_⟩
  · rcases sqlMax_cases (table.map Row.primary) with hm | hm
    · cases hm.symm.trans hv
    · obtain ⟨r, hr, heq⟩ := mem_map.1 hm
      exact (h r hr).primary v (heq.trans hv)
  · unfold maxCursors at hv
    split at hv
    · rcases sqlMax_cases (table.map Row.secondary) with hm | hm
      · cases hm.symm.trans hv
      · obtain ⟨r, hr, heq⟩ := mem_map.1 hm
        exact (h r hr).secondary v (heq.trans hv)
    · cases hv
  · simp [maxCursors, hs]

theorem maxCursors_append (table rows : List (Row V)) :
    (maxCursors S table).Le (maxCursors S (table ++ rows)) := by
  refine ⟨?_, ?_⟩
  · simp only [maxCursors, map_append]
    exact sqlMax_mono
  · unfold maxCursors
    dsimp only
    split
    · rw [map_append]
      exact sqlMax_mono
    · exact OptLe.refl _

/-! ### What an attempt preserves -/

omit [LinearOrder V] in
theorem saveCursors_cases (saved : Saved) (c : Cursors V) (w : World V) :
    ∃ c', saveCursors S saved c w = { w with stored := c' } ∧
      (c' = w.stored ∨ c' = { w.stored with primary := c.primary } ∨
        (S.secondary.isSome ∧ c' = c)) := by
  unfold saveCursors
  cases saved with
  | nothing => exact ⟨w.stored, rfl, .inl rfl⟩
  | primary => exact ⟨_, rfl, .inr (.inl rfl)⟩
  | both =>
    dsimp only
    split
    next h => exact ⟨c, rfl, .inr (.inr ⟨h, rfl⟩)⟩
    next => exact ⟨_, rfl, .inr (.inl rfl)⟩

omit [LinearOrder V] in
@[simp] theorem dest_saveCursors (saved : Saved) (c : Cursors V) (w : World V) :
    (saveCursors S saved c w).dest = w.dest := by
  obtain ⟨c', heq, -⟩ := saveCursors_cases (S := S) saved c w
  rw [heq]

omit [LinearOrder V] in
theorem dest_closeWriter (env : Env) (id : Bytes) (rows : List (Row V)) (c : Cursors V)
    (w : World V) : (closeWriter S records env id rows c w).dest =
      w.dest ++ if env.outcome.durable then rows else [] := by
  unfold Incremental.closeWriter
  dsimp only
  by_cases hdur : env.outcome.durable = true ∧ rows ≠ []
  · rw [if_pos hdur, if_pos hdur.1]
    split <;> simp
  · have hnil : (if env.outcome.durable then rows else []) = [] := by
      split
      next h =>
        by_contra hne
        exact hdur ⟨h, hne⟩
      next => rfl
    rw [if_neg hdur, hnil, append_nil]
    split <;> simp

theorem dest_incremental (env : Env) (w : World V) (h : r ∈ w.dest) :
    r ∈ (incremental S records env w).dest := by
  unfold Incremental.incremental
  dsimp only
  repeat' split
  next => simpa using h
  next => exact h
  next => exact h
  next => exact h
  next => exact h
  next => exact h
  next =>
    rw [dest_closeWriter]
    exact mem_append_left _ h

variable {rows : List (Row V)} {c : Cursors V}

section Attempt

variable (hS : S.Faithful ok) (hw : Inv S ok records w)

include hw

theorem Inv.append (hrows : ∀ r ∈ rows, r.Uses ok) :
    Inv S ok records { w with table := w.table ++ rows } :=
  { hw with
    table := forall_mem_append.2 ⟨hw.table, hrows⟩
    committed_le := hw.committed_le.trans (maxCursors_append w.table rows) }

/-- Cursors that are stored between the old ones and the committed ones. -/
theorem Inv.store (hc : S.Uses ok c) (hle : c.Le w.committed)
    (hcur : ∀ id m, w.metadata = some (id, m) → m = w.committed ∨ c = w.stored) :
    Inv S ok records { w with stored := c } :=
  { hw with
    stored := hc
    stored_le := hle
    current := by
      intro id m hm hid
      rcases hcur id m hm with h | rfl
      · exact h
      · exact hw.current id m hm hid }

theorem Inv.saveCursors (hc : S.Uses ok c) (hle : c.Le w.committed)
    (hcur : ∀ id m, w.metadata = some (id, m) → m = w.committed ∨ c = w.stored) (saved : Saved) :
    Inv S ok records (saveCursors S saved c w) := by
  obtain ⟨c', heq, hc'⟩ := saveCursors_cases (S := S) saved c w
  rw [heq]
  rcases hc' with rfl | rfl | ⟨-, rfl⟩
  · exact hw
  · refine hw.store ⟨hc.primary, hw.stored.secondary, hw.stored.single⟩
      ⟨hle.primary, hw.stored_le.secondary⟩ fun id m hm => (hcur id m hm).imp_right ?_
    rintro rfl
    rfl
  · exact hw.store hc hle hcur

theorem Inv.metadata_committed
    (hm : (if records then some x else w.metadata) = some y) : x = y := by
  cases records with
  | false => cases (hw.unrecorded rfl).symm.trans hm
  | true => exact some.inj hm

include hS

theorem Inv.backfill (h : backfill S w = some w') : Inv S ok records w' := by
  unfold Incremental.backfill at h
  rw [map_eq_some_iff] at h
  obtain ⟨⟨filter, args⟩, -, rfl⟩ := h
  have huse := uses_maxCursors (S := S) hw.table
  rw [hS.format_eq huse]
  refine ⟨hw.table, huse, huse, Cursors.Le.refl _, Cursors.Le.refl _, ?_, ?_, hw.unrecorded⟩
  · intro id m hm
    obtain ⟨hum, hle, hq⟩ := hw.metadata id m hm
    exact ⟨hum, hle.trans hw.committed_le, hq⟩
  · -- the captured cursors are no smaller than those of the metadata state, so not its start
    intro id m hm hid
    obtain ⟨hum, hle, q, hq, rfl, hqm, hne⟩ := hw.metadata id m hm
    have hcap : q = maxCursors S w.table := hS.threadID q _ hq huse hid
    have hmq : m.Le q := hcap ▸ hle.trans hw.committed_le
    exact absurd (hqm.antisymm hmq) hne

/-- The commit of the rows beyond the stored cursors. -/
theorem Inv.commit (hrows : ∀ r ∈ rows, r ∈ w.table ∧ S.Beyond w.stored r) (hne : rows ≠ []) :
    Inv S ok records { w with
        dest := w.dest ++ rows
        metadata :=
          if records then some (toValid (S.threadID w.stored), largest S rows w.stored)
          else w.metadata
        committed := largest S rows w.stored } := by
  have huse : ∀ r ∈ rows, r.Uses ok := fun r hr => hw.table r (hrows r hr).1
  obtain ⟨hl, hle, -⟩ := largest_spec hS.toAgrees huse hw.stored
  obtain ⟨r, hr⟩ := exists_mem_of_ne_nil rows hne
  refine ⟨hw.table, hw.stored, hl, hle, ?_, ?_, ?_, ?_⟩
  · refine largest_le hS.toAgrees huse hw.stored (hw.stored_le.trans hw.committed_le) fun r hr => ?_
    exact mem_maxCursors (hrows r hr).1
  · intro id m hm
    cases hw.metadata_committed hm
    exact ⟨hl, Cursors.Le.refl _, w.stored, hw.stored, rfl, hle,
      largest_ne hS.toAgrees huse hw.stored hr (hrows r hr).2⟩
  · intro id m hm _
    cases hw.metadata_committed hm
    rfl
  · intro h
    subst h
    exact hw.unrecorded rfl

theorem Inv.closeWriter (env : Env) (hrows : ∀ r ∈ rows, r ∈ w.table ∧ S.Beyond w.stored r) :
    Inv S ok records
      (closeWriter S records env (S.threadID w.stored) rows (largest S rows w.stored) w) := by
  have huse : ∀ r ∈ rows, r.Uses ok := fun r hr => hw.table r (hrows r hr).1
  obtain ⟨hl, -, -⟩ := largest_spec hS.toAgrees huse hw.stored
  unfold Incremental.closeWriter
  dsimp only
  rw [hS.format_eq hl]
  by_cases hdur : env.outcome.durable = true ∧ rows ≠ []
  · have hcommit := hw.commit hS hrows hdur.2
    split
    next =>
      refine hcommit.saveCursors hl (Cursors.Le.refl _) (fun id m hm => ?_) env.saved
      cases hw.metadata_committed hm
      exact .inl rfl
    next => exact hcommit
  · split
    next hout =>
      -- a close that committed nothing had no rows
      have hnil : rows = [] := by
        by_contra hne
        exact hdur ⟨by rw [hout]; rfl, hne⟩
      subst hnil
      exact hw.saveCursors hl hw.stored_le (fun _ _ _ => .inr rfl) env.saved
    next => exact hw

theorem Inv.incremental (env : Env) : Inv S ok records (incremental S records env w) := by
  unfold Incremental.incremental
  dsimp only
  split
  next hid =>
    cases hm : w.metadata with
    | none => exact hw
    | some p =>
      obtain ⟨id, m⟩ := p
      have hid' : id = S.threadID w.stored := by
        rw [hm] at hid
        simpa using hid
      have hcur := hw.current id m hm hid'
      have hadopt : adopted S m = m := hS.json_eq (hw.metadata id m hm).1
      dsimp only
      rw [hadopt]
      split
      next =>
        split
        next =>
          subst hcur
          refine hw.saveCursors hw.committed (Cursors.Le.refl _) (fun id' m' hm' => ?_) env.saved
          rw [hm] at hm'
          cases hm'
          exact .inl rfl
        next => exact hw
      next => exact hw
  next =>
    split
    next => exact hw
    next =>
      split
      next => exact hw
      next condition args hq =>
        refine hw.closeWriter hS env fun r hr => ?_
        obtain ⟨hr, hh⟩ := mem_filter.1 hr
        exact ⟨hr, (holds_query hS.toAgrees hw.stored hq r).1 (of_decide_eq_true hh)⟩

theorem Inv.sync (env : Env) : Inv S ok records (sync S records env w) := by
  unfold Incremental.sync
  dsimp only
  rw [hS.json_eq hw.stored]
  repeat' split
  next => exact hw.incremental hS env
  next => exact hw
  next w' hb => exact (hw.backfill hS hb).incremental hS env
  next => exact hw
  next => exact hw.incremental hS env
  next => exact hw

/-! ### What an undisturbed attempt reads -/

theorem backfill_reads : ∃ w', backfill S w = some w' ∧ ∀ r ∈ w.table, r ∈ w'.dest := by
  have huse := uses_maxCursors (S := S) hw.table
  obtain ⟨filter, args, hf⟩ := Jdbc.ThresholdFilter_isSome (hS.toAgrees.comparable huse)
  unfold Incremental.backfill
  dsimp only
  rw [hS.format_eq huse, hf]
  refine ⟨_, rfl, fun r hr => mem_append_right _ (mem_filter.2 ⟨hr, ?_⟩)⟩
  obtain ⟨hp, hs⟩ := mem_maxCursors (S := S) hr
  exact decide_eq_true (holds_filter hS.toAgrees huse hf hp hs)

/-- An undisturbed read commits every row beyond the stored cursors. -/
theorem incremental_reads (hid : w.metadata.map Prod.fst ≠ some (S.threadID w.stored)) (hr : r ∈ w.table)
    (hb : S.Beyond w.stored r) : r ∈ (incremental S records Env.undisturbed w).dest := by
  obtain ⟨condition, args, hq⟩ := Jdbc.BuildIncrementalQuery_isSome (hS.toAgrees.comparable hw.stored)
  have hmem : r ∈ w.table.filter fun r => Holds S.db.wrap args r.column condition :=
    mem_filter.2 ⟨hr, decide_eq_true ((holds_query hS.toAgrees hw.stored hq r).2 hb)⟩
  unfold Incremental.incremental
  rw [if_neg hid, hq]
  have hread : ¬ Env.undisturbed.readFails = true := by decide
  rw [if_neg hread]
  rw [dest_closeWriter]
  exact mem_append_right _ hmem

end Attempt

/-- A row beyond larger cursors is beyond the stored ones, if there are any. -/
theorem beyond_stored (hcd : c.Le d) (hc : S.hasCursors c) (h : S.Beyond d r) : S.Beyond c r := by
  unfold Stream.hasCursors at hc
  rw [and_eq_true, or_eq_true] at hc
  rcases h with h | ⟨hs, hnull, h⟩
  · exact .inl (beyond_of_le h hcd.primary (isSome_iff_ne_none.1 hc.1))
  · refine .inr ⟨hs, hnull, beyond_of_le h hcd.secondary ?_⟩
    rcases hc.2 with h' | h'
    · rw [isNone_iff_eq_none] at h'
      rw [h'] at hs
      cases hs
    · exact isSome_iff_ne_none.1 h'

theorem hasCursors_of_le (hcd : c.Le d) (hc : S.hasCursors c) : S.hasCursors d := by
  have hsome : ∀ a b : Option V, OptLe a b → a.isSome → b.isSome := by
    intro a b hab ha
    obtain ⟨x, rfl⟩ := isSome_iff_exists.1 ha
    obtain ⟨y, rfl, -⟩ := hab x rfl
    rfl
  unfold Stream.hasCursors at hc ⊢
  rw [and_eq_true, or_eq_true] at hc ⊢
  exact ⟨hsome _ _ hcd.primary hc.1, hc.2.imp_right (hsome _ _ hcd.secondary)⟩

omit [LinearOrder V] in
theorem saveCursors_both (hw : S.Uses ok w.stored) (hc : S.Uses ok c) :
    saveCursors S .both c w = { w with stored := c } := by
  unfold Incremental.saveCursors
  dsimp only
  split
  next => rfl
  next h =>
    have hs : S.secondary = none := by simpa using h
    have hsec : w.stored.secondary = c.secondary := by rw [hw.single hs, hc.single hs]
    rw [hsec]

/-- A process that finds its own thread ID takes the cursors of the metadata over. -/
theorem incremental_adopts {id : Bytes} (hm : w.metadata = some (id, m))
    (hid : id = S.threadID w.stored) (hc : S.hasCursors (adopted S m)) :
    incremental S records env w =
      if env.outcome = .committed then saveCursors S env.saved (adopted S m) w else w := by
  subst hid
  simp [Incremental.incremental, hm, hc]

/-! ### The sync as a whole -/

def fresh (table : List (Row V)) : World V where
  table := table
  backfilled := false
  stored := ⟨none, none⟩
  metadata := none
  dest := []
  committed := ⟨none, none⟩

theorem Inv.fresh (h : ∀ r ∈ table, r.Uses ok) : Inv S ok records (fresh table) := by
  have hnone : S.Uses ok ⟨none, none⟩ := ⟨nofun, nofun, fun _ => rfl⟩
  refine ⟨h, hnone, hnone, Cursors.Le.refl _, ⟨OptLe.none_le _, OptLe.none_le _⟩, ?_, ?_, fun _ => rfl⟩
  · nofun
  · nofun

variable (ok) in
/-- Only values in use are added to the table. -/
def Appends : Action V → World V → Prop
  | .append rows, _ => ∀ r ∈ rows, r.Uses ok
  | .sync _, _ => True

variable (S) in
/-- Every row of the first table beyond its committed cursors is at the destination
of the second world. -/
def ReadsBeyond (w w' : World V) : Prop :=
  ∀ r ∈ w.table, S.Beyond w.committed r → r ∈ w'.dest

/-- What the next two undisturbed processes do in a reachable state. -/
theorem progress_of_inv (hS : S.Faithful ok) (hw : Inv S ok records w) :
    let w₁ := sync S records Env.undisturbed w
    ReadsBeyond S w w₁ ∨
      (w₁.stored = w.committed ∧ ReadsBeyond S w (sync S records Env.undisturbed w₁)) := by
  have hsync : ∀ w : World V, Inv S ok records w → w.backfilled = true → S.hasCursors w.stored →
      sync S records Env.undisturbed w = incremental S records Env.undisturbed w := by
    intro w hw hb hc
    unfold Incremental.sync
    rw [if_pos (by decide), hS.json_eq hw.stored]
    exact if_pos (by rw [hb, hc]; rfl)
  by_cases hready : w.backfilled = true ∧ S.hasCursors w.stored = true
  · rw [hsync w hw hready.1 hready.2]
    by_cases hid : w.metadata.map Prod.fst = some (S.threadID w.stored)
    · -- the process takes the committed cursors over; the next one has another thread ID
      right
      obtain ⟨⟨id, m⟩, hm, hid'⟩ := map_eq_some_iff.1 hid
      have hcur : m = w.committed := hw.current id m hm hid'
      obtain ⟨hum, -, q, hq, hidq, hqm, hne⟩ := hw.metadata id m hm
      have hcommitted := hasCursors_of_le hw.stored_le hready.2
      have hstep : incremental S records Env.undisturbed w = { w with stored := w.committed } := by
        have hadopt : adopted S m = w.committed := (hS.json_eq hum).trans hcur
        rw [incremental_adopts hm hid' (by rw [hadopt]; exact hcommitted), if_pos (by rfl), hadopt]
        exact saveCursors_both hw.stored hw.committed
      rw [hstep]
      refine ⟨rfl, ?_⟩
      have hw' : Inv S ok records { w with stored := w.committed } :=
        hw.store hw.committed (Cursors.Le.refl _) fun id' m' hm' => by
          rw [hm] at hm'
          cases hm'
          exact .inl hcur
      rw [hsync _ hw' hready.1 hcommitted]
      intro r hr hb
      refine incremental_reads hS hw' ?_ hr hb
      show w.metadata.map Prod.fst ≠ some (S.threadID w.committed)
      rw [hm]
      intro heq
      have hqc : q = w.committed := by
        refine hS.threadID q _ hq hw.committed ?_
        rw [← hidq]
        simpa using heq
      exact hne (hqc.trans hcur.symm)
    · left
      intro r hr hb
      exact incremental_reads hS hw hid hr (beyond_stored hw.stored_le hready.2 hb)
  · left
    intro r hr _
    obtain ⟨w', hbf, hall⟩ := backfill_reads hS hw
    have hstep : sync S records Env.undisturbed w = incremental S records Env.undisturbed w' := by
      unfold Incremental.sync
      rw [if_pos (by decide), hS.json_eq hw.stored]
      rw [if_neg (by simpa using hready), if_neg (by decide), hbf]
    rw [hstep]
    exact dest_incremental _ _ (hall r hr)

/-- Over every run of syncs, failures and crashes on an append-only table, the next
undisturbed process reads all rows beyond the last committed cursors, or takes these
cursors over and the one after it reads them. -/
theorem incremental_progress (hS : S.Faithful ok) {table : List (Row V)}
    (htable : ∀ r ∈ table, r.Uses ok) (actions : List (Action V))
    (hrun : Along (step S records) (Appends ok) actions (fresh table)) :
    let w := run (step S records) actions (fresh table)
    let w₁ := sync S records Env.undisturbed w
    ReadsBeyond S w w₁ ∨
      (w₁.stored = w.committed ∧ ReadsBeyond S w (sync S records Env.undisturbed w₁)) := by
  refine progress_of_inv hS (run_inv (I := Inv S ok records) (fun a w hw ha => ?_)
    (Inv.fresh htable) hrun)
  cases a with
  | append rows => exact hw.append ha
  | sync env => exact hw.sync hS env

def timestampStream (driver : Jdbc.DriverType) : Stream Int where
  primary := timestampColumn driver
  secondary := none
  driver := driver
  columnType _ :=
    { isTimestamp := true
      dbDatatype := some { timeZone := false, timestamp := true }
      reformat := some
      format := fun t => some (t - t % 1000) }
  db := { cast := id, parse := id }
  ulid := []
  streamID := ascii "db.t"

/-- A row is committed, the process dies before it stores the cursor, and one more
row is added. -/
def committedThenDied : List (Action Int) :=
  [.sync Env.undisturbed, .append [⟨2, some 1500, none⟩],
    .sync { Env.undisturbed with saved := .nothing }, .append [⟨3, some 9000, none⟩]]

theorem incremental_progress_postgres :
    let S := timestampStream .postgres
    let w := run (step S true) committedThenDied (fresh [⟨1, some 1000, none⟩])
    let w₁ := sync S true Env.undisturbed w
    ReadsBeyond S w w₁ ∨
      (w₁.stored = w.committed ∧ ReadsBeyond S w (sync S true Env.undisturbed w₁)) := by
  have huses : ∀ r : Row Int, r.Uses fun _ => True := fun _ => ⟨fun _ _ => trivial, fun _ _ => trivial⟩
  exact incremental_progress
    (faithful_timestamp .postgres (by decide) rfl rfl rfl (by decide +kernel))
    (fun r _ => huses r) committedThenDied
    ⟨trivial, fun r _ => huses r, trivial, fun r _ => huses r, trivial⟩

/-- The last row read has nanoseconds, which the state of a DB2 stream cuts off: the
stored cursor stays what it was, and so does the thread ID.  A row is added. -/
def stalled : World Int :=
  run (step (timestampStream .db2) true)
    [.sync Env.undisturbed, .append [⟨2, some 1500, none⟩],
      .sync Env.undisturbed, .append [⟨3, some 9000, none⟩]] (fresh [⟨1, some 1000, none⟩])

/-- The next process takes the metadata for its own unfinished commit, reads nothing
and leaves everything as it was; so does every one after it. -/
theorem db2_timestamp_stalls :
    let S := timestampStream .db2
    let w₁ := sync S true Env.undisturbed stalled
    w₁ = stalled ∧
      ¬ (ReadsBeyond S stalled w₁ ∨
        (w₁.stored = stalled.committed ∧ ReadsBeyond S stalled (sync S true Env.undisturbed w₁))) := by
  have hstill : sync (timestampStream .db2) true Env.undisturbed stalled = stalled := by
    decide +kernel
  have hrow : (⟨3, some 9000, none⟩ : Row Int) ∈ stalled.table ∧
      (⟨3, some 9000, none⟩ : Row Int) ∉ stalled.dest ∧ stalled.committed = ⟨some 1500, none⟩ := by
    decide +kernel
  have hbeyond : (timestampStream .db2).Beyond stalled.committed ⟨3, some 9000, none⟩ := by
    rw [hrow.2.2]
    exact .inl ⟨9000, 1500, rfl, rfl, by decide⟩
  dsimp only
  rw [hstill, hstill]
  refine ⟨rfl, ?_⟩
  rintro (h | ⟨-, h⟩)
  · exact hrow.2.1 (h _ hrow.1 hbeyond)
  · exact hrow.2.1 (h _ hrow.1 hbeyond)

/-! ### The cursors that a run keeps -/

/-- What the next process gets of the cursors a run ends with: they are formatted, saved
and loaded. -/
def Stream.kept (S : Stream V) (c : Cursors V) : Cursors V :=
  S.mapCursors CursorColumn.json (S.mapCursors CursorColumn.format c)

def int64Stream : Stream Int :=
  { timestampStream .mssql with
    primary := int64Column
    columnType := fun _ =>
      { isTimestamp := false
        dbDatatype := none
        reformat := some
        format := fun _ => none } }

def twoCursors : Stream Int := { int64Stream with secondary := some int64Column }

end Olake.Incremental
