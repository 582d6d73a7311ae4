/-
A checkpoint is persisted only behind committed changes, for the two drivers whose
`PostCDC` saves a position it finds in a field of the driver: the binlog position of
the last connection (MySQL) and the LSN in `lsnMap` (SQL Server).

Such a field outlives the attempt that set it.  `streamChanges` runs `PostCDC` on a
live context when it cannot create a writer, and then the field still holds the
position of an earlier attempt whose writers may not have committed.  That is the
way to a checkpoint in front of lost changes (`checkpoint_ahead_of_writers`), and
with a MySQL recovery cut short it is the only one (`checkpoint_covered`).
-/
import Olake.Proofs.MSSQL
import Olake.Proofs.MySQL.ExactlyOnce

namespace Olake

open Relation.ReflTransGen

variable {P Row : Type} [LinearOrder P] {src : P → P → List Row} {start saved m : P}
  {t : Table Row P}

theorem InStep.covers (h : InStep src start saved t) : src start saved <+: t.rows := by
  exact h.rows.symm ▸ List.prefix_refl _

theorem Ahead.covers (hsrc : Splits src) (hstart : start ≤ saved)
    (h : Ahead src start saved m t) : src start saved <+: t.rows := by
  rw [h.rows, hsrc start saved m hstart (le_of_lt h.lt)]
  exact List.prefix_append _ _

/-- In every state that a sync reaches through attempts that fail in any way but the
two named above, the rows up to the checkpoint in the state file are committed. -/
theorem checkpoint_covered {S Row : Type} [DecidableEq S] (streams : List S) :
    (∀ sys₀ sys : MySQL.System S Row,
      MySQL.Initial streams sys₀ →
      Reaches MySQL.driver streams MySQL.Grows MySQL.SoundAttempt sys₀ sys →
      ∀ s ∈ streams, MySQL.sourceRows sys.world.binlog s sys₀.world.saved.position
        sys.world.saved.position <+: (sys.dest s).rows) ∧
    (∀ sys₀ sys : MSSQL.System S Row,
      MSSQL.Initial streams sys₀ →
      Reaches MSSQL.driver streams MSSQL.Grows MSSQL.SoundAttempt sys₀ sys →
      ∀ s ∈ streams, MSSQL.sourceRows sys.world.tables s (sys₀.world.cursor s)
        (sys.world.cursor s) <+: (sys.dest s).rows) := by
  refine ⟨fun sys₀ sys hinit hreach s hs => ?_, fun sys₀ sys hinit hreach s hs => ?_⟩
  · have hinv := hinit.inv.reaches hreach
    obtain ⟨m, _, hcons⟩ := hinv.tables
    rw [hinit.saved, ← MySQL.reaches_start hreach]
    rcases hcons s hs with hin | hahead
    · exact hin.covers
    · exact hahead.covers (MySQL.sourceRows_splits _ s) hinv.saved.start_le
  · have hinv := hinit.inv.reaches hreach
    rcases hinv.tables s hs with hin | ⟨m, _, hahead⟩
    · exact hin.covers
    · exact hahead.covers (MSSQL.sourceRows_splits _ s) (hinv.start_le s hs)

/-! ### A writer that cannot be created

In both runs the first attempt reads a change and its writers fail to commit it.
The retry cannot create the writer of the first stream. -/

/-- An attempt over the two rows whose writers commit nothing. -/
def writersFail : MySQL.Attempt ([0, 1] : List (Fin 2)) :=
  { MySQL.inTime with outcome := fun _ => .failed }

/-- A retry that cannot create its first writer. -/
def noWriter : MySQL.Attempt ([0, 1] : List (Fin 2)) :=
  { MySQL.inTime with createFails := some (0, false) }

def oneChange : MSSQL.System (Fin 1) Nat where
  world :=
    { tables :=
        { changes := fun _ => [⟨10, [⟨2, 5⟩]⟩]
          maxLSN := 10
          increasing := fun _ => by unfold Log.Increasing; decide
          captured := fun _ => by decide }
      cursor := fun _ => 1
      lsnMap := fun _ => none }
  dest := fun _ => { rows := [], state := none }

def oneAttempt (createFails : Option (Fin 1 × Bool)) (outcome : CloseOutcome) :
    MSSQL.Attempt ([0] : List (Fin 1)) where
  createFails := createFails
  input :=
    { stream := 0
      mem_streams := by decide
      maxLSNFails := false
      captureInstances := some [1]
      fetch := .ok }
  outcome := fun _ => outcome

theorem oneChange_initial : MSSQL.Initial [0] oneChange where
  cursor_le := fun _ _ => Nat.le_add_left 1 9
  lsnMap := fun _ _ => rfl
  rows := fun _ _ => rfl
  state := nofun

/-- Both drivers then persist a checkpoint although no writer has committed. -/
theorem checkpoint_ahead_of_writers :
    (∃ sys, MySQL.Initial [0, 1] MySQL.twoRowsSync ∧
      Reaches MySQL.driver [0, 1] MySQL.Grows (fun (_ : MySQL.Attempt [0, 1]) _ => True) MySQL.twoRowsSync sys ∧
      ¬ MySQL.sourceRows sys.world.binlog 0 MySQL.twoRowsSync.world.saved.position
        sys.world.saved.position <+: (sys.dest 0).rows) ∧
    (∃ sys, MSSQL.Initial [0] oneChange ∧
      Reaches MSSQL.driver [0] MSSQL.Grows (fun (_ : MSSQL.Attempt [0]) _ => True) oneChange sys ∧
      ¬ MSSQL.sourceRows sys.world.tables 0 (oneChange.world.cursor 0) (sys.world.cursor 0)
        <+: (sys.dest 0).rows) := by
  refine ⟨⟨streamChanges MySQL.driver noWriter
      (streamChanges MySQL.driver writersFail MySQL.twoRowsSync),
      MySQL.twoRowsSync_initial,
      (single (.attempt writersFail trivial)).tail
        (.attempt noWriter trivial), by decide⟩,
    ⟨streamChanges MSSQL.driver (oneAttempt (some (0, false)) .committed)
      (streamChanges MSSQL.driver (oneAttempt none .failed) oneChange),
      oneChange_initial,
      (single (.attempt (oneAttempt none .failed) trivial)).tail
        (.attempt (oneAttempt (some (0, false)) .committed) trivial), by decide⟩⟩

/-- Without the second failure the checkpoint stays behind the tables: the failed
attempts themselves are among those the theorem is about. -/
theorem checkpoint_covered_after_failures :
    (MySQL.Initial [0, 1] MySQL.twoRowsSync ∧ MySQL.SoundAttempt writersFail MySQL.twoRowsSync ∧
      ∀ s ∈ ([0, 1] : List (Fin 2)),
        MySQL.sourceRows
          (streamChanges MySQL.driver writersFail MySQL.twoRowsSync).world.binlog s ⟨1, 4⟩
          (streamChanges MySQL.driver writersFail MySQL.twoRowsSync).world.saved.position
        <+: ((streamChanges MySQL.driver writersFail MySQL.twoRowsSync).dest s).rows) ∧
    (MSSQL.Initial [0] oneChange ∧ MSSQL.SoundAttempt (oneAttempt none .failed) oneChange ∧
      ∀ s ∈ ([0] : List (Fin 1)),
        MSSQL.sourceRows
          (streamChanges MSSQL.driver (oneAttempt none .failed) oneChange).world.tables s 1
          ((streamChanges MSSQL.driver (oneAttempt none .failed) oneChange).world.cursor s)
        <+: ((streamChanges MSSQL.driver (oneAttempt none .failed) oneChange).dest s).rows) := by
  have hmysql : MySQL.SoundAttempt writersFail MySQL.twoRowsSync :=
    { waits := fun _ => by decide
      creates := nofun }
  have hmssql : MSSQL.SoundAttempt (oneAttempt none .failed) oneChange := nofun
  exact ⟨⟨MySQL.twoRowsSync_initial, hmysql, (checkpoint_covered [0, 1]).1 _ _
      MySQL.twoRowsSync_initial (single (.attempt writersFail hmysql))⟩,
    ⟨oneChange_initial, hmssql, (checkpoint_covered [0]).2 _ _ oneChange_initial
      (single (.attempt (oneAttempt none .failed) hmssql))⟩⟩

end Olake
