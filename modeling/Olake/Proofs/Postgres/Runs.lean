/-
Postgres: what one call of `StreamChanges` leads to, and the invariant of a sync.

Of the three persisted positions, slot and state file agree, except after a crash
between the acknowledgement and the save.  Then the slot is ahead, and all tables
have committed everything up to it, those without a row included (`Inv.tables`).
The tables themselves follow the picture of `Proofs/SharedPosition.lean`, and a
pass may start at the slot instead of the state file because between the two no
table is missing anything.
-/
import Olake.Proofs.Postgres.Reader

namespace Olake.Postgres

open List

variable {S Row : Type} [DecidableEq S] {streams : List S}

/-! ### Where a pass stops -/

section Pass

variable {filter : List S} {target : LSN}

/-- A pass that returned nil over a live connection has come to its target. -/
theorem Runs.live (h : Runs filter target events r out) (hok : out.exit = .ok)
    (hlive : out.conn = .live) : target ≤ out.reader.clientXLogPos := by
  induction h with
  | killed | cancelled | fails => cases hok
  | reached _ _ h => exact h.2
  | eof => cases hlive
  | reads _ _ _ _ _ ih => exact ih hok hlive

theorem Runs.at_target (h : Runs filter target events r out)
    (hdone : r.transactionCompleted = true ∧ target ≤ r.clientXLogPos) (hok : out.exit = .ok) :
    out = ⟨r, .live, .ok⟩ := by
  cases h with
  | killed | cancelled | fails => cases hok
  | reached => rfl
  | eof _ hrec | reads _ hrec => exact absurd hdone hrec.2.2

end Pass

/-! ### One call of StreamChanges -/

section Call

variable (i : Input streams) (w : World S Row) (states : S → Option LSN)

/-- The position that a call recovers to, if it is a recovery. -/
def recoveryOf : Option LSN := recoveryLSN (readMetadata 0 w.saved states i.order)

def remainingOf : List S :=
  remainingStreams streams (readMetadata 0 w.saved states i.order).2

def targetOf : LSN := (recoveryOf i w states).getD i.xLogPos

def passOf : Pass S Row :=
  pgoutputStreamChanges (remainingOf i w states) (targetOf i w states) i.events
    w.reader

/-- The check of the state file against the slot passes, or is left out. -/
def Validated : Prop :=
  remainingOf i w states = [] ∨ recoveryOf i w states = some w.slot ∨
    w.saved = w.slot

/-- What a call whose pass returned leaves. -/
def finishedCall : Streamed (World S Row) S Row LSN where
  world := { w with replicator := some {
    clientXLogPos :=
      (recoveryOf i w states).getD (passOf i w states).reader.clientXLogPos
    conn := (passOf i w states).conn } }
  pushed := (passOf i w states).reader.pushed
  final := fun _ => some
    ((recoveryOf i w states).getD (passOf i w states).reader.clientXLogPos)
  exit := .ok

/-- `StreamChanges` touches neither the server nor the state file. -/
theorem StreamChanges_world :
    ∃ replicator, (StreamChanges i w states).world = { w with replicator := replicator } := by
  unfold StreamChanges
  dsimp only
  split
  · exact ⟨w.replicator, rfl⟩
  · split
    · exact ⟨_, rfl⟩
    · split
      · exact ⟨_, rfl⟩
      · split
        · exact ⟨_, rfl⟩
        · exact ⟨_, rfl⟩

variable {i w states}

theorem validated_iff : Validated i w states ↔
    ¬ (remainingOf i w states ≠ [] ∧ recoveryOf i w states ≠ some w.slot ∧
      validateGlobalState w.saved w.slot = false) := by
  unfold Validated validateGlobalState
  rw [beq_eq_false_iff_ne]
  tauto

/-- The call returned no error: it came to its end, or found its context done. -/
abbrev NoError (exit : Exit) : Prop := exit = .ok ∨ exit = .cancelled

theorem not_noError_err : ¬ NoError .err := by decide

/-- What a call of `StreamChanges` that returned no error has done. -/
theorem StreamChanges_returned (h : NoError (StreamChanges i w states).exit) :
    Validated i w states ∧ NoError (passOf i w states).exit ∧
      StreamChanges i w states
        = { finishedCall i w states with exit := (passOf i w states).exit } := by
  rw [validated_iff]
  unfold StreamChanges at h ⊢
  dsimp only at h ⊢
  split at h
  · exact absurd h not_noError_err
  rename_i hconn
  split at h
  · exact absurd h not_noError_err
  rename_i hvalid
  split at h
  · exact absurd h not_noError_err
  rename_i hstart
  split at h
  · rename_i hbad
    dsimp only at h
    rcases h with h | h
    · rw [h] at hbad
      exact absurd hbad (by decide)
    · rw [h] at hbad
      exact absurd hbad (by decide)
  rename_i hgood
  refine ⟨hvalid, h, ?_⟩
  rw [if_neg hconn, if_neg hvalid, if_neg hstart, if_neg hgood]
  rfl

/-- What a call of `StreamChanges` that returned nil has done. -/
theorem StreamChanges_ok (h : (StreamChanges i w states).exit = .ok) :
    Validated i w states ∧ (passOf i w states).exit = .ok ∧
      StreamChanges i w states = finishedCall i w states := by
  obtain ⟨hvalid, -, heq⟩ := StreamChanges_returned (.inl h)
  have hpass : (passOf i w states).exit = .ok := by
    rw [heq] at h
    exact h
  refine ⟨hvalid, hpass, heq.trans ?_⟩
  rw [hpass]
  rfl

/-- The converse: a call whose check and pass succeed returns nil. -/
theorem StreamChanges_of_pass (hconn : i.connFails = false) (hstart : i.startFails = false)
    (hvalid : Validated i w states) (hpass : (passOf i w states).exit = .ok) :
    (StreamChanges i w states).exit = .ok := by
  rw [validated_iff] at hvalid
  unfold StreamChanges
  dsimp only
  split
  · rename_i hfails
    rw [hconn] at hfails
    cases hfails
  split
  · rename_i hbad
    exact absurd hbad hvalid
  split
  · rename_i hfails
    rw [hstart] at hfails
    cases hfails
  split
  · rename_i hbad
    change (passOf i w states).exit = .err ∨ (passOf i w states).exit = .killed
      at hbad
    rw [hpass] at hbad
    exact absurd hbad (by decide)
  · exact hpass

/-- A call is a recovery when the metadata of some stream is ahead, and where those are all
at `m` it recovers to `m`. -/
theorem recoveryOf_cases (h : AheadAt streams w.saved states m) (i : Input streams) :
    (recoveryOf i w states = none ∧ remainingOf i w states = streams ∧
        ¬ ∃ s ∈ streams, IsAhead w.saved states s) ∨
      (recoveryOf i w states = some m ∧ w.saved < m ∧ ∃ s ∈ streams, IsAhead w.saved states s) := by
  unfold recoveryOf remainingOf
  rcases h.recoveryPos 0 i.mem_order with ⟨hnone, hno⟩ | ⟨rfl, hne, hahead⟩
  · rw [hnone]
    exact .inl ⟨rfl, rfl, hno⟩
  · exact .inr ⟨if_neg hne, hahead⟩

/-- Without a recovery, a pass that returned nil over a live connection ends behind
the slot it began at, or at it. -/
theorem slot_le_pass
    (hok : (passOf i w states).exit = .ok) (hlive : (passOf i w states).conn = .live) :
    w.slot ≤ (passOf i w states).reader.clientXLogPos := by
  by_cases htarget : targetOf i w states ≤ w.slot
  · have hpass := (pgoutputStreamChanges_runs _ _ i.events w.reader).at_target ⟨rfl, htarget⟩ hok
    unfold passOf
    rw [hpass]
    exact le_rfl
  · exact le_trans (le_of_lt (not_le.1 htarget)) ((pgoutputStreamChanges_runs _ _ _ _).live hok hlive)

theorem mem_remainingOf : s ∈ remainingOf i w states ↔
    s ∈ streams ∧ ¬ IsAhead w.saved states s := by
  unfold remainingOf
  rw [mem_remainingStreams, mem_finished]
  constructor
  · rintro ⟨hs, hnot⟩
    exact ⟨hs, fun hahead => hnot ⟨(i.mem_order s).2 hs, hahead⟩⟩
  · rintro ⟨hs, hnot⟩
    exact ⟨hs, fun hfin => hnot hfin.2⟩

end Call

/-! ### The invariant -/

/-- No connection is open between two attempts. -/
def Idle (w : World S Row) : Prop :=
  ∀ socket, w.replicator = some socket → socket.conn = .closed

/-- Slot and state file lie within the log, and the tables are consistent with the
state file; where the slot is ahead of it, they all hold the rows up to the slot. -/
structure Inv (streams : List S) (sys : System S Row) : Prop where
  start_le : sys.world.wal.start ≤ sys.world.saved
  saved_le : sys.world.saved ≤ sys.world.slot
  slot_le : sys.world.slot ≤ sys.world.wal.walEnd
  idle : Idle sys.world
  tables : ∃ m, m ≤ sys.world.wal.walEnd ∧
    Consistent (sourceRows sys.world.wal) streams sys.world.wal.start sys.world.saved m sys.dest ∧
    (sys.world.saved ≠ sys.world.slot → m = sys.world.slot ∧
      ∀ s ∈ streams, (sys.dest s).rows
        = sourceRows sys.world.wal s sys.world.wal.start sys.world.slot)

/-- Some table is ahead of the state file: the next pass is a recovery. -/
def Recovers (streams : List S) (sys : System S Row) : Prop :=
  ∃ s ∈ streams, IsAhead sys.world.saved sys.states s

/-- The tables ahead of the state file are at one position; a slot that is ahead too
is at that position. -/
structure Aligned (streams : List S) (sys : System S Row) : Prop where
  idle : Idle sys.world
  saved_le : sys.world.saved ≤ sys.world.slot
  ahead : ∃ m, AheadAt streams sys.world.saved sys.states m ∧
    (sys.world.saved ≠ sys.world.slot → Recovers streams sys → sys.world.slot = m)

/-- What the server sends in an attempt, under the condition `P`. -/
abbrev Sends (P : Receive → Reader S Row → Prop) (a : Attempt streams) (sys : System S Row) : Prop :=
  Along (remainingOf a.input sys.world sys.states)
    (targetOf a.input sys.world sys.states) P a.input.events sys.world.reader

variable (a : Attempt streams) (sys : System S Row)

/-- The attempts for which Postgres keeps its promise. -/
abbrev SoundAttempt : Prop :=
  Sends (fun rc r => KeepaliveInOrder sys.world.wal sys.world.slot rc r ∧
    Exact (remainingOf a.input sys.world sys.states)
      (recoveryOf a.input sys.world sys.states) rc r) a sys

section Pushes

variable {sys : System S Row} {a : Attempt streams}

/-- Between the state file and the slot no table that is in step misses a row. -/
theorem Inv.nothing_acked (h : Inv streams sys) (hs : s ∈ streams)
    (hin : InStep (sourceRows sys.world.wal s) sys.world.wal.start sys.world.saved (sys.dest s)) :
    sourceRows sys.world.wal s sys.world.saved sys.world.slot = [] := by
  obtain ⟨m, _, _, hacked⟩ := h.tables
  by_cases heq : sys.world.saved = sys.world.slot
  · rw [heq]
    exact (sourceRows_splits _ s).self _
  · have hrows := (hacked heq).2 s hs
    rw [hin.rows, sourceRows_splits _ s _ _ _ h.start_le h.saved_le] at hrows
    exact self_eq_append_right.1 hrows

theorem Inv.aligned (h : Inv streams sys) : Aligned streams sys := by
  obtain ⟨m, -, hcons, hacked⟩ := h.tables
  exact ⟨h.idle, h.saved_le, m, hcons.aheadAt, fun hne _ => (hacked hne).1.symm⟩

theorem Aligned.recoveryOf_cases (h : Aligned streams sys) (i : Input streams) :
    (recoveryOf i sys.world sys.states = none ∧ remainingOf i sys.world sys.states = streams ∧
        ¬ Recovers streams sys) ∨
      ∃ m, recoveryOf i sys.world sys.states = some m ∧ Recovers streams sys ∧
        sys.world.saved < m ∧ AheadAt streams sys.world.saved sys.states m ∧
        (sys.world.saved ≠ sys.world.slot → sys.world.slot = m) := by
  obtain ⟨m, hm, hslot⟩ := h.ahead
  refine (Postgres.recoveryOf_cases hm i).imp_right fun ⟨hR, hlt, hrec⟩ => ?_
  exact ⟨m, hR, hrec, hlt, hm, fun hne => hslot hne hrec⟩

/-- The position of a call whose reader ends at `pos`: every table ahead is at it, and it is
behind the slot where `pos` is. -/
theorem Aligned.finalLSN (h : Aligned streams sys) {i : Input streams}
    (hvalid : Validated i sys.world sys.states) (pos : LSN) :
    AheadAt streams sys.world.saved sys.states ((recoveryOf i sys.world sys.states).getD pos) ∧
      (sys.world.slot ≤ pos → sys.world.slot ≤ (recoveryOf i sys.world sys.states).getD pos) ∧
      (sys.world.saved ≠ sys.world.slot → streams ≠ [] →
        (recoveryOf i sys.world sys.states).getD pos = sys.world.slot) := by
  rcases h.recoveryOf_cases i with ⟨hnone, hall, hno⟩ | ⟨m, hm, -, hlt, hahead, hslot⟩
  · rw [hnone]
    refine ⟨fun s hs h' => absurd ⟨s, hs, h'⟩ hno, fun hle => hle, fun hne hstreams => ?_⟩
    -- without a recovery the check has found slot and state file to agree
    rcases hvalid with hnil | hR | hsame
    · exact absurd (hall.symm.trans hnil) hstreams
    · cases hnone.symm.trans hR
    · exact absurd hsame hne
  · rw [hm]
    refine ⟨hahead, fun _ => ?_, fun hne _ => (hslot hne).symm⟩
    by_cases hsame : sys.world.saved = sys.world.slot
    · rw [← hsame]
      exact le_of_lt hlt
    · exact le_of_eq (hslot hsame)

/-- Whatever a call recovers to is written already. -/
theorem Inv.recovery_le (h : Inv streams sys) (hpos : pos ≤ sys.world.wal.walEnd) :
    (recoveryOf a.input sys.world sys.states).getD pos ≤ sys.world.wal.walEnd := by
  obtain ⟨m, hm, hcons, -⟩ := h.tables
  rcases recoveryOf_cases hcons.aheadAt a.input with ⟨hnone, -⟩ | ⟨hR, -⟩
  · rw [hnone]
    exact hpos
  · rw [hR]
    exact hm

theorem passOf_ok (h : Inv streams sys) (ha : SoundAttempt a sys)
    (hpass : (passOf a.input sys.world sys.states).exit = .ok) :
    (∃ done todo, AtBoundary (remainingOf a.input sys.world sys.states)
      (recoveryOf a.input sys.world sys.states) sys.world.wal sys.world.slot
      done todo (passOf a.input sys.world sys.states).reader) ∧
    ((passOf a.input sys.world sys.states).conn = .live ∧
        targetOf a.input sys.world sys.states
          ≤ (passOf a.input sys.world sys.states).reader.clientXLogPos ∨
      (passOf a.input sys.world sys.states).conn = .broken ∧
        recoveryOf a.input sys.world sys.states = none) :=
  (pgoutputStreamChanges_runs _ _ _ _).ok (.boundary (AtBoundary.start h.slot_le)) ha hpass

/-- A call that returned nil hands every table the rows it is missing. -/
theorem StreamChanges_pushes (h : Inv streams sys) (ha : SoundAttempt a sys)
    (hok : (streamed driver a sys).exit = .ok) :
    ∃ x, sys.world.slot ≤ x ∧ x ≤ sys.world.wal.walEnd ∧
      Pushes (sourceRows sys.world.wal) streams sys.world.wal.start sys.world.saved x sys.dest
        (streamed driver a sys) ∧
      (streamed driver a sys).world
        = { sys.world with
            replicator := some ⟨x, (passOf a.input sys.world sys.states).conn⟩ } ∧
      (sys.world.saved ≠ sys.world.slot → ∀ s ∈ streams, x = sys.world.slot) ∧
      (¬ Recovers streams sys →
        (passOf a.input sys.world sys.states).conn = .live →
        a.input.xLogPos ≤ x) := by
  obtain ⟨hvalid, hpass, heq⟩ := StreamChanges_ok hok
  obtain ⟨⟨done, todo, hstand⟩, hend⟩ := passOf_ok h ha hpass
  obtain ⟨haheadAt, hle, hsame⟩ := h.aligned.finalLSN hvalid
    (passOf a.input sys.world sys.states).reader.clientXLogPos
  have hslot := hle hstand.slot_le
  change streamed driver a sys = _ at heq
  have hreached : ∀ R, recoveryOf a.input sys.world sys.states = some R →
      R ≤ (passOf a.input sys.world sys.states).reader.clientXLogPos := by
    intro R hR
    rcases hend with ⟨_, htarget⟩ | ⟨_, hnone⟩
    · rw [targetOf, hR] at htarget
      exact htarget
    · rw [hR] at hnone
      cases hnone
  refine ⟨_, hslot, h.recovery_le hstand.within,
    ⟨fun s => by rw [heq]; rfl, le_trans h.saved_le hslot, ?_, ?_⟩, by rw [heq]; rfl,
    fun hne s hs => hsame hne (ne_nil_of_mem hs), ?_⟩
  · -- a table in step gets what lies between the slot and the end of the pass
    intro s hs hin
    have hmem : s ∈ remainingOf a.input sys.world sys.states :=
      mem_remainingOf.2 ⟨hs, fun ⟨m', hm', hlt⟩ => absurd hlt (not_lt.2 (hin.state m' hm'))⟩
    rw [heq, sourceRows_splits _ s _ _ _ h.saved_le hslot, h.nothing_acked hs hin]
    exact hstand.rows hreached hmem
  · intro s hs m' hahead
    have hisAhead : IsAhead sys.world.saved sys.states s := ⟨m', hahead.state, hahead.lt⟩
    refine ⟨Option.some.inj (hahead.state.symm.trans (haheadAt s hs hisAhead)), ?_⟩
    rw [heq]
    show rowsFor s (passOf a.input sys.world sys.states).reader.pushed = []
    rw [hstand.pushed]
    exact rowsFor_delivered_of_notMem (fun hmem => (mem_remainingOf.1 hmem).2 hisAhead) _
  · intro hno hlive
    rcases h.aligned.recoveryOf_cases a.input with ⟨hnone, -⟩ | ⟨m, -, hrec, -⟩
    · rcases hend with ⟨_, htarget⟩ | ⟨hbroken, _⟩
      · rw [targetOf, hnone] at htarget
        rw [hnone]
        exact htarget
      · rw [hlive] at hbroken
        cases hbroken
    · exact absurd hrec hno

end Pushes

/-! ### PostCDC -/

section PostCDC

variable (i : Input streams) {w : World S Row}

/-- On a done context, or without an open connection, `PostCDC` persists nothing. -/
theorem runPostCDC_nothing (done : Bool) (h : done = true ∨ Idle w) :
    ∃ replicator, runPostCDC driver i done w = { w with replicator := replicator } ∧
      Idle (runPostCDC driver i done w) := by
  cases hrep : w.replicator with
  | none =>
    have heq : runPostCDC driver i done w = w := by simp [runPostCDC, driver, PostCDC, hrep]
    refine ⟨w.replicator, heq, fun socket hsocket => ?_⟩
    rw [heq, hrep] at hsocket
    cases hsocket
  | some socket =>
    have heq : runPostCDC driver i done w
        = { w with replicator := some { socket with conn := .closed } } := by
      cases done with
      | true => simp [runPostCDC, driver, PostCDC, hrep]
      | false =>
        have hclosed := (h.resolve_left (by decide)) socket hrep
        simp [runPostCDC, driver, PostCDC, AcknowledgeLSN, hrep, hclosed]
    refine ⟨_, heq, fun socket' hsocket => ?_⟩
    rw [heq] at hsocket
    rw [← Option.some.inj hsocket]

omit [DecidableEq S] in
/-- An acknowledgement leaves the slot, or moves it up to the reader's position over a
live connection; it returns nil only where the slot is at that position. -/
theorem AcknowledgeLSN_cases (ack : AckOutcome) (socket : Socket) (slot : LSN) :
    ((AcknowledgeLSN ack socket slot).1 = slot ∨
        (AcknowledgeLSN ack socket slot).1 = max slot socket.clientXLogPos ∧ socket.conn = .live) ∧
      ((AcknowledgeLSN ack socket slot).2 = .ok →
        (AcknowledgeLSN ack socket slot).1 = socket.clientXLogPos) := by
  have hmoved : ∀ m : Bool,
      (if m = true ∧ socket.conn = .live then max slot socket.clientXLogPos else slot) = slot ∨
      (if m = true ∧ socket.conn = .live then max slot socket.clientXLogPos else slot)
        = max slot socket.clientXLogPos ∧ socket.conn = .live := by
    intro m
    split
    next h => exact .inr ⟨rfl, h.2⟩
    next => exact .inl rfl
  unfold AcknowledgeLSN
  dsimp only
  split
  · exact ⟨.inl rfl, nofun⟩
  cases ack with
  | confirmed =>
    refine ⟨hmoved true, fun hok => ?_⟩
    by_contra hne
    rw [if_neg hne] at hok
    cases hok
  | failed m | killed m => exact ⟨hmoved m, nofun⟩

/-- `PostCDC` on a live context: the state file follows a successful acknowledgement. -/
theorem runPostCDC_eq (hrep : w.replicator = some ⟨x, conn⟩) :
    runPostCDC driver i false w
      = { w with
          slot := (AcknowledgeLSN i.ack ⟨x, conn⟩ w.slot).1
          saved := if (AcknowledgeLSN i.ack ⟨x, conn⟩ w.slot).2 = .ok then x else w.saved
          replicator := if (AcknowledgeLSN i.ack ⟨x, conn⟩ w.slot).2 = .killed then none
            else some ⟨x, .closed⟩ } := by
  simp only [runPostCDC, driver, PostCDC, hrep]
  cases hexit : (AcknowledgeLSN i.ack ⟨x, conn⟩ w.slot).2 <;> simp

/-- On a live context and an open connection, `PostCDC` acknowledges the slot, and
then saves; it can stop on the way. -/
theorem runPostCDC_open (hrep : w.replicator = some ⟨x, conn⟩) (hle : conn = .live → w.slot ≤ x) :
    ∃ slot saved replicator,
      runPostCDC driver i false w
        = { w with slot := slot, saved := saved, replicator := replicator } ∧
      Idle (runPostCDC driver i false w) ∧
      (slot = x ∧ saved = x ∨ saved = w.saved ∧ (slot = w.slot ∨ slot = x)) ∧ w.slot ≤ slot := by
  obtain ⟨hslot, hsaved⟩ := AcknowledgeLSN_cases i.ack ⟨x, conn⟩ w.slot
  replace hslot := hslot.imp_right fun h => And.intro (h.1.trans (max_eq_right (hle h.2))) h.2
  have hpost := runPostCDC_eq i hrep
  refine ⟨_, _, _, hpost, ?_, ?_, ?_⟩
  · intro socket hsocket
    rw [hpost] at hsocket
    dsimp only at hsocket
    split at hsocket
    · cases hsocket
    · rw [← Option.some.inj hsocket]
  · by_cases hok : (AcknowledgeLSN i.ack ⟨x, conn⟩ w.slot).2 = .ok
    · rw [if_pos hok]
      exact .inl ⟨hsaved hok, rfl⟩
    · rw [if_neg hok]
      exact .inr ⟨rfl, hslot.imp_right And.left⟩
  · rcases hslot with heq | ⟨heq, hlive⟩
    · exact le_of_eq heq.symm
    · rw [heq]
      exact hle hlive

theorem runPostCDC_confirmed (hrep : w.replicator = some ⟨x, .live⟩)
    (hack : i.ack = .confirmed) (hle : w.slot ≤ x) :
    runPostCDC driver i false w
      = { w with slot := x, saved := x, replicator := some ⟨x, .closed⟩ } := by
  simp [runPostCDC, driver, PostCDC, AcknowledgeLSN, hrep, hack, max_eq_right hle]

end PostCDC

end Olake.Postgres
