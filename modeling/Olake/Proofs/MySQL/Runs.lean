/-
MySQL: what a run of attempts leaves at the destination.

The invariant (`Inv`) is the picture of `Proofs/SharedPosition.lean` over the
binlog: the saved position is the end of an event, and every table holds exactly
the rows up to it, or exactly the rows up to one later position at which its own
metadata stands.  A pass keeps it because a recovery stops exactly at that later
position, and hands the tables that are already there nothing.
-/
import Olake.Proofs.MySQL.Reader

namespace Olake.MySQL

open Log BinlogEvent

variable {S Row : Type} [DecidableEq S] {streams : List S}

/-! ### One call of StreamChanges -/

section Call

variable (i : Input streams) (w : World S Row) (states : S → Option Position)

/-- The position that a call recovers to, and the streams that are there. -/
abbrev metadataOf : Position × List S := readMetadata ⟨0, 0⟩ w.saved.position states i.order

/-- The events that a call has not read. -/
abbrev World.unread : List (BinlogEvent S Row) :=
  Log.after BinlogEvent.endPos w.saved.position w.binlog.events

variable (target : Position)

/-- The pass that a call of `StreamChanges` makes towards `target`. -/
def passTo : Pass S Row :=
  streamMessages (remainingStreams streams (metadataOf i w states).2) target i.ticks w.unread false
    w.saved.position []

/-- Where such a pass leaves the connection. -/
def posAfter : Position :=
  if (metadataOf i w states).1.name ≠ 0 then (metadataOf i w states).1
  else (passTo i w states target).currentPos

/-- What a call leaves whose pass has ended, with the connection at `pos`. -/
def leaves (pos : Position) (final : Option Position) : Streamed (World S Row) S Row Position :=
  ⟨{ w with binlogConn := some ⟨w.saved.serverID, pos⟩ }, (passTo i w states target).pushed,
    fun _ => final, (passTo i w states target).exit⟩

inductive StreamedAs : Streamed (World S Row) S Row Position → Prop
  /-- It failed before its pass. -/
  | failed (conn : Option Connection)
      (h : conn = w.binlogConn ∨ conn = some ⟨w.saved.serverID, w.saved.position⟩) :
      StreamedAs ⟨{ w with binlogConn := conn }, [], fun _ => none, .err⟩
  /-- Its pass failed, or never returned. -/
  | broken (target : Position) (h : (passTo i w states target).exit ≠ .ok) :
      StreamedAs (leaves i w states target (passTo i w states target).currentPos none)
  | finished (target : Position)
      (h : latestBinlogPos (metadataOf i w states).1 i.masterStatus = some target) :
      StreamedAs (leaves i w states target (posAfter i w states target)
        (some (posAfter i w states target)))

theorem StreamChanges_as : StreamedAs i w states (StreamChanges i w states) := by
  unfold StreamChanges
  dsimp only
  split
  · exact .failed _ (.inl rfl)
  split
  · exact .failed _ (.inl rfl)
  split
  · exact .failed _ (.inr rfl)
  next target htarget =>
  split
  · exact .failed _ (.inr rfl)
  split
  · next hbad =>
    refine .broken target (fun hok => ?_)
    change (passTo i w states target).exit = .err ∨ (passTo i w states target).exit = .killed at hbad
    simp [hok] at hbad
  · exact .finished target htarget

/-- `StreamChanges` touches neither the log nor the state file, and what holds of the
connections it can leave holds of the one it leaves. -/
theorem StreamChanges_world {P : Connection → Prop} (hold : ∀ c, w.binlogConn = some c → P c)
    (hopen : P ⟨w.saved.serverID, w.saved.position⟩)
    (hpass : ∀ target, P ⟨w.saved.serverID, (passTo i w states target).currentPos⟩)
    (hafter : ∀ target, P ⟨w.saved.serverID, posAfter i w states target⟩) :
    ∃ conn, (StreamChanges i w states).world = { w with binlogConn := conn } ∧
      ∀ c, conn = some c → P c := by
  have has := StreamChanges_as i w states
  generalize StreamChanges i w states = r at has ⊢
  cases has with
  | failed conn h =>
    refine ⟨conn, rfl, fun c hc => ?_⟩
    rcases h with rfl | rfl
    · exact hold c hc
    · exact Option.some.inj hc ▸ hopen
  | broken target => exact ⟨_, rfl, fun c hc => Option.some.inj hc ▸ hpass target⟩
  | finished target => exact ⟨_, rfl, fun c hc => Option.some.inj hc ▸ hafter target⟩

variable {i w states target}

/-- What a call of `StreamChanges` that returned nil has done. -/
theorem StreamChanges_ok (h : (StreamChanges i w states).exit = .ok) :
    ∃ target, latestBinlogPos (metadataOf i w states).1 i.masterStatus = some target ∧
      (passTo i w states target).exit = .ok ∧
      StreamChanges i w states = leaves i w states target (posAfter i w states target)
        (some (posAfter i w states target)) := by
  have has := StreamChanges_as i w states
  generalize StreamChanges i w states = r at h has ⊢
  cases has with
  | failed => cases h
  | broken target hbroken => exact absurd h hbroken
  | finished target htarget => exact ⟨target, htarget, h, rfl⟩

theorem StreamChanges_of_pass (hid : w.saved.serverID ≠ 0) (hconn : i.connFails = false)
    (hstart : i.startSyncFails = false)
    (htarget : latestBinlogPos (metadataOf i w states).1 i.masterStatus = some target)
    (hpass : (passTo i w states target).exit = .ok) : (StreamChanges i w states).exit = .ok := by
  unfold passTo at hpass
  simp [StreamChanges, hid, hconn, hstart, htarget, hpass]

variable (target) in
theorem passTo_runs (hsaved : w.binlog.Boundary w.saved.position) :
    Runs (remainingStreams streams (metadataOf i w states).2) target i.ticks w.unread false
      w.saved.position [] (passTo i w states target) :=
  streamMessages_runs
    (chained_after w.binlog.chained w.binlog.after_start w.binlog.increasing hsaved)

theorem passTo_read (hsaved : w.binlog.Boundary w.saved.position)
    (hok : (passTo i w states target).exit = .ok) : ∃ done todo,
      ReadOf (remainingStreams streams (metadataOf i w states).2) target w.saved.position w.unread
        [] (passTo i w states target) done todo ∧
      (target ≤ (passTo i w states target).currentPos ∨
        waitRunsOut i.ticks w.unread = true ∧ (passTo i w states target).pushed = []) := by
  obtain ⟨⟨done, todo, hread⟩, hend⟩ := (passTo_runs target hsaved).read
    (fun e he => (mem_after.1 he).2) (after_increasing w.binlog.increasing) hok
  exact ⟨done, todo, hread, hend.imp_right And.right⟩

omit [DecidableEq S] in
/-- Where the tables ahead are all at `m`, a call recovers to `m` or has no recovery to make. -/
theorem metadataOf_cases (hsaved : w.binlog.Boundary w.saved.position) (hm : w.binlog.Boundary m)
    (h : AheadAt streams w.saved.position states m) (i : Input streams) :
    (metadataOf i w states = (⟨0, 0⟩, []) ∧ ¬ ∃ s ∈ streams, IsAhead w.saved.position states s) ∨
      ((metadataOf i w states).1 = m ∧ m.name ≠ 0 ∧ latestBinlogPos m i.masterStatus = some m ∧
        w.saved.position < m ∧ ∃ s ∈ streams, IsAhead w.saved.position states s) := by
  refine (h.recoveryPos ⟨0, 0⟩ i.mem_order).imp_right fun ⟨heq, _, hlt, hahead⟩ => ?_
  obtain ⟨e, he, rfl⟩ := event_of_boundary hsaved hm hlt
  have hnamed := w.binlog.named e (mem_after.1 he).1
  exact ⟨heq, hnamed.1, if_neg (by simp [hnamed.1, hnamed.2.1]), hlt, hahead⟩

end Call

/-! ### The invariant -/

/-- The saved position is the end of an event, the tables are consistent with it,
and a connection belongs to the server ID of the state file. -/
structure Inv (streams : List S) (sys : System S Row) : Prop where
  serverID : sys.world.saved.serverID ≠ 0
  conn : ∀ c, sys.world.binlogConn = some c → c.serverID = sys.world.saved.serverID
  saved : sys.world.binlog.Boundary sys.world.saved.position
  tables : ∃ m, sys.world.binlog.Boundary m ∧
    Consistent (sourceRows sys.world.binlog) streams sys.world.binlog.start
      sys.world.saved.position m sys.dest

/-- Some table is ahead of the state file: the next pass is a recovery. -/
def Recovers (streams : List S) (sys : System S Row) : Prop :=
  ∃ s ∈ streams, IsAhead sys.world.saved.position sys.states s

/-- No recovery is cut short by the initial wait time. -/
def WaitsLongEnough (a : Attempt streams) (sys : System S Row) : Prop :=
  Recovers streams sys → waitRunsOut a.input.ticks
    (Log.after BinlogEvent.endPos sys.world.saved.position sys.world.binlog.events) = false

variable {sys : System S Row} {a : Attempt streams}

/-- The pass ends where its reader stands, and the tables ahead stand there too. -/
theorem posAfter_eq (hinv : Inv streams sys) (hwait : WaitsLongEnough a sys)
    (hm : sys.world.binlog.Boundary m) (hahead : AheadAt streams sys.world.saved.position sys.states m)
    (htarget : latestBinlogPos (metadataOf a.input sys.world sys.states).1 a.input.masterStatus
      = some target)
    (hread : ReadOf filter target sys.world.saved.position sys.world.unread []
      (passTo a.input sys.world sys.states target) done todo)
    (hend : target ≤ (passTo a.input sys.world sys.states target).currentPos ∨
      waitRunsOut a.input.ticks sys.world.unread = true) :
    posAfter a.input sys.world sys.states target
        = Log.reached BinlogEvent.endPos sys.world.saved.position done ∧
      (Recovers streams sys →
        m = Log.reached BinlogEvent.endPos sys.world.saved.position done) := by
  unfold posAfter
  rcases metadataOf_cases hinv.saved hm hahead a.input
    with ⟨hnone, hno⟩ | ⟨heq, hname, hlatest, hlt, hrecovers⟩
  · rw [hnone]
    exact ⟨hread.pos, fun h => absurd h hno⟩
  · rw [heq, hlatest] at htarget
    obtain rfl := Option.some.inj htarget
    obtain ⟨e, he, hem⟩ := event_of_boundary hinv.saved hm hlt
    have hge : m ≤ reached endPos sys.world.saved.position done := by
      rcases hend with hle | hrun
      · rw [← hread.pos]
        exact hle
      · rw [hwait hrecovers] at hrun
        cases hrun
    have hle := hread.first e he (le_of_eq hem.symm)
    rw [hem] at hle
    rw [heq, if_pos hname]
    exact ⟨le_antisymm hge hle, fun _ => le_antisymm hge hle⟩

/-- A pass that returned nil, and was no recovery cut short, hands every table
the rows it is missing. -/
theorem StreamChanges_pushes (hinv : Inv streams sys) (hwait : WaitsLongEnough a sys)
    (hok : (streamed driver a sys).exit = .ok) : ∃ x, sys.world.binlog.Boundary x ∧
      Pushes (sourceRows sys.world.binlog) streams sys.world.binlog.start
        sys.world.saved.position x sys.dest (streamed driver a sys) ∧
      (streamed driver a sys).world
        = { sys.world with binlogConn := some ⟨sys.world.saved.serverID, x⟩ } ∧
      (¬ Recovers streams sys → ∀ T, a.input.masterStatus = some T → T ≤ x ∨
        waitRunsOut a.input.ticks sys.world.unread = true) := by
  obtain ⟨m, hm, hcons⟩ := hinv.tables
  obtain ⟨target, htarget, hpass, heq⟩ := StreamChanges_ok hok
  change streamed driver a sys = _ at heq
  obtain ⟨done, todo, hread, hended⟩ := passTo_read hinv.saved hpass
  have hend := hended.imp_right And.left
  obtain ⟨hx, hrec⟩ := posAfter_eq hinv hwait hm hcons.aheadAt htarget hread hend
  rw [heq]
  refine ⟨_, ?_, ⟨fun _ => rfl, ?_, fun s hs hin => ?_, fun s hs m' hahead => ?_⟩, rfl,
    fun hno T hT => ?_⟩
  · rw [hx]
    exact (boundary_reached hinv.saved hread.split).1
  · rw [hx]
    exact (boundary_reached hinv.saved hread.split).2
  · have hnot : s ∉ (metadataOf a.input sys.world sys.states).2 := by
      intro hfin
      obtain ⟨_, m', hm', hlt⟩ := (mem_finished _).1 hfin
      exact absurd hlt (not_lt.2 (hin.state m' hm'))
    show rowsFor s (passTo a.input sys.world sys.states target).pushed = _
    rw [hread.pushed, hx]
    exact rowsFor_delivered (mem_remainingStreams.2 ⟨hs, hnot⟩)
      (between_reached sys.world.binlog.increasing hread.split)
  · have hisAhead : IsAhead sys.world.saved.position sys.states s := ⟨m', hahead.state, hahead.lt⟩
    have hfin := (mem_finished ⟨0, 0⟩).2 ⟨(a.input.mem_order s).2 hs, hisAhead⟩
    refine ⟨?_, ?_⟩
    · rw [hx, hcons.ahead_of_isAhead hs hahead.state hahead.lt]
      exact hrec ⟨s, hs, hisAhead⟩
    · show rowsFor s (passTo a.input sys.world sys.states target).pushed = _
      rw [hread.pushed]
      exact rowsFor_delivered_of_notMem (fun hmem => (mem_remainingStreams.1 hmem).2 hfin) _
  · rcases metadataOf_cases hinv.saved hm hcons.aheadAt a.input with ⟨hnone, -⟩ | ⟨-, -, -, -, h⟩
    · rw [hnone, hT] at htarget
      rw [Option.some.inj htarget, hx, ← hread.pos]
      exact hend
    · exact absurd h hno

end Olake.MySQL
