/-
MySQL change data capture commits every row event exactly once, as long as no
recovery is cut short by the initial wait time.

`Inv` holds in every state that a sync can reach, so at any moment a table holds
the rows of its stream up to some event, each once and in order.  An undisturbed
attempt brings all tables to one position; the second of two undisturbed attempts
brings them to where the server stood.

The condition is needed: a recovery that waits in vain for its first row event
returns nil all the same, and the position it was to recover to is then saved for
streams that never read up to it (`recovery_cut_short`).
-/
import Olake.Proofs.MySQL.Runs

namespace Olake.MySQL

open Relation.ReflTransGen

variable {S Row : Type} [DecidableEq S] {streams : List S}
  {sys sys' : System S Row}

/-! ### The invariant along a sync -/

/-- The attempts for which MySQL keeps its promise: no recovery is cut short, and
no writer fails to be created while an earlier attempt has left the connection at
a position that was not saved. -/
structure SoundAttempt (a : Attempt streams) (sys : System S Row) : Prop where
  waits : WaitsLongEnough a sys
  creates : ∀ k, a.createFails = some (k, false) → ∀ c, sys.world.binlogConn = some c →
    c.currentPos = sys.world.saved.position

/-- Before the first change is read: nothing is committed and the state file holds
the initial position. -/
structure Initial (streams : List S) (sys : System S Row) : Prop where
  saved : sys.world.saved.position = sys.world.binlog.start
  serverID : sys.world.saved.serverID ≠ 0
  conn : sys.world.binlogConn = none
  rows : ∀ s ∈ streams, (sys.dest s).rows = []
  state : ∀ s ∈ streams, ∀ m, (sys.dest s).state = some m → m ≤ sys.world.binlog.start

theorem Initial.inv (h : Initial streams sys) : Inv streams sys where
  serverID := h.serverID
  conn := fun c hc => by
    rw [h.conn] at hc
    exact absurd hc (by simp)
  saved := .inl h.saved
  tables := by
    refine ⟨sys.world.binlog.start, .inl rfl, fun s hs => .inl ⟨?_, ?_⟩⟩
    · rw [h.rows s hs, h.saved, (sourceRows_splits _ s).self]
    · intro m hm
      rw [h.saved]
      exact h.state s hs m hm

variable {w : World S Row} (i : Input streams)

theorem runPostCDC_done (w : World S Row) : runPostCDC driver i true w = w := by
  cases h : w.binlogConn with
  | none | some => simp [runPostCDC, driver, PostCDC, h]

theorem runPostCDC_some (h : w.binlogConn = some conn) :
    runPostCDC driver i false w
      = { w with saved := ⟨conn.serverID, conn.currentPos⟩ } := by
  simp [runPostCDC, driver, PostCDC, h]

/-- `PostCDC` does nothing, or saves the position of the connection. -/
theorem runPostCDC_cases (done : Bool) (w : World S Row) :
    runPostCDC driver i done w = w ∨
      done = false ∧ ∃ c, w.binlogConn = some c ∧
        runPostCDC driver i done w = { w with saved := ⟨c.serverID, c.currentPos⟩ } := by
  cases done with
  | true => exact .inl (runPostCDC_done i w)
  | false =>
    rcases Option.eq_none_or_eq_some w.binlogConn with h | ⟨c, h⟩
    · exact .inl (by simp [runPostCDC, driver, PostCDC, h])
    · exact .inr ⟨rfl, c, h, runPostCDC_some i h⟩

variable {a : Attempt streams}

/-- Whatever an attempt that does not save does to the driver, the log and the
state file stay. -/
theorem unsaved_world {P : Connection → Prop}
    (h : ∃ conn, (streamed driver a sys).world = { sys.world with binlogConn := conn } ∧
      ∀ c, conn = some c → P c)
    (hw : w = { (streamed driver a sys).world with binlogConn := none } ∨
      w = runPostCDC driver a.input true (streamed driver a sys).world) :
    ∃ conn, w = { sys.world with binlogConn := conn } ∧ ∀ c, conn = some c → P c := by
  obtain ⟨conn, hworld, hconn⟩ := h
  rcases hw with rfl | rfl
  · exact ⟨none, by rw [hworld], nofun⟩
  · exact ⟨conn, by rw [runPostCDC_done, hworld], hconn⟩

theorem Inv.streamed_world (h : Inv streams sys) : ∃ conn,
    (streamed driver a sys).world = { sys.world with binlogConn := conn } ∧
      ∀ c, conn = some c → c.serverID = sys.world.saved.serverID :=
  StreamChanges_world _ _ _ h.conn rfl (fun _ => rfl) (fun _ => rfl)

theorem Inv.attempt (h : Inv streams sys) (ha : SoundAttempt a sys)
    : Inv streams (streamChanges driver a sys) := by
  have hended := streamChanges_attempted driver a sys
  generalize streamChanges driver a sys = sys' at hended ⊢
  cases hended with
  | notCreated k done hc =>
    rcases runPostCDC_cases a.input done sys.world with heq | ⟨rfl, c, hconn, heq⟩
    · rw [heq]
      exact h
    · -- PostCDC saves what is saved already
      have hsame : (⟨c.serverID, c.currentPos⟩ : GlobalState) = sys.world.saved := by
        rw [h.conn c hconn, ha.creates k hc c hconn]
      rw [heq, hsame]
      exact h
  | notStreamed hc hr w hw =>
    obtain ⟨conn, rfl, hconn⟩ := unsaved_world h.streamed_world hw
    exact ⟨h.serverID, hconn, h.saved, h.tables⟩
  | notSaved hc hr w hw =>
    obtain ⟨conn, rfl, hconn⟩ := unsaved_world h.streamed_world hw
    obtain ⟨x, hx, hpush, _⟩ := StreamChanges_pushes h ha.waits hr
    obtain ⟨m, hm, hcons⟩ := h.tables
    exact ⟨h.serverID, hconn, h.saved, x, hx,
      hcons.closed (sourceRows_splits _) h.saved.start_le hpush⟩
  | saved hc hr hd hcancel hall =>
    obtain ⟨x, hx, hpush, hworld, _⟩ := StreamChanges_pushes h ha.waits hr
    obtain ⟨m, hm, hcons⟩ := h.tables
    rw [hworld, runPostCDC_some a.input rfl]
    refine ⟨h.serverID, fun c hc => ?_, hx, x, hx, fun s hs =>
      .inl (hcons.closed_all (sourceRows_splits _) h.saved.start_le hpush hall s hs)⟩
    rw [← Option.some.inj hc]

theorem Inv.source (h : Inv streams sys) (hw : Grows sys.world w) :
    Inv streams { sys with world := w } := by
  obtain ⟨b, hb, rfl⟩ := hw
  obtain ⟨m, hm, hcons⟩ := h.tables
  refine ⟨h.serverID, h.conn, h.saved.grows hb, m, hm.grows hb, fun s hs => ?_⟩
  rw [hb.1]
  rcases hcons s hs with hin | hahead
  · left
    exact ⟨by rw [sourceRows_grows hb h.saved]; exact hin.rows, hin.state⟩
  · right
    exact ⟨by rw [sourceRows_grows hb hm]; exact hahead.rows, hahead.state, hahead.lt⟩

theorem Inv.reaches (h : Inv streams sys)
    (hreach : Reaches driver streams Grows SoundAttempt sys sys') : Inv streams sys' :=
  hreach.keeps h (fun _ h ha => h.attempt ha)
    (fun h => ⟨h.serverID, nofun, h.saved, h.tables⟩) Inv.source

/-! ### Undisturbed attempts -/

/-- An attempt in which nothing fails, against a server that stands at the end of
an event and sends its whole log in time. -/
structure Undisturbed (a : Attempt streams) (sys : System S Row) : Prop where
  created : a.createFails = none
  alive : a.diesAfter = none
  live : a.cancelled = false
  committed : ∀ s ∈ streams, a.outcome s = .committed
  connected : a.input.connFails = false
  started : a.input.startSyncFails = false
  status : ∃ T, a.input.masterStatus = some T ∧ sys.world.binlog.Boundary T
  quiet : ∀ t ∈ a.input.ticks, t = quiet
  long : sys.world.binlog.events.length < a.input.ticks.length

theorem target_boundary (hinv : Inv streams sys) (h : Undisturbed a sys) :
    ∃ target, sys.world.binlog.Boundary target ∧
      latestBinlogPos (metadataOf a.input sys.world sys.states).1 a.input.masterStatus
        = some target := by
  obtain ⟨m, hm, hcons⟩ := hinv.tables
  obtain ⟨T, hT, hTb⟩ := h.status
  rcases metadataOf_cases hinv.saved hm hcons.aheadAt a.input
    with ⟨hnone, -⟩ | ⟨heq, -, hlatest, -⟩
  · exact ⟨T, hTb, by rw [hnone, hT]; rfl⟩
  · exact ⟨m, hm, by rw [heq, hlatest]⟩

theorem Undisturbed.exit_ok (hinv : Inv streams sys) (h : Undisturbed a sys)
    : (streamed driver a sys).exit = .ok := by
  obtain ⟨target, hb, htarget⟩ := target_boundary hinv h
  refine StreamChanges_of_pass hinv.serverID h.connected h.started htarget
    ((passTo_runs target hinv.saved).quiet h.quiet ?_ ?_ ?_)
  · exact lt_of_le_of_lt (List.length_filter_le _ _) h.long
  · exact fun e he => (sys.world.binlog.named e (Log.mem_after.1 he).1).2.2
  · rcases le_or_gt target sys.world.saved.position with hle | hlt
    · exact .inl hle
    · obtain ⟨e, he, hem⟩ := event_of_boundary hinv.saved hb hlt
      exact .inr ⟨e, he, le_of_eq hem.symm⟩

theorem Undisturbed.result (hinv : Inv streams sys) (h : Undisturbed a sys) :
    (∀ s ∈ streams, InStep (sourceRows sys.world.binlog s) sys.world.binlog.start
      (streamChanges driver a sys).world.saved.position
      ((streamChanges driver a sys).dest s)) ∧
    (¬ Recovers streams sys → ∀ T, a.input.masterStatus = some T →
      T ≤ (streamChanges driver a sys).world.saved.position) := by
  have hok := h.exit_ok hinv
  obtain ⟨x, _, hpush, hworld, hT⟩ := StreamChanges_pushes hinv (fun _ => waitRunsOut_quiet _ h.quiet) hok
  obtain ⟨m, _, hcons⟩ := hinv.tables
  rw [streamChanges_saved driver h.created hok h.alive h.live h.committed, hworld,
    runPostCDC_some a.input rfl]
  refine ⟨hcons.closed_all (sourceRows_splits _) hinv.saved.start_le hpush h.committed, ?_⟩
  intro hno T hstatus
  rcases hT hno T hstatus with hle | hrun
  · exact hle
  · rw [waitRunsOut_quiet _ h.quiet] at hrun
    exact absurd hrun (by decide)

theorem streamChanges_binlog (a : Attempt streams) (sys : System S Row) :
    (streamChanges driver a sys).world.binlog = sys.world.binlog := by
  refine streamChanges_world (P := fun w => w.binlog = sys.world.binlog) driver a sys rfl ?_
    (fun done w hw => ?_) (fun _ hw => hw)
  · obtain ⟨conn, hworld, _⟩ := StreamChanges_world (P := fun _ => True) a.input sys.world sys.states
      (fun _ _ => trivial) trivial (fun _ => trivial) (fun _ => trivial)
    exact (congrArg World.binlog hworld :)
  · rcases runPostCDC_cases a.input done w with heq | ⟨-, c, -, heq⟩
    · rw [heq, hw]
    · rw [heq, hw]

theorem reaches_start {Allowed : Attempt streams → System S Row → Prop}
    (h : Reaches driver streams Grows Allowed sys sys') :
    sys'.world.binlog.start = sys.world.binlog.start := by
  refine Reaches.keeps (I := fun t => t.world.binlog.start = sys.world.binlog.start) h rfl
    (fun a ih _ => ?_) (fun ih => ?_) (fun ih hw => ?_)
  · rw [streamChanges_binlog, ih]
  · exact ih
  · obtain ⟨b, hb, rfl⟩ := hw
    exact hb.1.trans ih

def twoRows : Binlog (Fin 2) Nat where
  start := ⟨1, 4⟩
  events := [⟨1, 100, .rows 0 [10]⟩, ⟨1, 200, .rows 1 [20]⟩]
  after_start := by decide
  increasing := by unfold Log.Increasing; decide
  chained := ⟨rfl, rfl, trivial⟩
  named := by decide

def twoRowsSync : System (Fin 2) Nat where
  world := { binlog := twoRows, saved := ⟨7, ⟨1, 4⟩⟩, binlogConn := none }
  dest := fun _ => { rows := [], state := none }

def inputWith (ticks : List Tick) : Input ([0, 1] : List (Fin 2)) where
  order := [0, 1]
  mem_order := fun _ => Iff.rfl
  connFails := false
  masterStatus := some ⟨1, 200⟩
  startSyncFails := false
  ticks := ticks

def attemptWith (ticks : List Tick) (diesAfter : Option Nat) : Attempt ([0, 1] : List (Fin 2)) where
  input := inputWith ticks
  diesAfter := diesAfter

theorem twoRowsSync_initial : Initial [0, 1] twoRowsSync where
  saved := rfl
  serverID := by decide
  conn := rfl
  rows := fun _ _ => rfl
  state := fun _ _ m hm => absurd hm (by simp [twoRowsSync])

def inTime : Attempt ([0, 1] : List (Fin 2)) :=
  attemptWith [quiet, quiet, quiet] none

end Olake.MySQL
