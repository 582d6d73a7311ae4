/-
The MySQL driver's CDC (drivers/mysql/internal/cdc.go) and the binlog reader it
uses (pkg/binlog/binlog.go).

All streams of a sync share one binlog position.  The state file holds the
position of the last complete pass, `BinlogConn` the position of the last pass of
this process, and each destination table the position of the last commit that had
rows for it.  A table whose position is ahead of the state file tells that a pass
was cut off between the commits and the save: the next pass then leaves that
stream out and stops at that position.
-/
import Mathlib.Algebra.Group.Nat.Defs
import Mathlib.Data.Prod.Lex
import Olake.Lib.Log
import Olake.Model.SharedPosition
import Olake.Model.StreamChanges

namespace Olake.MySQL

/-! ### The binlog -/

/-- `mysql.Position`.  A binlog file is its sequence number; 0 is the empty name. -/
structure Position where
  name : Nat
  pos : Nat
deriving DecidableEq, Repr

/-- `Compare`: by file first, then by offset. -/
instance : LinearOrder Position :=
  LinearOrder.lift' (fun p => toLex (p.name, p.pos)) fun a b h => by
    cases a
    cases b
    simpa using h

/-- What an event does, as far as the reader looks at it. -/
inductive EventBody (S Row : Type) where
  /-- A RotateEvent: the log goes on in `nextLogName` at `position`. -/
  | rotate (nextLogName position : Nat)
  /-- A RowsEvent of the table of stream `s`. -/
  | rows (s : S) (rows : List Row)
  /-- Any other event. -/
  | other
deriving DecidableEq, Repr

/-- A binlog event: the file it stands in, and the `LogPos` of its header. -/
structure BinlogEvent (S Row : Type) where
  file : Nat
  logPos : Nat
  body : EventBody S Row
deriving DecidableEq, Repr

variable {S Row : Type}

/-- The position at which the event ends and the next one begins. -/
def BinlogEvent.endPos (e : BinlogEvent S Row) : Position :=
  match e.body with
  | .rotate nextLogName position => ⟨nextLogName, position⟩
  | _ => ⟨e.file, e.logPos⟩

/-- The row changes of an event, each with its stream. -/
def BinlogEvent.changes (e : BinlogEvent S Row) : List (S × Row) :=
  match e.body with
  | .rows s rows => rows.map (fun r => (s, r))
  | _ => []

/-- The largest offset a rotate event may carry. -/
def maxUint32 : Nat := 2 ^ 32 - 1

/-- Each event stands in the file in which the one before it ended. -/
def Chained : Position → List (BinlogEvent S Row) → Prop
  | _, [] => True
  | p, e :: rest => e.file = p.name ∧ Chained e.endPos rest

/-- The binlog after the position at which the first sync found it. -/
structure Binlog (S Row : Type) where
  start : Position
  events : List (BinlogEvent S Row)
  after_start : ∀ e ∈ events, start < e.endPos
  increasing : Log.Increasing BinlogEvent.endPos events
  chained : Chained start events
  /-- Files have names, and an event ends at a 32-bit offset that is not 0. -/
  named : ∀ e ∈ events, e.endPos.name ≠ 0 ∧ e.endPos.pos ≠ 0 ∧ e.endPos.pos ≤ maxUint32

/-- The log `b'` is `b` with more events. -/
def Binlog.Grows (b b' : Binlog S Row) : Prop :=
  b'.start = b.start ∧ ∃ new, b'.events = b.events ++ new

/-! ### The driver's state -/

/-- `MySQLGlobalState`, the global part of the state file. -/
structure GlobalState where
  serverID : Nat
  position : Position

/-- The part of `binlog.Connection` that outlives a pass. -/
structure Connection where
  serverID : Nat
  currentPos : Position

/-- The server's log, the state file, and the driver's field `BinlogConn`. -/
structure World (S Row : Type) where
  binlog : Binlog S Row
  saved : GlobalState
  binlogConn : Option Connection

/-! ### One pass over the binlog -/

/-- What comes of one `GetEvent`. -/
inductive Fetch where
  /-- The next event arrives. -/
  | event
  /-- The next event arrives and its rows cannot be converted or pushed. -/
  | rejected
  /-- No event in time; the loop goes on. -/
  | deadline
  | failed
deriving DecidableEq, Repr

/-- What one turn of the loop of `StreamMessages` finds. -/
structure Tick where
  ctxDone : Bool
  /-- `initialWaitTime` is set and has run out. -/
  waited : Bool
  fetch : Fetch
deriving DecidableEq, Repr

/-- What a pass leaves: the connection's position, the changes handed to the
callback, and how it ended. -/
structure Pass (S Row : Type) where
  currentPos : Position
  pushed : List (S × Row)
  exit : Exit

/-- The loop of `StreamMessages`, reading `events` up to `target` for the streams
of the change filter.  The process dies where the ticks run out. -/
def streamMessages [DecidableEq S] (filter : List S) (target : Position) :
    List Tick → List (BinlogEvent S Row) → Bool → Position → List (S × Row) → Pass S Row
  | [], _, _, cur, pushed => ⟨cur, pushed, .killed⟩
  | t :: ticks, events, messageReceived, cur, pushed =>
    if t.ctxDone then ⟨cur, pushed, .cancelled⟩
    else if !messageReceived && t.waited then ⟨cur, pushed, .ok⟩
    else if target ≤ cur then ⟨cur, pushed, .ok⟩
    else if t.fetch = .failed then ⟨cur, pushed, .err⟩
    else if t.fetch = .deadline then
      streamMessages filter target ticks events messageReceived cur pushed
    else
      match events with
      -- at the end of the log GetEvent blocks
      | [] => streamMessages filter target ticks [] messageReceived cur pushed
      | e :: events =>
        match e.body with
        | .rotate nextLogName position =>
          if maxUint32 < position then ⟨⟨nextLogName, e.logPos⟩, pushed, .err⟩
          else streamMessages filter target ticks events messageReceived
            ⟨nextLogName, position⟩ pushed
        | .rows s rows =>
          if t.fetch = .rejected then ⟨⟨cur.name, e.logPos⟩, pushed, .err⟩
          else streamMessages filter target ticks events true ⟨cur.name, e.logPos⟩
            (pushed ++ if s ∈ filter then rows.map (fun r => (s, r)) else [])
        | .other =>
          streamMessages filter target ticks events messageReceived ⟨cur.name, e.logPos⟩ pushed

/-! ### StreamChanges and PostCDC -/

/-- Where a pass stops: at the recovery position, or where the server stands now. -/
def latestBinlogPos (recoveryPos : Position) (masterStatus : Option Position) : Option Position :=
  if recoveryPos.name = 0 ∨ recoveryPos.pos = 0 then masterStatus else some recoveryPos

structure Input (streams : List S) where
  /-- The order in which Go walks the map of metadata states. -/
  order : List S
  mem_order : ∀ s, s ∈ order ↔ s ∈ streams
  /-- `prepareBinlogConn` returns an error. -/
  connFails : Bool
  /-- `GetCurrentBinlogPosition`; `none` is an error. -/
  masterStatus : Option Position
  /-- `StartSync` returns an error. -/
  startSyncFails : Bool
  ticks : List Tick

abbrev System (S Row : Type) := Olake.System (World S Row) S Row Position

abbrev Attempt (streams : List S) := Olake.Attempt streams (Input streams)

def StreamChanges [DecidableEq S] {streams : List S} (i : Input streams) (w : World S Row)
    (metadataStates : S → Option Position) : Streamed (World S Row) S Row Position :=
  let failed (w : World S Row) : Streamed (World S Row) S Row Position :=
    { world := w, pushed := [], final := fun _ => none, exit := .err }
  if w.saved.serverID = 0 then failed w
  else
    let (recoveryPos, finishedStreams) :=
      readMetadata ⟨0, 0⟩ w.saved.position metadataStates i.order
    if i.connFails then failed w
    else
      let conn : Connection := ⟨w.saved.serverID, w.saved.position⟩
      match latestBinlogPos recoveryPos i.masterStatus with
      | none => failed { w with binlogConn := some conn }
      | some target =>
        if i.startSyncFails then failed { w with binlogConn := some conn }
        else
          let pass := streamMessages (remainingStreams streams finishedStreams) target i.ticks
            (Log.after BinlogEvent.endPos conn.currentPos w.binlog.events) false
            conn.currentPos []
          if pass.exit = .err ∨ pass.exit = .killed then
            { world := { w with binlogConn := some { conn with currentPos := pass.currentPos } }
              pushed := pass.pushed, final := fun _ => none, exit := pass.exit }
          else
            let currentPos := if recoveryPos.name ≠ 0 then recoveryPos else pass.currentPos
            { world := { w with binlogConn := some { conn with currentPos := currentPos } }
              pushed := pass.pushed, final := fun _ => some currentPos, exit := pass.exit }

def PostCDC (ctxDone : Bool) (w : World S Row) : World S Row × Exit :=
  match w.binlogConn with
  | none => (w, .ok)
  | some conn =>
    if ctxDone then (w, .err)
    else ({ w with saved := ⟨conn.serverID, conn.currentPos⟩ }, .ok)

def Grows (w w' : World S Row) : Prop :=
  ∃ b, w.binlog.Grows b ∧ w' = { w with binlog := b }

def driver [DecidableEq S] {streams : List S} :
    DriverInterface S Row Position (World S Row) (Input streams) where
  StreamChanges := StreamChanges
  PostCDC _ := PostCDC
  newProcess w := { w with binlogConn := none }
  merge _ final := final

end Olake.MySQL
