/-
The Postgres driver's CDC (drivers/postgres/internal/cdc.go) over a replication
slot of the pgoutput plugin (pkg/waljs/pgoutput.go and replicator.go).

Three positions are persisted, each on its own: the LSN of the state file, the
`confirmed_flush_lsn` of the slot, and the LSN that each destination table got with
its last commit.  The server sends what lies after the slot's position; the pass
goes on to a target, and then the tables commit, the slot is acknowledged and the
state file is written, in this order.

The server speaks in messages: a transaction is a begin, its changes and a commit,
and between any two messages it may send a keepalive with its own WAL end.  The
reader takes its position from whatever came last.
-/
import Olake.Lib.Log
import Olake.Model.SharedPosition
import Olake.Model.StreamChanges

namespace Olake.Postgres

variable {S Row : Type}

/-! ### The write-ahead log -/

/-- `pglogrepl.LSN`, a byte position of the log. -/
abbrev LSN := Nat

/-- A decoded message, as far as the reader looks at it. -/
inductive LogicalMsg (S Row : Type) where
  | begin
  /-- An insert, update or delete of one row of the table of stream `s`. -/
  | change (s : S) (row : Row)
  | commit
  /-- A relation message or any other. -/
  | other
deriving DecidableEq, Repr

/-- `pglogrepl.XLogData`: a message and the position it is sent with. -/
structure XLogData (S Row : Type) where
  walStart : LSN
  msg : LogicalMsg S Row
deriving DecidableEq, Repr

/-- A committed transaction.  The positions inside it are those at which it wrote,
so they may lie before the end of a transaction that was sent earlier. -/
structure Txn (S Row : Type) where
  beginLSN : LSN
  body : List (LSN × Option (S × Row))
  endLSN : LSN

def bodyMessage (b : LSN × Option (S × Row)) : XLogData S Row :=
  match b.2 with
  | some (s, row) => ⟨b.1, .change s row⟩
  | none => ⟨b.1, .other⟩

/-- The commit message carries the end of the transaction. -/
def Txn.commitMessage (t : Txn S Row) : XLogData S Row := ⟨t.endLSN, .commit⟩

/-- What the server sends for a transaction. -/
def Txn.messages (t : Txn S Row) : List (XLogData S Row) :=
  ⟨t.beginLSN, .begin⟩ :: (t.body.map bodyMessage ++ [t.commitMessage])

def Txn.changes (t : Txn S Row) : List (S × Row) :=
  t.body.filterMap Prod.snd

/-- The log after the position at which the first sync found it: the transactions
in commit order, and the position up to which the server has written. -/
structure Wal (S Row : Type) where
  start : LSN
  txns : List (Txn S Row)
  walEnd : LSN
  after_start : ∀ t ∈ txns, start < t.endLSN
  increasing : Log.Increasing Txn.endLSN txns
  start_le : start ≤ walEnd
  within : ∀ t ∈ txns, t.endLSN ≤ walEnd

/-- The log `b'` is `b` with more written behind its end. -/
def Wal.Grows (b b' : Wal S Row) : Prop :=
  b'.start = b.start ∧ b.walEnd ≤ b'.walEnd ∧
    ∃ new, b'.txns = b.txns ++ new ∧ ∀ t ∈ new, b.walEnd < t.endLSN

/-- What the server sends to a reader that starts at `p`. -/
def Wal.messagesAfter (b : Wal S Row) (p : LSN) : List (XLogData S Row) :=
  (Log.after Txn.endLSN p b.txns).flatMap Txn.messages

/-! ### The driver's state -/

/-- The replication connection. -/
inductive Conn where
  | live
  /-- The server has closed its end. -/
  | broken
  /-- `Cleanup` has closed it. -/
  | closed
deriving DecidableEq, Repr

/-- The part of `waljs.Socket` that outlives a pass. -/
structure Socket where
  clientXLogPos : LSN
  conn : Conn
deriving DecidableEq, Repr

/-- The server's log and the slot's `confirmed_flush_lsn`, the LSN of the state
file, and the driver's field `replicator`. -/
structure World (S Row : Type) where
  wal : Wal S Row
  slot : LSN
  saved : LSN
  replicator : Option Socket

/-! ### One pass over the log -/

/-- What comes of one `ReceiveMessage`. -/
inductive Receive where
  /-- The next message of the server; `rejected` when it cannot be parsed or its
  row cannot be converted or pushed. -/
  | data (rejected : Bool)
  /-- A keepalive; `replyFails` when it asks for a reply that cannot be sent. -/
  | keepalive (serverWALEnd : LSN) (replyFails : Bool)
  /-- A message of another type. -/
  | unhandled
  /-- An error that contains EOF. -/
  | eof
  /-- Any other error, among them that no message came in time. -/
  | failed
deriving DecidableEq, Repr

/-- What one turn of the loop finds. -/
structure Event where
  ctxDone : Bool
  /-- `initialWaitTime` is set and has run out. -/
  waited : Bool
  receive : Receive
deriving DecidableEq, Repr

/-- The loop's variables, with what the server has yet to send. -/
structure Reader (S Row : Type) where
  queue : List (XLogData S Row)
  messageReceived : Bool
  transactionCompleted : Bool
  clientXLogPos : LSN
  pushed : List (S × Row)

inductive Turn (S Row : Type) where
  | goesOn (r : Reader S Row)
  | returns (r : Reader S Row) (conn : Conn) (exit : Exit)

variable [DecidableEq S]

/-- `processPgoutputWAL`, with the streams of the change filter. -/
def processPgoutputWAL (filter : List S) (msg : LogicalMsg S Row) (r : Reader S Row) :
    Reader S Row :=
  match msg with
  | .begin => { r with transactionCompleted := false }
  | .change s row => { r with pushed := r.pushed ++ if s ∈ filter then [(s, row)] else [] }
  | .commit => { r with transactionCompleted := true }
  | .other => r

/-- A turn that has come to `ReceiveMessage`. -/
def receiveMessage (filter : List S) (receive : Receive) (r : Reader S Row) : Turn S Row :=
  match receive with
  | .failed => .returns r .live .err
  | .eof => .returns r .broken .ok
  | .unhandled => .goesOn r
  | .keepalive serverWALEnd replyFails =>
    let r' := { r with clientXLogPos := serverWALEnd }
    if replyFails then .returns r' .live .err else .goesOn r'
  | .data rejected =>
    match r.queue with
    -- the server has nothing to send, and ReceiveMessage blocks
    | [] => .goesOn r
    | xld :: queue =>
      let r' := { r with queue := queue, clientXLogPos := xld.walStart }
      if rejected then .returns r' .live .err
      else .goesOn { processPgoutputWAL filter xld.msg r' with messageReceived := true }

/-- One turn of the loop of pgoutput's `StreamChanges`. -/
def turn (filter : List S) (target : LSN) (e : Event) (r : Reader S Row) : Turn S Row :=
  if e.ctxDone then .returns r .live .cancelled
  else if !r.messageReceived && e.waited then .returns r .live .err
  else if r.transactionCompleted && decide (target ≤ r.clientXLogPos) then .returns r .live .ok
  else receiveMessage filter e.receive r

structure Pass (S Row : Type) where
  reader : Reader S Row
  conn : Conn
  exit : Exit

/-- `StreamChanges` of the pgoutput replicator.  The process dies where the events
run out. -/
def pgoutputStreamChanges (filter : List S) (target : LSN) :
    List Event → Reader S Row → Pass S Row
  | [], r => ⟨r, .live, .killed⟩
  | e :: events, r =>
    match turn filter target e r with
    | .goesOn r' => pgoutputStreamChanges filter target events r'
    | .returns r' conn exit => ⟨r', conn, exit⟩

/-! ### StreamChanges and PostCDC -/

/-- What comes of acknowledging the slot. -/
inductive AckOutcome where
  /-- The status update is sent, and the slot is looked up until it has moved. -/
  | confirmed
  /-- An error, or no confirmation in time; the server may have moved the slot. -/
  | failed (moved : Bool)
  /-- The process dies before the state file is written. -/
  | killed (moved : Bool)

structure Input (streams : List S) where
  /-- The order in which Go walks the map of metadata states. -/
  order : List S
  mem_order : ∀ s, s ∈ order ↔ s ∈ streams
  /-- The slot cannot be looked up or the replicator cannot be created. -/
  connFails : Bool
  /-- The `XLogPos` of `IdentifySystem`. -/
  xLogPos : LSN
  /-- `StartReplication` returns an error. -/
  startFails : Bool
  events : List Event
  ack : AckOutcome

abbrev System (S Row : Type) := Olake.System (World S Row) S Row LSN

abbrev Attempt (streams : List S) := Olake.Attempt streams (Input streams)

/-- `recoveryLSN`, nil unless a stream is finished. -/
def recoveryLSN (metadata : LSN × List S) : Option LSN :=
  if metadata.2 = [] then none else some metadata.1

/-- `validateGlobalState`: slot and state agree. -/
def validateGlobalState (state confirmedFlushLSN : LSN) : Bool :=
  state == confirmedFlushLSN

/-- The reader at the start of a pass, which begins at the slot. -/
def World.reader (w : World S Row) : Reader S Row where
  queue := w.wal.messagesAfter w.slot
  messageReceived := false
  transactionCompleted := true
  clientXLogPos := w.slot
  pushed := []

def StreamChanges {streams : List S} (i : Input streams) (w : World S Row)
    (metadataStates : S → Option LSN) : Streamed (World S Row) S Row LSN :=
  let failed (w : World S Row) : Streamed (World S Row) S Row LSN :=
    { world := w, pushed := [], final := fun _ => none, exit := .err }
  let metadata := readMetadata 0 w.saved metadataStates i.order
  let recovery := recoveryLSN metadata
  let remaining := remainingStreams streams metadata.2
  if i.connFails then failed w
  else
    let opened : World S Row := { w with replicator := some ⟨w.slot, .live⟩ }
    -- the check is left out when nothing remains, or the slot stands at the recovery LSN
    if remaining ≠ [] ∧ recovery ≠ some w.slot ∧ validateGlobalState w.saved w.slot = false then
      failed opened
    else if i.startFails then failed opened
    else
      let pass := pgoutputStreamChanges remaining (recovery.getD i.xLogPos) i.events w.reader
      if pass.exit = .err ∨ pass.exit = .killed then
        { world := { w with replicator := some ⟨pass.reader.clientXLogPos, pass.conn⟩ }
          pushed := pass.reader.pushed, final := fun _ => none, exit := pass.exit }
      else
        -- a recovery is pinned to its LSN, wherever the reader stands
        let finalLSN := recovery.getD pass.reader.clientXLogPos
        { world := { w with replicator := some ⟨finalLSN, pass.conn⟩ }
          pushed := pass.reader.pushed, final := fun _ => some finalLSN, exit := pass.exit }

/-- `AcknowledgeLSN`: the slot afterwards, and how the call ended.  The slot never
moves back, and over a connection the server has closed it does not move at all. -/
def AcknowledgeLSN (ack : AckOutcome) (socket : Socket) (slot : LSN) : LSN × Exit :=
  let moved (m : Bool) : LSN :=
    if m = true ∧ socket.conn = .live then max slot socket.clientXLogPos else slot
  if socket.conn = .closed then (slot, .err)
  else
    match ack with
    | .confirmed => (moved true, if moved true = socket.clientXLogPos then .ok else .err)
    | .failed m => (moved m, .err)
    | .killed m => (moved m, .killed)

/-- `PostCDC` of the Postgres driver.  The connection is closed in any case. -/
def PostCDC {streams : List S} (i : Input streams) (ctxDone : Bool) (w : World S Row) :
    World S Row × Exit :=
  match w.replicator with
  | none => (w, .ok)
  | some socket =>
    let cleaned : World S Row := { w with replicator := some { socket with conn := .closed } }
    if ctxDone then (cleaned, .err)
    else
      let (slot, exit) := AcknowledgeLSN i.ack socket w.slot
      if exit = .ok then ({ cleaned with slot := slot, saved := socket.clientXLogPos }, .ok)
      else ({ cleaned with slot := slot }, exit)

def Grows (w w' : World S Row) : Prop :=
  ∃ b, w.wal.Grows b ∧ w' = { w with wal := b }

def driver {streams : List S} : DriverInterface S Row LSN (World S Row) (Input streams) where
  StreamChanges := StreamChanges
  PostCDC := PostCDC
  newProcess w := { w with replicator := none }
  merge _ final := final

end Olake.Postgres
