/-
The MongoDB driver's CDC (drivers/mongodb/internal/cdc.go).

Each stream has its own resume token: the cursor in the state file, the token the driver
has last seen in `cdcCursor`, and the token of the last commit in the metadata of its
table.  Tokens are hex strings that sort as the server's events do, and begin with the
operation time.

A call of `StreamChanges` follows the change stream of one collection.  It stores every
token it sees, and ends at the first one whose operation time has reached that of the
cluster when the call began.
-/
import Mathlib.Data.String.Basic
import Olake.Lib.Log
import Olake.Model.StreamChanges

namespace Olake.MongoDB

/-! ### Resume tokens -/

structure Timestamp where
  t : Nat
  i : Nat

/-- `Timestamp.After`. -/
def Timestamp.after (a b : Timestamp) : Bool :=
  decide (b.t < a.t ∨ b.t = a.t ∧ b.i < a.i)

def hexDigit (c : Char) : Option Nat :=
  if '0' ≤ c ∧ c ≤ '9' then some (c.toNat - '0'.toNat)
  else if 'a' ≤ c ∧ c ≤ 'f' then some (c.toNat - 'a'.toNat + 10)
  else if 'A' ≤ c ∧ c ≤ 'F' then some (c.toNat - 'A'.toNat + 10)
  else none

/-- `hex.DecodeString`. -/
def hexBytes : List Char → Option (List Nat)
  | [] => some []
  | [_] => none
  | hi :: lo :: rest => do
      let h ← hexDigit hi
      let l ← hexDigit lo
      let bytes ← hexBytes rest
      return (16 * h + l) :: bytes

/-- `binary.BigEndian.Uint32`. -/
def bigEndian (bytes : List Nat) : Nat :=
  bytes.foldl (fun n b => 256 * n + b) 0

/-- `decodeResumeTokenOpTime`: the operation time behind the first byte. -/
def decodeResumeTokenOpTime (token : String) : Option Timestamp :=
  match hexBytes token.toList with
  | none => none
  | some bytes =>
    if bytes.length < 9 then none
    else some ⟨bigEndian ((bytes.drop 1).take 4), bigEndian ((bytes.drop 5).take 4)⟩

/-! ### The change streams -/

/-- An event of a change stream that the pipeline lets through. -/
structure ChangeEvent (Row : Type) where
  token : String
  row : Row

structure Oplog (S Row : Type) where
  events : S → List (ChangeEvent Row)
  increasing : ∀ s, Log.Increasing ChangeEvent.token (events s)

/-- More has been written. -/
def Oplog.Grows {S Row : Type} (o o' : Oplog S Row) : Prop :=
  ∀ s, ∃ new, o'.events s = o.events s ++ new

/-- The server, the state file and the driver's field `cdcCursor`.  `PreCDC` has given
every stream a cursor. -/
structure World (S Row : Type) where
  oplog : Oplog S Row
  cursor : S → String
  cdcCursor : S → Option String

/-! ### One pass over a change stream -/

/-- What comes of one `TryNext`. -/
inductive Fetch where
  /-- The next event arrives; `rejected` when it cannot be decoded or pushed. -/
  | event (rejected : Bool)
  | nothing
  /-- `cursor.Err` returns an error. -/
  | failed

/-- What one turn of the loop finds.  `token` is `GetResumeToken`: that of the event, or
the one the server sends with a batch. -/
structure Tick where
  fetch : Fetch
  token : Option String

/-- The loop's variables, with what the server has yet to send. -/
structure Reader (Row : Type) where
  queue : List (ChangeEvent Row)
  cdcCursor : Option String
  pushed : List Row

inductive Turn (Row : Type) where
  | goesOn (r : Reader Row)
  | caughtUp (r : Reader Row) (token : String)
  | failed (r : Reader Row)

variable {S Row : Type}

def handleStreamCatchup (lastOplogTime : Timestamp) (token : Option String) (r : Reader Row) :
    Turn Row :=
  match token with
  | none => .failed r
  | some token =>
    let r' := { r with cdcCursor := some token }
    match decodeResumeTokenOpTime token with
    | none => .failed r'
    | some streamOpTime =>
      if lastOplogTime.after streamOpTime then .goesOn r' else .caughtUp r' token

/-- `handleChangeDoc`; `none` when it returns an error. -/
def handleChangeDoc (rejected : Bool) (token : Option String) (e : ChangeEvent Row)
    (r : Reader Row) : Option (Reader Row) :=
  if rejected then none
  else token.map (fun token => { r with cdcCursor := some token, pushed := r.pushed ++ [e.row] })

/-- One turn of the loop of `StreamChanges`. -/
def turn (lastOplogTime : Timestamp) (t : Tick) (r : Reader Row) : Turn Row :=
  match t.fetch with
  | .failed => .failed r
  | .nothing => handleStreamCatchup lastOplogTime t.token r
  | .event rejected =>
    match r.queue with
    -- the server has nothing to send
    | [] => handleStreamCatchup lastOplogTime t.token r
    | e :: queue =>
      match handleChangeDoc rejected t.token e { r with queue := queue } with
      | none => .failed { r with queue := queue }
      | some r' => handleStreamCatchup lastOplogTime t.token r'

/-- What a pass leaves: the token is that of a pass that has caught up. -/
structure Pass (Row : Type) where
  reader : Reader Row
  final : Option String
  exit : Exit

/-- The loop of `StreamChanges`.  The process dies where the ticks run out. -/
def followStream (lastOplogTime : Timestamp) : List Tick → Reader Row → Pass Row
  | [], r => ⟨r, none, .killed⟩
  | t :: ticks, r =>
    match turn lastOplogTime t r with
    | .goesOn r' => followStream lastOplogTime ticks r'
    | .caughtUp r' token => ⟨r', some token, .ok⟩
    | .failed r' => ⟨r', none, .err⟩

/-! ### StreamChanges and PostCDC -/

structure Input (streams : List S) where
  /-- `m.streams[streamIndex]`. -/
  stream : S
  mem_streams : stream ∈ streams
  /-- `getClusterOpTime`; `none` is an error. -/
  lastOplogTime : Option Timestamp
  /-- `Watch` returns an error. -/
  watchFails : Bool
  ticks : List Tick

abbrev System (S Row : Type) := Olake.System (World S Row) S Row String

abbrev Attempt (streams : List S) := Olake.Attempt streams (Input streams)

/-- The reader at the start of a pass, which resumes after the cursor. -/
def World.reader (w : World S Row) (s : S) : Reader Row where
  queue := Log.after ChangeEvent.token (w.cursor s) (w.oplog.events s)
  cdcCursor := w.cdcCursor s
  pushed := []

variable [DecidableEq S]

/-- The part of `StreamChanges` behind the look at the metadata. -/
def streamForward {streams : List S} (i : Input streams) (w : World S Row) :
    Streamed (World S Row) S Row String :=
  let failed : Streamed (World S Row) S Row String :=
    { world := w, pushed := [], final := fun _ => none, exit := .err }
  match i.lastOplogTime with
  | none => failed
  | some lastOplogTime =>
    if i.watchFails then failed
    else
      let pass := followStream lastOplogTime i.ticks (w.reader i.stream)
      { world := { w with cdcCursor := Function.update w.cdcCursor i.stream pass.reader.cdcCursor }
        pushed := pass.reader.pushed.map (fun r => (i.stream, r))
        final := fun _ => pass.final
        exit := pass.exit }

def StreamChanges {streams : List S} (i : Input streams) (w : World S Row)
    (metadataStates : S → Option String) : Streamed (World S Row) S Row String :=
  match metadataStates i.stream with
  | none => streamForward i w
  | some mtState =>
    if w.cursor i.stream < mtState then
      -- metadata ahead of state: only the cursor is moved
      { world := { w with cdcCursor := Function.update w.cdcCursor i.stream (some mtState) }
        pushed := [], final := fun _ => some mtState, exit := .ok }
    else streamForward i w

def PostCDC {streams : List S} (i : Input streams) (ctxDone : Bool) (w : World S Row) :
    World S Row × Exit :=
  if ctxDone then (w, .err)
  else
    match w.cdcCursor i.stream with
    | none => (w, .ok)
    | some token => ({ w with cursor := Function.update w.cursor i.stream token }, .ok)

def Grows (w w' : World S Row) : Prop :=
  ∃ o, w.oplog.Grows o ∧ w' = { w with oplog := o }

def driver {streams : List S} : DriverInterface S Row String (World S Row) (Input streams) where
  StreamChanges := StreamChanges
  PostCDC := PostCDC
  newProcess w := { w with cdcCursor := fun _ => none }
  merge _ final := final

end Olake.MongoDB
