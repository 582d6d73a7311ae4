/-
One attempt of `streamChanges` (drivers/abstract/cdc.go), the way every driver is
run.

An attempt opens a writer per stream, lets the driver stream changes into the
writers, closes the writers, and calls the driver's `PostCDC`.  The order of the
last two, and whether they happen at all, is fixed by three `defer`s: the cancel
of the attempt's context and the call of `PostCDC` are registered first, and the
cleanup that closes the writers only after every writer has been created.  So a
failure while the writers are created runs `PostCDC` on a context that nobody has
cancelled.

What the outside decides (which call fails, in which order Go walks the map of
writers, after how many closed writers the process dies) is the `Attempt`; the
functions below compute what the code does with it.
-/
import Mathlib.Data.List.Basic
import Mathlib.Logic.Relation

namespace Olake

variable {S Row Meta σ In : Type}

/-! ### The destination

One table per stream: the rows that are committed, and the `State` of the
`olake_2pc` metadata that is committed in the same transaction. -/

structure Table (Row Meta : Type) where
  rows : List Row
  state : Option Meta

/-- What comes of `WriterThread.Close` on a live context.  The last flush, the
commit, and the release of the session after the commit can each fail. -/
inductive CloseOutcome where
  /-- The rows are committed and `Close` returns nil. -/
  | committed
  /-- The rows are committed, but `Close` returns an error. -/
  | committedErr
  /-- Nothing is committed and `Close` returns an error. -/
  | failed
deriving DecidableEq, Repr

def CloseOutcome.durable : CloseOutcome → Bool
  | .committed => true
  | .committedErr => true
  | .failed => false

/-- The metadata state after a commit that carries `final` (nil: none). -/
def mergeState (merge : Meta → Meta → Meta) (current final : Option Meta) : Option Meta :=
  match current, final with
  | some c, some f => some (merge c f)
  | none, some f => some f
  | c, none => c

/-- A commit of a writer's rows.  A writer that received no row has no file to
commit, and then the metadata stays as it is too. -/
def Table.commit (merge : Meta → Meta → Meta) (t : Table Row Meta) (rows : List Row)
    (final : Option Meta) : Table Row Meta :=
  if rows = [] then t
  else { rows := t.rows ++ rows, state := mergeState merge t.state final }

/-- The rows that were pushed to the writer of `s`. -/
def rowsFor [DecidableEq S] (s : S) (pushed : List (S × Row)) : List Row :=
  pushed.filterMap (fun c => if c.1 = s then some c.2 else none)

/-! ### The driver -/

inductive Exit where
  /-- It returned a nil error. -/
  | ok
  /-- It returned an error. -/
  | err
  /-- It returned because its context is done. -/
  | cancelled
  /-- It never returned: the process died inside it. -/
  | killed
deriving DecidableEq, Repr

structure Streamed (σ S Row Meta : Type) where
  world : σ
  pushed : List (S × Row)
  /-- The final metadata state each writer is closed with. -/
  final : S → Option Meta
  exit : Exit

/-- The part of a driver that `streamChanges` calls.  `σ` is the source, the
state file and the driver's own fields; `In` is what the outside does to the
driver during one attempt. -/
structure DriverInterface (S Row Meta σ In : Type) where
  StreamChanges : In → σ → (S → Option Meta) → Streamed σ S Row Meta
  /-- `PostCDC`, given whether its context is done. -/
  PostCDC : In → Bool → σ → σ × Exit
  /-- What a new process starts from: the fields of the old one are gone. -/
  newProcess : σ → σ
  /-- How a committed metadata state is merged into the one in place. -/
  merge : Meta → Meta → Meta

/-! ### One attempt -/

/-- What the outside does to one attempt over the given streams. -/
structure Attempt (streams : List S) (In : Type) where
  /-- `some (k, done)`: the writer of the `k`-th stream cannot be created, and
  `done` tells whether the context was done by then. -/
  createFails : Option (Fin streams.length × Bool) := none
  input : In
  /-- The order in which Go walks the map of writers. -/
  order : List S := streams
  order_nodup : order.Nodup := by decide
  mem_order : ∀ s, s ∈ order ↔ s ∈ streams := by exact fun _ => Iff.rfl
  outcome : S → CloseOutcome := fun _ => .committed
  /-- `some k`: the process dies after `k` writers have been closed. -/
  diesAfter : Option Nat := none
  /-- The context is cancelled from outside before `PostCDC` looks at it. -/
  cancelled : Bool := false

/-- The source, the state file and the driver's fields, with the destination. -/
structure System (σ S Row Meta : Type) where
  world : σ
  dest : S → Table Row Meta

/-- `closeWriter` of handleWriterCleanup: the table after `WriterThread.Close`, and
whether it returned an error.  On a done context nothing is committed. -/
def closeWriter (merge : Meta → Meta → Meta) (ctxDone : Bool) (rows : List Row)
    (final : Option Meta) (o : CloseOutcome) (t : Table Row Meta) : Table Row Meta × Bool :=
  if ctxDone then (t, true)
  else (if o.durable then t.commit merge rows final else t, o != .committed)

/-- The loop of handleWriterCleanup over the map of writers.  An error of one
close is joined into the result; the loop goes on with the other writers. -/
def closeWriters [DecidableEq S] (merge : Meta → Meta → Meta) (ctxDone : Bool)
    (r : Streamed σ S Row Meta) (outcome : S → CloseOutcome) :
    List S → (S → Table Row Meta) → (S → Table Row Meta) × Bool
  | [], dest => (dest, false)
  | s :: rest, dest =>
    let (t, err) := closeWriter merge ctxDone (rowsFor s r.pushed) (r.final s) (outcome s) (dest s)
    let (dest', err') := closeWriters merge ctxDone r outcome rest (Function.update dest s t)
    (dest', err || err')

variable (D : DriverInterface S Row Meta σ In)

/-- The deferred call of `PostCDC`; a process that dies in it leaves what a new
one starts from. -/
def runPostCDC (input : In) (ctxDone : Bool) (w : σ) : σ :=
  let (w', exit) := D.PostCDC input ctxDone w
  if exit = .killed then D.newProcess w' else w'

/-- The deferred part of an attempt whose writers are all open: handleWriterCleanup,
which cancels the context when `StreamChanges` failed or a close did, and then
`PostCDC`. -/
def runDeferred [DecidableEq S] {streams : List S}
    (a : Attempt streams In) (dest : S → Table Row Meta) (r : Streamed σ S Row Meta) :
    System σ S Row Meta :=
  let ctxDone := r.exit != .ok
  match r.exit, a.diesAfter with
  | .killed, _ => { world := D.newProcess r.world, dest := dest }
  | _, some k =>
    { world := D.newProcess r.world
      dest := (closeWriters D.merge ctxDone r a.outcome (a.order.take k) dest).1 }
  | _, none =>
    let (dest', closeErr) := closeWriters D.merge ctxDone r a.outcome a.order dest
    { world := runPostCDC D a.input (ctxDone || closeErr || a.cancelled) r.world
      dest := dest' }

/-- One attempt of `streamChanges`. -/
def streamChanges [DecidableEq S] {streams : List S}
    (a : Attempt streams In) (sys : System σ S Row Meta) : System σ S Row Meta :=
  match a.createFails with
  | some (_, done) =>
    -- handleWriterCleanup is not registered yet: the writers created so far stay
    -- open, nothing cancels the context, and PostCDC runs
    { sys with world := runPostCDC D a.input done sys.world }
  | none =>
    runDeferred D a sys.dest
      (D.StreamChanges a.input sys.world (fun s => (sys.dest s).state))

/-! ### A sync over time -/

/-- One step of a sync: an attempt (the first of a process or a retry), the end of
the process and the start of the next, or new changes at the source.  `Allowed`
says which attempts are looked at. -/
inductive Step [DecidableEq S] (D : DriverInterface S Row Meta σ In) (streams : List S)
    (Grows : σ → σ → Prop) (Allowed : Attempt streams In → System σ S Row Meta → Prop) :
    System σ S Row Meta → System σ S Row Meta → Prop
  | attempt {sys : System σ S Row Meta} (a : Attempt streams In) (h : Allowed a sys) :
      Step D streams Grows Allowed sys (streamChanges D a sys)
  | restart {sys : System σ S Row Meta} :
      Step D streams Grows Allowed sys { sys with world := D.newProcess sys.world }
  | source {sys : System σ S Row Meta} {w : σ} (h : Grows sys.world w) :
      Step D streams Grows Allowed sys { sys with world := w }

def Reaches [DecidableEq S] (streams : List S)
    (Grows : σ → σ → Prop) (Allowed : Attempt streams In → System σ S Row Meta → Prop) :
    System σ S Row Meta → System σ S Row Meta → Prop :=
  Relation.ReflTransGen (Step D streams Grows Allowed)

end Olake
