/-
The capture instances of the SQL Server driver (drivers/mssql/internal/cdc.go).

A table can have several capture instances, each with a change table that holds the
changes from the instance's start LSN on.  Instances come and go between syncs: the
driver itself disables those it has consumed and creates one after a schema change
(`manageCaptureInstances`), an administrator does the same by hand, and the cleanup
job moves the start of an instance on.  Every pass of `StreamChanges` reads from one
of the instances it finds.

Beside the system stands the list of the passes by which the cursor has moved, each
with the instance it read from and the changes it found there.
-/
import Olake.Model.MSSQL
import Mathlib.Data.List.Sort

namespace Olake.MSSQL

variable {S Row : Type}

/-- `captureInstance`, of a table that is given. -/
structure CaptureInstance where
  instanceName : String
  startLSN : Nat
deriving DecidableEq, Repr

/-! ### manageCaptureInstances -/

/-- What the outside does while the instances of one stream are managed. -/
structure ManageInput where
  /-- The stream's entry of `latestDDLMap`. -/
  latestDDL : Option Nat
  /-- Disabling an instance returns an error. -/
  disableFails : CaptureInstance → Bool
  /-- Enabling the new instance returns an error. -/
  createFails : Bool
  /-- The instance that the server creates, with the start LSN it gives it. -/
  created : CaptureInstance

/-- The loop that deletes fully consumed older instances: what is left, and whether
it ended without an error. -/
def deleteConsumed (fails : CaptureInstance → Bool) (activeIdx currentCursorLSN : Nat) :
    Nat → List CaptureInstance → List CaptureInstance × Bool
  | _, [] => ([], true)
  | idx, capture :: rest =>
    if idx ≠ activeIdx ∧ capture.startLSN ≤ currentCursorLSN then
      if fails capture then (capture :: rest, false)
      else deleteConsumed fails activeIdx currentCursorLSN (idx + 1) rest
    else
      let (kept, ok) := deleteConsumed fails activeIdx currentCursorLSN (idx + 1) rest
      (capture :: kept, ok)

/-- The body of `manageCaptureInstances` for one stream.  The instances are listed by
their start LSN. -/
def manageStream (i : ManageInput) (currentCursorLSN : Nat) (instances : List CaptureInstance) :
    List CaptureInstance × Bool :=
  match newestValidInstance (instances.map CaptureInstance.startLSN) currentCursorLSN with
  | none => (instances, false)
  | some (activeIdx, latestCapture) =>
    let (kept, ok) := deleteConsumed i.disableFails activeIdx currentCursorLSN 0 instances
    if ok = false then (kept, false)
    else if kept.length = 1 then
      match i.latestDDL with
      | none => (kept, true)
      | some ddlLSN =>
        if latestCapture < ddlLSN then
          if i.createFails then (kept, false)
          else (kept.orderedInsert (fun a b => a.startLSN ≤ b.startLSN) i.created, true)
        else (kept, true)
    else (kept, true)

/-- `manageCaptureInstances`, once the DDL history has been read. -/
def manageCaptureInstances [DecidableEq S] (i : S → ManageInput) (cursor : S → Nat) :
    List S → (S → List CaptureInstance) → (S → List CaptureInstance) × Bool
  | [], instances => (instances, true)
  | s :: streams, instances =>
    let (managed, ok) := manageStream (i s) (cursor s) (instances s)
    let instances' := Function.update instances s managed
    if ok then manageCaptureInstances i cursor streams instances' else (instances', false)

/-! ### Passes -/

/-- A pass of `StreamChanges` over one window of one capture instance. -/
structure Pass (Row : Type) where
  capture : CaptureInstance
  fromLSN : Nat
  toLSN : Nat
  /-- The changes that the query returned. -/
  changes : List (Change Row)

/-- The pass from the newest instance that starts at or before `lsnInState`. -/
def passTo (instances : List CaptureInstance) (changes : List (Change Row))
    (lsnInState targetLSN : Nat) : Option (Pass Row) :=
  (newestValidInstance (instances.map CaptureInstance.startLSN) lsnInState).bind fun newest =>
    instances[newest.1]?.map fun capture =>
      ⟨capture, lsnInState, targetLSN,
        changesInLSNRange changes capture.startLSN lsnInState targetLSN⟩

/-- The pass that an attempt has made over the instances of its stream, if it came to
fetch changes and its call returned nil. -/
def passOf [DecidableEq S] {streams : List S} (a : Attempt streams)
    (instances : List CaptureInstance) (sys : System S Row) : Option (Pass Row) :=
  let s := a.input.stream
  let lsnInState := sys.world.cursor s
  let r := StreamChanges a.input sys.world (fun s => (sys.dest s).state)
  if a.createFails.isSome ∨ (sys.dest s).state.any (fun mtState => decide (lsnInState < mtState)) ∨
      r.exit ≠ .ok then none
  else (r.final s).bind (passTo instances (sys.world.tables.changes s) lsnInState)

/-! ### Runs -/

/-- A sync with the capture instances of its tables. -/
structure Captured (S Row : Type) where
  sys : System S Row
  instances : S → List CaptureInstance
  /-- The last pass over each stream. -/
  lastPass : S → Option (Pass Row)
  /-- The passes by which the cursor of each stream has moved. -/
  passes : S → List (Pass Row)

/-- After an attempt.  When the cursor has moved, it has moved over the last pass:
the one of this attempt, or the one whose LSN was left in the metadata or in
`lsnMap`. -/
def Captured.after [DecidableEq S] {streams : List S} (L : Captured S Row)
    (a : Attempt streams) : Captured S Row :=
  let s := a.input.stream
  let sys' := streamChanges driver a L.sys
  let last := (passOf a (L.instances s) L.sys).orElse (fun _ => L.lastPass s)
  { sys := sys'
    instances := L.instances
    lastPass := Function.update L.lastPass s last
    passes := if sys'.world.cursor s = L.sys.world.cursor s then L.passes
      else Function.update L.passes s (L.passes s ++ last.toList) }

/-- One step of a sync while capture instances come and go. -/
inductive CaptureStep [DecidableEq S] (streams : List S) : Captured S Row → Captured S Row → Prop
  /-- An attempt that lists the instances there are, or fails to. -/
  | attempt {L : Captured S Row} (a : Attempt streams)
      (h : ∀ starts, a.input.captureInstances = some starts →
        starts = (L.instances a.input.stream).map CaptureInstance.startLSN) :
      CaptureStep streams L (L.after a)
  /-- `PreCDC` manages the instances. -/
  | manage {L : Captured S Row} (i : S → ManageInput) :
      CaptureStep streams L
        { L with instances :=
            (manageCaptureInstances i L.sys.world.cursor streams L.instances).1 }
  /-- Instances are created, dropped or cleaned up from outside. -/
  | outside {L : Captured S Row} (instances : S → List CaptureInstance) :
      CaptureStep streams L { L with instances := instances }
  | restart {L : Captured S Row} :
      CaptureStep streams L
        { L with sys := { L.sys with world := driver.newProcess L.sys.world } }
  | source {L : Captured S Row} {w : World S Row} (h : Grows L.sys.world w) :
      CaptureStep streams L { L with sys := { L.sys with world := w } }

def CaptureReaches [DecidableEq S] (streams : List S) : Captured S Row → Captured S Row → Prop :=
  Relation.ReflTransGen (CaptureStep streams)

end Olake.MSSQL
