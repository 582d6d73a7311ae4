/-
The insert-dedup flag of a stream (types/metadata_state.go, drivers/abstract/cdc.go,
destination/parquet/parquet_2pc.go and updateJsonState of the Iceberg writer).

A backfill and the change stream behind it overlap: an insert that the change stream
reads may be of a row that the backfill has written.  While the flag is on, inserts are
emitted with the operation that replaces such a row; afterwards they are plain creates.
The flag stands in the metadata of the table.  A commit of the backfill turns it on, and
every commit of a change writer that carries a position turns it off.

`withDedup` is a driver of `streamChanges` with this around it: rows leave it with their
operation, and the metadata is the position together with the flag.
-/
import Olake.Model.Changes
import Olake.Model.StreamChanges

namespace Olake

variable {S Row Meta σ In P : Type}

/-- `MetadataState`, without what the backfill keeps in it. -/
structure MetadataState (Meta : Type) where
  state : Option Meta
  dedupInserts : Option Bool

def mergeStreamMetadataState (merge : Meta → Meta → Meta) (current next : MetadataState Meta) :
    MetadataState Meta where
  state := mergeState merge current.state next.state
  dedupInserts :=
    match next.dedupInserts with
    | some flag => some flag
    | none => current.dedupInserts

/-- `dedupInserts[stream.ID()]`: true unless the metadata says otherwise. -/
def dedupInsertsOf (writerMeta : Option (MetadataState Meta)) : Bool :=
  match writerMeta with
  | none => true
  | some metadata => metadata.dedupInserts.getD true

/-- A driver inside `streamChanges`, with the operation of each row and the flag.  The
flag is read once, when the writers are created, and `clearDedup` goes with the final
metadata state. -/
def withDedup (D : DriverInterface S Row Meta σ In) (kind : Row → ChangeKind)
    (cfg : S → StreamConfig) : DriverInterface S (Row × OpType) (MetadataState Meta) σ In where
  StreamChanges i w writerMetas :=
    let r := D.StreamChanges i w (fun s => (writerMetas s).bind MetadataState.state)
    { world := r.world
      pushed := r.pushed.map (fun change =>
        (change.1, (change.2, mapChangeKindToOperationType (kind change.2)
          (dedupInsertsOf (writerMetas change.1)) (cfg change.1))))
      final := fun s => (r.final s).map (fun state => ⟨some state, some false⟩)
      exit := r.exit }
  PostCDC := D.PostCDC
  newProcess := D.newProcess
  merge := mergeStreamMetadataState D.merge

/-- `commitBackfillMetadata`, as far as the flag goes. -/
def commitBackfillMetadata (writerMeta : Option (MetadataState Meta)) :
    Option (MetadataState Meta) :=
  some { state := writerMeta.bind MetadataState.state, dedupInserts := some true }

/-! ### Runs -/

/-- A sync with the source position at which the last backfill of each stream ended.  The
tables hold the rows of the change stream only. -/
structure Synced (σ S Row Meta P : Type) where
  sys : System σ S (Row × OpType) (MetadataState Meta)
  backfillEnd : S → P

/-- After a backfill of stream `s` that has committed rows and ended at position `p`. -/
def Synced.backfilled [DecidableEq S] (L : Synced σ S Row Meta P) (s : S) (p : P) :
    Synced σ S Row Meta P :=
  let table : Table (Row × OpType) (MetadataState Meta) :=
    { rows := (L.sys.dest s).rows, state := commitBackfillMetadata (L.sys.dest s).state }
  { sys := { world := L.sys.world, dest := Function.update L.sys.dest s table }
    backfillEnd := Function.update L.backfillEnd s p }

/-- One step of a sync.  `Allowed` says which attempts are looked at. -/
inductive SyncStep [DecidableEq S] (D : DriverInterface S Row Meta σ In) (kind : Row → ChangeKind)
    (cfg : S → StreamConfig) (streams : List S) (Grows : σ → σ → Prop)
    (Allowed : Attempt streams In → Synced σ S Row Meta P → Prop) :
    Synced σ S Row Meta P → Synced σ S Row Meta P → Prop
  | backfill {L : Synced σ S Row Meta P} (s : S) (p : P) :
      SyncStep D kind cfg streams Grows Allowed L (L.backfilled s p)
  | attempt {L : Synced σ S Row Meta P} (a : Attempt streams In) (h : Allowed a L) :
      SyncStep D kind cfg streams Grows Allowed L
        { L with sys := streamChanges (withDedup D kind cfg) a L.sys }
  | restart {L : Synced σ S Row Meta P} :
      SyncStep D kind cfg streams Grows Allowed L
        { L with sys := { L.sys with world := D.newProcess L.sys.world } }
  | source {L : Synced σ S Row Meta P} {w : σ} (h : Grows L.sys.world w) :
      SyncStep D kind cfg streams Grows Allowed L { L with sys := { L.sys with world := w } }

def SyncReaches [DecidableEq S] (D : DriverInterface S Row Meta σ In) (kind : Row → ChangeKind)
    (cfg : S → StreamConfig) (streams : List S) (Grows : σ → σ → Prop)
    (Allowed : Attempt streams In → Synced σ S Row Meta P → Prop) :
    Synced σ S Row Meta P → Synced σ S Row Meta P → Prop :=
  Relation.ReflTransGen (SyncStep D kind cfg streams Grows Allowed)

end Olake
