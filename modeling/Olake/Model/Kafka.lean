/-
The Kafka driver's change stream (drivers/kafka/internal/cdc.go and kafka.go, with
the reader manager of pkg/kafka/reader.go).

A sync runs several readers of one consumer group.  A reader remembers the last
message it processed of each partition in `checkpointMessage`, and its `PostCDC`
commits the offsets behind those messages to the broker.  The metadata of a table
holds the offsets behind the messages of its last commit, so that a sync that finds
the broker behind the destination can move the broker on without reading anything.
-/
import Olake.Model.StreamChanges

namespace Olake.Kafka

variable {S K R Row : Type}

/-! ### Metadata and state -/

/-- The metadata state of one stream: the consumer group, and for each partition
the next offset to consume. -/
structure Meta (K : Type) where
  consumerGroupID : String
  offsets : K → Option Nat

/-- How a metadata state is merged into the one in place: key by key. -/
def Meta.merge (current final : Meta K) : Meta K where
  consumerGroupID := final.consumerGroupID
  offsets := fun p => (final.offsets p).orElse (fun _ => current.offsets p)

/-- `PartitionMetaData`, taken once when the readers are created.  A missing
committed offset is -1 in the code. -/
structure PartitionMetaData (S : Type) where
  stream : S
  endOffset : Nat
  committedOffset : Option Nat

/-- The topics' partitions at the broker with the group's committed offsets, and
the driver's fields. -/
structure World (S K R : Type) where
  /-- The stream of a partition's topic. -/
  streamOf : K → S
  endOffset : K → Nat
  /-- The committed offset of the consumer group: the next one to consume. -/
  committed : K → Option Nat
  consumerGroupID : String
  partitionMeta : K → Option (PartitionMetaData S)
  /-- For each reader, the last message it processed of each partition. -/
  checkpointMessage : R → Option (List (K × Nat))

abbrev System (S K R Row : Type) := Olake.System (World S K R) S Row (Meta K)

/-- `CreateReaders`: the partitions of the selected streams that have messages to
consume. -/
def createReaders [DecidableEq S] (streams : List S) (w : World S K R) : World S K R :=
  { w with
    checkpointMessage := fun _ => none
    partitionMeta := fun p =>
      if w.streamOf p ∉ streams ∨ w.endOffset p = 0 then none
      else
        match w.committed p with
        | none => some ⟨w.streamOf p, w.endOffset p, none⟩
        | some c =>
          if w.endOffset p ≤ c then none
          else some ⟨w.streamOf p, w.endOffset p, some c⟩ }

/-! ### What the outside does -/

/-- One turn of the loop of `processKafkaMessages`. -/
inductive Tick (K Row : Type) where
  | ctxDone
  /-- A rebalance asks the reader to stop, gracefully or with an error. -/
  | exit (err : Bool)
  /-- No message within the poll timeout. -/
  | pollTimeout
  | fetchError
  /-- The next message of partition `p`, and the rows it is turned into. -/
  | record (p : K) (rows : List Row)
  /-- The next message of partition `p` cannot be processed. -/
  | rejected (p : K)

/-- What comes of a `CommitRecords`: on an error any of the partitions may have
been committed. -/
structure Commit (K : Type) where
  ok : Bool
  applied : K → Bool

structure Input (K R Row : Type) where
  reader : R
  /-- `getReaderAssignedPartitions`; `none` is an error. -/
  assigned : Option (List K)
  recoveryCommit : Commit K
  restartFails : Bool
  ticks : List (Tick K Row)
  postCommit : Commit K

/-- The committed offsets after `CommitRecords` of records with these next offsets. -/
def commitRecords [DecidableEq K] (committed : K → Option Nat) (c : Commit K)
    (records : List (K × Nat)) : K → Option Nat := fun p =>
  match records.lookup p with
  | none => committed p
  | some next => if c.ok || c.applied p then some next else committed p

/-! ### StreamChanges -/

/-- `syncCommittedOffsetsWithMetadata`: the records to commit so that the broker is
not behind the destination; `none` is an error. -/
def recordsToCommit (w : World S K R) (metadataStates : S → Option (Meta K)) :
    List K → Option (List (K × Nat))
  | [] => some []
  | p :: assigned =>
    match w.partitionMeta p with
    | none => none
    | some pm =>
      match metadataStates pm.stream with
      | none => recordsToCommit w metadataStates assigned
      | some m =>
        if m.consumerGroupID ≠ "" ∧ m.consumerGroupID ≠ w.consumerGroupID then none
        else
          match m.offsets p with
          | none => recordsToCommit w metadataStates assigned
          | some metaOffset =>
            if pm.endOffset < metaOffset then none
            else
              match pm.committedOffset with
              | none => (recordsToCommit w metadataStates assigned).map ((p, metaOffset) :: ·)
              | some c =>
                if metaOffset < c then none
                else if c < metaOffset then
                  (recordsToCommit w metadataStates assigned).map ((p, metaOffset) :: ·)
                else recordsToCommit w metadataStates assigned

/-- Setting an entry of a Go map, kept as a list without repeated keys. -/
def setLast [DecidableEq K] (p : K) (offset : Nat) : List (K × Nat) → List (K × Nat)
  | [] => [(p, offset)]
  | (q, o) :: rest => if q = p then (p, offset) :: rest else (q, o) :: setLast p offset rest

structure Progress (S K Row : Type) where
  /-- The client's next offset of each partition. -/
  position : K → Nat
  lastMessages : List (K × Nat)
  completed : List K
  pushed : List (S × Row)
  /-- Every message processed so far: what the batch of this attempt consists of. -/
  messages : List (K × Nat)

/-- The partitions of the reader that take part in the check for completion. -/
def observedPartitions (w : World S K R) (assigned : List K) : List K :=
  assigned.filter (fun p => (w.partitionMeta p).isSome)

/-- The callback of `StreamChanges` for one message: what it has done, and whether
processing should stop. -/
def processRecord [DecidableEq K] (w : World S K R) (assigned : List K)
    (pm : PartitionMetaData S) (p : K) (rows : List Row) (s : Progress S K Row) :
    Progress S K Row × Bool :=
  let offset := s.position p
  let completed :=
    if pm.endOffset ≤ offset + 1 ∧ p ∉ s.completed then p :: s.completed else s.completed
  ({ position := Function.update s.position p (offset + 1)
     lastMessages := setLast p offset s.lastMessages
     completed := completed
     pushed := s.pushed ++ rows.map (fun r => (pm.stream, r))
     messages := (p, offset) :: s.messages },
    decide (pm.endOffset ≤ offset + 1 ∧
      completed.length = (observedPartitions w assigned).length))

/-- `processKafkaMessages`.  The process dies where the ticks run out. -/
def processKafkaMessages [DecidableEq K] (w : World S K R) (assigned : List K) :
    List (Tick K Row) → Progress S K Row → Progress S K Row × Exit
  | [], s => (s, .killed)
  | .ctxDone :: _, s => (s, .cancelled)
  | .exit err :: _, s => (s, if err then .err else .ok)
  | .pollTimeout :: _, s => (s, .ok)
  | .fetchError :: _, s => (s, .err)
  | .rejected _ :: _, s => (s, .err)
  | .record p rows :: ticks, s =>
    match w.partitionMeta p with
    | none => (s, .err)
    | some pm =>
      let (s', stop) := processRecord w assigned pm p rows s
      if stop then (s', .ok) else processKafkaMessages w assigned ticks s'

/-- The recovery metadata of stream `s` behind the last messages. -/
def metadataOf [DecidableEq S] [DecidableEq K] (w : World S K R) (last : List (K × Nat)) (s : S) :
    Option (Meta K) :=
  if last.any (fun m => decide (w.streamOf m.1 = s)) then
    some
      { consumerGroupID := w.consumerGroupID
        offsets := fun p => if w.streamOf p = s then (last.lookup p).map (· + 1) else none }
  else none

/-- What a restarted reader makes of its messages: it consumes from the committed
offsets, or from the start of a partition without one. -/
def consume [DecidableEq K] (i : Input K R Row) (w : World S K R) (assigned : List K) :
    Progress S K Row × Exit :=
  processKafkaMessages w assigned i.ticks
    { position := fun p => (w.committed p).getD 0
      lastMessages := [], completed := [], pushed := [], messages := [] }

def StreamChanges [DecidableEq S] [DecidableEq K] [DecidableEq R] (i : Input K R Row)
    (w : World S K R) (metadataStates : S → Option (Meta K)) :
    Streamed (World S K R) S Row (Meta K) :=
  let failed : Streamed (World S K R) S Row (Meta K) :=
    { world := w, pushed := [], final := fun _ => none, exit := .err }
  match i.assigned with
  | none => failed
  | some assigned =>
    match recordsToCommit w metadataStates assigned with
    | none => failed
    | some [] =>
      if i.restartFails then failed
      else
        let (s, exit) := consume i w assigned
        -- the deferred store happens however the attempt ended
        { world := if s.lastMessages = [] then w else
            { w with checkpointMessage :=
                Function.update w.checkpointMessage i.reader (some s.lastMessages) }
          pushed := s.pushed
          final := if exit = .ok then metadataOf w s.lastMessages else fun _ => none
          exit := exit }
    | some records =>
      -- recovery performed: this reader reads nothing in this sync
      { world := { w with committed := commitRecords w.committed i.recoveryCommit records }
        pushed := [], final := fun _ => none
        exit := if i.recoveryCommit.ok then .ok else .err }

/-! ### PostCDC -/

def PostCDC [DecidableEq K] [DecidableEq R] (i : Input K R Row) (ctxDone : Bool)
    (w : World S K R) : World S K R × Exit :=
  if ctxDone then (w, .err)
  else
    match w.checkpointMessage i.reader with
    | none => (w, .ok)
    | some [] => (w, .ok)
    | some last =>
      let records := last.map (fun m => (m.1, m.2 + 1))
      let w' := { w with committed := commitRecords w.committed i.postCommit records }
      if i.postCommit.ok then
        ({ w' with checkpointMessage := Function.update w.checkpointMessage i.reader none }, .ok)
      else (w', .err)

/-- New messages at the broker. -/
def Grows (w w' : World S K R) : Prop :=
  ∃ e : K → Nat, (∀ p, w.endOffset p ≤ e p) ∧ w' = { w with endOffset := e }

def driver [DecidableEq S] [DecidableEq K] [DecidableEq R] (streams : List S) :
    DriverInterface S Row (Meta K) (World S K R) (Input K R Row) where
  StreamChanges := StreamChanges
  PostCDC := PostCDC
  newProcess := createReaders streams
  merge := Meta.merge

end Olake.Kafka
