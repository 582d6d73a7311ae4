/-
The metadata of a table that goes with every commit (types/metadata_state.go,
destination/parquet/parquet_2pc.go, and `updateJsonState` of the Iceberg writer).

A commit of a change or incremental writer carries a payload: the id of its thread, a
position as text, and the insert-dedup flag.  A commit of a backfill writer carries
only its thread id.  Parquet keeps the metadata in a Go structure, the Iceberg writer
in a JSON node of the table's properties; each has its own merge.

A position is a text; when it is the text of a JSON object it holds one position per
key, and the two merges read such a text and write one back.
-/
import Mathlib.Data.Finmap

namespace Olake.CommitMetadata

variable {ID Text Key Val : Type}

/-- A JSON object: the values of its keys. -/
abbrev JsonObject (Key Val : Type) := Finmap (fun _ : Key => Val)

/-- The two JSON libraries.  Both read the object at the beginning of a text, if there
is one, and what either writes is read back. -/
structure JsonText (Text Key Val : Type) where
  object : Text → Option (JsonObject Key Val)
  /-- `json.Marshal` of encoding/json. -/
  marshal : JsonObject Key Val → Text
  /-- `toString` of Jackson's `ObjectNode`. -/
  toText : JsonObject Key Val → Text
  object_marshal : ∀ o, object (marshal o) = some o
  object_toText : ∀ o, object (toText o) = some o

/-! ### The structure that parquet keeps -/

/-- Its defaults are the metadata of a fresh table. -/
structure MetadataState (ID Text : Type) where
  id : Option ID := none
  state : Option Text := none
  fullRefreshCommittedIDs : List ID := []
  dedupInserts : Option Bool := none

/-- `SetMetadataState`, for a position that is marshalled already. -/
def SetMetadataState (mtState : Text) (threadID : ID) : MetadataState ID Text :=
  { id := some threadID, state := some mtState }

def SetDedupInserts (ms : MetadataState ID Text) (dedupInserts : Option Bool) : MetadataState ID Text :=
  match dedupInserts with
  | some flag => { ms with dedupInserts := some flag }
  | none => ms

section Parquet

variable [DecidableEq Key] (J : JsonText Text Key Val)

def mergeState (current : Option Text) (next : Text) : Text :=
  match current.bind J.object, J.object next with
  | some currentState, some nextState => J.marshal (nextState ∪ currentState)
  | _, _ => next

def mergeStreamMetadataState (current next : MetadataState ID Text) : MetadataState ID Text where
  id := if next.id.isSome then next.id else current.id
  state :=
    match next.state with
    | some state => some (mergeState J current.state state)
    | none => current.state
  fullRefreshCommittedIDs := current.fullRefreshCommittedIDs
  dedupInserts := if next.dedupInserts.isSome then next.dedupInserts else current.dedupInserts

end Parquet

/-- What `commitBackfillMetadata` writes over the metadata in place. -/
def addCommittedID [DecidableEq ID] (state : MetadataState ID Text) (threadID : ID) :
    MetadataState ID Text :=
  { state with
    fullRefreshCommittedIDs :=
      if threadID ∈ state.fullRefreshCommittedIDs then state.fullRefreshCommittedIDs
      else state.fullRefreshCommittedIDs ++ [threadID]
    dedupInserts := some true }

/-! ### The JSON node that the Iceberg writer keeps -/

/-- The fields of `MetadataState` in JSON. -/
inductive Field where
  | id
  | state
  | fullRefreshCommittedIDs
  | dedupInserts
deriving DecidableEq, Repr

/-- The JSON nodes that stand in those fields. -/
inductive Node (Text : Type) where
  | text (value : Text)
  | bool (value : Bool)
  | array (elements : List Text)

abbrev ObjectNode (Text : Type) := Field → Option (Node Text)

/-- `json.Marshal` of a metadata state: what is empty is omitted. -/
def MetadataState.fields (m : MetadataState Text Text) : List (Field × Node Text) :=
  (m.id.map (fun id => (Field.id, Node.text id))).toList ++
  (m.state.map (fun state => (Field.state, Node.text state))).toList ++
  (if m.fullRefreshCommittedIDs = [] then []
    else [(Field.fullRefreshCommittedIDs, Node.array m.fullRefreshCommittedIDs)]) ++
  (m.dedupInserts.map (fun flag => (Field.dedupInserts, Node.bool flag))).toList

section Iceberg

variable [DecidableEq Key] (J : JsonText Text Key Val)

def parseJSONObject : Option (Node Text) → Option (JsonObject Key Val)
  | some (.text value) => J.object value
  | _ => none

variable (rootNode : ObjectNode Text)

/-- One turn of `mergePayloadIntoRoot`. -/
def mergeEntry (entry : Field × Node Text) : ObjectNode Text :=
  match parseJSONObject J (some entry.2), parseJSONObject J (rootNode entry.1) with
  | some incomingStateValue, some storedStateValue =>
    Function.update rootNode entry.1 (some (.text (J.toText (incomingStateValue ∪ storedStateValue))))
  | _, _ => Function.update rootNode entry.1 (some entry.2)

def mergePayloadIntoRoot (payload : List (Field × Node Text)) : ObjectNode Text :=
  payload.foldl (mergeEntry J) rootNode

/-- The array that a thread id is appended to: the one in place, or a new one. -/
def committedIds : List Text :=
  match rootNode .fullRefreshCommittedIDs with
  | some (.array elements) => elements
  | _ => []

/-- `updateJsonState`; without a payload the commit is a backfill's. -/
def updateJsonState (threadId : Text)
    (payload : Option (MetadataState Text Text)) : ObjectNode Text :=
  match payload with
  | some state =>
    mergePayloadIntoRoot J (Function.update rootNode .id (some (.text threadId))) state.fields
  | none =>
    let rootNode := Function.update rootNode .fullRefreshCommittedIDs
      (some (.array (committedIds rootNode ++ [threadId])))
    Function.update rootNode .dedupInserts (some (.bool true))

end Iceberg

/-! ### Commits -/

/-- What `closeWriter` of handleWriterCleanup hands to a writer.  A thread id is no
text of a JSON object. -/
structure Payload (J : JsonText Text Key Val) where
  threadID : Text
  state : Text
  dedupInserts : Option Bool
  threadID_plain : J.object threadID = none

def Payload.metadataState {J : JsonText Text Key Val} (p : Payload J) : MetadataState Text Text :=
  SetDedupInserts (SetMetadataState p.state p.threadID) p.dedupInserts

/-- A commit into a table, by the thread of a writer. -/
inductive Commit (J : JsonText Text Key Val) where
  | stream (writerThread : Text) (payload : Payload J)
  | backfill (threadID : Text)

section Commits

variable [DecidableEq Text] [DecidableEq Key] {J : JsonText Text Key Val}

/-- The metadata file of a parquet table after a commit. -/
def Commit.parquet (state : MetadataState Text Text) : Commit J → MetadataState Text Text
  | .stream _ payload => mergeStreamMetadataState J state payload.metadataState
  | .backfill threadID => addCommittedID state threadID

/-- The property of an Iceberg table after a commit. -/
def Commit.iceberg (rootNode : ObjectNode Text) : Commit J → ObjectNode Text
  | .stream writerThread payload => updateJsonState J rootNode writerThread payload.metadataState
  | .backfill threadID => updateJsonState J rootNode threadID none

end Commits

end Olake.CommitMetadata
