/-
The two-phase commit of the parquet destination on S3
(destination/parquet/parquet_2pc.go, with `Setup` and `Close` of parquet.go).

A writer stages its files under `_olake_2pc/` of the table, writes `finish.json`,
copies the staged files to their final keys, records the commit in the table's
`metadata.json`, and removes what is staged.  Backfill writers stage under a
directory per thread; CDC and incremental writers share the staging root.  Every
`Setup` and every `Close` first resolves what an earlier writer left.

S3 calls are the programs of `Faulty`: each may fail or crash, with or without
effect, and is tried again while S3 turns it away.
-/
import Olake.Lib.Faulty
import Olake.Lib.Path
import Olake.Model.CommitMetadata

namespace Olake.Parquet

open CommitMetadata (JsonObject JsonText)
open Faulty (Prog)
open Faulty.Prog

abbrev Key := List Char
abbrev ThreadID := List Char

def parquet2PCDir : Key := "_olake_2pc".toList
def parquet2PCFinishFile : Key := "finish.json".toList
def parquet2PCMetadataFile : Key := "metadata.json".toList

/-! ### Metadata -/

/-- The `State` of a metadata state: a string that holds a JSON object, by its
fields, or anything else. -/
inductive State where
  | object (fields : JsonObject String String)
  | other (raw : String)

/-- Reading and writing such a string; two strings of one object are not told apart. -/
def State.jsonText : JsonText State String String where
  object
    | .object fields => some fields
    | .other _ => none
  marshal := .object
  toText := .object
  object_marshal := fun _ => rfl
  object_toText := fun _ => rfl

abbrev MetadataState := CommitMetadata.MetadataState ThreadID State

abbrev mergeStreamMetadataState (current next : MetadataState) : MetadataState :=
  CommitMetadata.mergeStreamMetadataState State.jsonText current next

abbrev addCommittedID (current : MetadataState) (threadID : ThreadID) : MetadataState :=
  CommitMetadata.addCommittedID current threadID

/-! ### Writers and what they put -/

inductive Writer where
  | backfill (threadID : ThreadID)
  | stream
deriving DecidableEq

/-- `p.options.Backfill` -/
def Writer.isBackfill : Writer → Bool
  | .backfill _ => true
  | .stream => false

/-- The path of a data file below the table: a directory, which depends on the
partition values, and a generated name. -/
structure DataPath where
  path : Key
  named : ".parquet".toList <:+ Path.base path
  relative : path.head? ≠ some '/'
deriving DecidableEq

/-- One commit attempt: a writer with the files it has written so far. -/
structure Attempt where
  id : Nat
  writer : Writer
  files : List DataPath
  /-- The final metadata state `Close` is called with; `none` is an empty one. -/
  finalMetadataState : Option MetadataState
  /-- The context of `Close` is done. -/
  ctxDone : Bool

/-- The content of a `finish.json`. -/
inductive FinishState where
  | backfill (threadID : ThreadID)
  | stream (state : Option MetadataState)

inductive Object where
  /-- The data file that `writer` stages for `path`. -/
  | data (writer : Writer) (path : DataPath)
  | finish (state : FinishState)
  | metadata (state : MetadataState)

abbrev Bucket := AList (fun _ : Key => Object)

/-- The bucket, with two histories the code does not keep: every deletion with the
bucket it took place in, and the attempts whose `finish.json` is durable. -/
structure World where
  bucket : Bucket
  deletions : List (Bucket × Key)
  finished : List Attempt

def World.at (w : World) (key : Key) : Option Object := w.bucket.lookup key

/-! ### S3 calls -/

def retries : Nat := 3

def keysUnder (bucket : Bucket) (dir : Key) : List Key :=
  (bucket.keys.filter (fun key => dir.isPrefixOf key)).insertionSort (· ≤ ·)

def listS3Keys (dir : Key) : Prog World (List Key) :=
  call retries (fun w => (keysUnder w.bucket dir, w))

/-- `none` is the error that there is no such key. -/
def getObject (key : Key) : Prog World (Option Object) :=
  call retries (fun w => (w.at key, w))

def writeS3Object (key : Key) (o : Object) : Prog World Unit :=
  call retries (fun w => ((), { w with bucket := w.bucket.insert key o }))

def deleteS3Object (key : Key) : Prog World Unit :=
  call retries (fun w =>
    ((), { w with bucket := w.bucket.erase key, deletions := (w.bucket, key) :: w.deletions }))

def copyS3Object (sourceKey destinationKey : Key) : Prog World Unit :=
  andThen
    (call retries (fun w =>
      match w.at sourceKey with
      | none => (false, w)
      | some o => (true, { w with bucket := w.bucket.insert destinationKey o })))
    (fun found => if found then ret () else fail)

/-! ### Keys -/

/-- Where a table lies, and the hex digest of thread IDs. -/
structure Config where
  /-- `p.s3ObjectKey(p.basePath)` -/
  tablePath : Key
  tablePath_normal : ∀ s ∈ Path.segments tablePath, Path.Normal s
  hashThreadID : ThreadID → Key
  hash_ne_nil : ∀ t, hashThreadID t ≠ []
  hash_hex : ∀ t, ∀ c ∈ hashThreadID t, c ∈ "0123456789abcdef".toList

variable (p : Config)

def stagingRootPrefix : Key := p.tablePath ++ '/' :: parquet2PCDir ++ ['/']

def backfillStagingPrefix (threadID : ThreadID) : Key :=
  stagingRootPrefix p ++ p.hashThreadID threadID ++ ['/']

def currentStagingPrefix : Writer → Key
  | .backfill threadID => backfillStagingPrefix p threadID
  | .stream => stagingRootPrefix p

def stagingObjectKey (writer : Writer) (path : DataPath) : Key :=
  currentStagingPrefix p writer ++ path.path.dropWhile (· == '/')

def finishObjectKey (writer : Writer) : Key := currentStagingPrefix p writer ++ parquet2PCFinishFile

def sharedFinishObjectKey : Key := stagingRootPrefix p ++ parquet2PCFinishFile

def metadataObjectKey : Key := p.tablePath ++ '/' :: parquet2PCMetadataFile

/-- `p.s3ObjectKey(path.Join(p.basePath, relativePath))` -/
def finalKey (relativePath : Key) : Key := Path.join p.tablePath relativePath

/-! ### Metadata at the destination -/

def readMetadata : Prog World (Option MetadataState) :=
  andThen (getObject (metadataObjectKey p)) (fun o =>
    match o with
    | none => ret none
    | some (.metadata state) => ret (some state)
    | some _ => fail)

def writeMetadata (state : MetadataState) : Prog World Unit :=
  writeS3Object (metadataObjectKey p) (.metadata state)

def commitBackfillMetadata (threadID : ThreadID) : Prog World Unit :=
  andThen (readMetadata p) (fun state => writeMetadata p (addCommittedID (state.getD {}) threadID))

def commitStreamMetadata (finishedState : MetadataState) : Prog World Unit :=
  andThen (readMetadata p) (fun state =>
    writeMetadata p (mergeStreamMetadataState (state.getD {}) finishedState))

/-! ### Staging -/

def promoteS3Staging (dir : Key) : Prog World Unit :=
  andThen (listS3Keys dir) (fun keys =>
    forEach (fun key =>
      let relativePath := key.drop dir.length
      if relativePath = [] ∨ relativePath = parquet2PCFinishFile then ret ()
      else andThen (copyS3Object key (finalKey p relativePath)) (fun _ => deleteS3Object key)) keys)

def deleteStagingPrefix (dir : Key) : Prog World Unit :=
  andThen (listS3Keys dir) (fun keys =>
    if keys = [] then ret ()
    else
      let finishKey := dir ++ parquet2PCFinishFile
      andThen (concurrent deleteS3Object (keys.filter (· ≠ finishKey))) (fun _ =>
        if finishKey ∈ keys then deleteS3Object finishKey else ret ()))

def finalizeBackfillStaging (dir : Key) (threadID : ThreadID) : Prog World Unit :=
  andThen (promoteS3Staging p dir) (fun _ =>
    andThen (commitBackfillMetadata p threadID) (fun _ => deleteStagingPrefix dir))

def finalizeStreamStaging (dir : Key) (state : MetadataState) : Prog World Unit :=
  andThen (promoteS3Staging p dir) (fun _ =>
    andThen (commitStreamMetadata p state) (fun _ => deleteStagingPrefix dir))

/-! ### Recovery -/

/-- A directory below the staging root. -/
structure StagingEntry where
  dir : Key
  finished : Bool

/-- `strings.SplitN(relativePath, "/", 2)`: the thread directory and the staged
path; `none` when there is only one part. -/
def splitThread (relativePath : Key) : Option (Key × Key) :=
  match relativePath.dropWhile (· != '/') with
  | [] => none
  | _ :: stagedPath => some (relativePath.takeWhile (· != '/'), stagedPath)

/-- One key of the listing; the last entry is at the head. -/
def addKey (rootPrefix : Key) (entries : List StagingEntry) (key : Key) : List StagingEntry :=
  match splitThread (key.drop rootPrefix.length) with
  | none => entries
  | some (threadHash, stagedPath) =>
    let entryDir := rootPrefix ++ threadHash ++ ['/']
    let finished := decide (stagedPath = parquet2PCFinishFile)
    match entries with
    | [] => [⟨entryDir, finished⟩]
    | last :: rest =>
      if last.dir ≠ entryDir then ⟨entryDir, finished⟩ :: last :: rest
      else ⟨last.dir, last.finished || finished⟩ :: rest

def stagingEntries (rootPrefix : Key) (keys : List Key) : List StagingEntry :=
  (keys.foldl (addKey rootPrefix) []).reverse

def listBackfillStagingEntries : Prog World (List StagingEntry) :=
  andThen (listS3Keys (stagingRootPrefix p)) (fun keys =>
    ret (stagingEntries (stagingRootPrefix p) keys))

/-- The thread ID in a `finish.json`; a document without one is an error. -/
def readBackfillFinish (key : Key) : Prog World ThreadID :=
  andThen (getObject key) (fun o =>
    match o with
    | some (.finish (.backfill threadID)) => if threadID = [] then fail else ret threadID
    | _ => fail)

def recoverBackfillStaging : Prog World Unit :=
  andThen (listBackfillStagingEntries p) (fun entries =>
    forEach (fun entry =>
      if entry.finished then
        andThen (readBackfillFinish (entry.dir ++ parquet2PCFinishFile)) (fun threadID =>
          finalizeBackfillStaging p entry.dir threadID)
      else deleteStagingPrefix entry.dir) entries)

/-- `parseFinishState` of what is read at the shared finish key. -/
def readSharedFinish : Prog World MetadataState :=
  andThen (getObject (sharedFinishObjectKey p)) (fun o =>
    match o with
    | some (.finish (.stream (some state))) => ret state
    | some (.finish (.backfill _)) => ret {}
    | _ => fail)

def recoverSharedStaging : Prog World Unit :=
  andThen (listS3Keys (stagingRootPrefix p)) (fun keys =>
    if keys = [] then ret ()
    else if sharedFinishObjectKey p ∉ keys then deleteStagingPrefix (stagingRootPrefix p)
    else
      andThen (readSharedFinish p) (fun state =>
        finalizeStreamStaging p (stagingRootPrefix p) state))

def recoverStaging (backfill : Bool) : Prog World Unit :=
  if backfill then recoverBackfillStaging p else recoverSharedStaging p

/-! ### Setup and Close -/

/-- The S3 part of `Setup`: `load2PCState`. -/
def setup (backfill : Bool) : Prog World (Option MetadataState) :=
  andThen (recoverStaging p backfill) (fun _ => readMetadata p)

def uploadPqFiles (writer : Writer) (files : List DataPath) : Prog World Unit :=
  concurrent (fun file => writeS3Object (stagingObjectKey p writer file) (.data writer file)) files

/-- `writeFinish`: from here on the attempt counts as finished. -/
def writeFinish (a : Attempt) (state : FinishState) : Prog World Unit :=
  call retries (fun w =>
    ((), { w with
      bucket := w.bucket.insert (finishObjectKey p a.writer) (.finish state)
      finished := w.finished ++ [a] }))

/-- `Close` of an S3 writer. -/
def close (a : Attempt) : Prog World Unit :=
  match a.writer with
  | .backfill threadID =>
    if a.ctxDone then fail
    else
      andThen (recoverStaging p true) (fun _ =>
        andThen (uploadPqFiles p a.writer a.files) (fun _ =>
          andThen (writeFinish p a (.backfill threadID)) (fun _ =>
            finalizeBackfillStaging p (backfillStagingPrefix p threadID) threadID)))
  | .stream =>
    if a.files = [] then (if a.ctxDone then fail else ret ())
    else
      match a.finalMetadataState with
      | none => fail
      | some state =>
        if a.ctxDone then fail
        else
          andThen (recoverStaging p false) (fun _ =>
            andThen (uploadPqFiles p a.writer a.files) (fun _ =>
              andThen (writeFinish p a (.stream (some state))) (fun _ =>
                finalizeStreamStaging p (stagingRootPrefix p) state)))

/-- What runs under the stream's lock: a `Setup` or a `Close`. -/
inductive Section where
  | setup (backfill : Bool)
  | close (a : Attempt)

def Section.isBackfill : Section → Bool
  | .setup backfill => backfill
  | .close a => a.writer.isBackfill

/-- The bucket after a section that met these faults. -/
def Section.run (sec : Section) (faults : List Faulty.Fault) (w : World) : World :=
  match sec with
  | .setup backfill => (Parquet.setup p backfill).after faults w
  | .close a => (Parquet.close p a).after faults w

end Olake.Parquet
