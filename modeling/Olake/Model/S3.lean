/-
The incremental sync of a stream of S3 files (drivers/s3/internal/{s3,backfill,
incremental}.go, drivers/abstract/incremental.go).

A run first lists the bucket, page by page.  A stream that has no cursor gets the largest
modification time of the listing as its cursor, and all listed files are read in chunks.
After that, and in every later run, the files are read whose listed time is beyond the
cursor, and the largest time of a record read becomes the next cursor.  Times are compared
as texts without fractions of a second.

The bucket changes at any time, also between two pages and between the listing and the
reading of a file, and a process can end at any point.  A file is read as it is when it is
opened, under the time it was listed with.  The destination keeps the IDs of committed
chunks and, with the rows of an incremental thread, the cursor it started from and the one
it reached (see Model.Backfill and Model.Incremental).

Object keys are abstract; the checks on directories, patterns, formats and the stream's
folder are one predicate on them.  Parsing is left out: an object has a number of records.
-/
import Olake.Model.Backfill

namespace Olake.S3

/-! ### Files -/

/-- What an upload puts into the bucket.  The serial number tells uploads apart. -/
structure Version (Key : Type) where
  key : Key
  serial : Nat
  size : Nat
  records : Nat
  /-- In nanoseconds. -/
  modified : Nat
deriving DecidableEq, Repr

/-- `FileObject`; the ETag is not used. -/
structure FileObject (Key Text : Type) where
  FileKey : Key
  Size : Nat
  LastModified : Text

/-- A chunk of files: their keys, and their size. -/
structure Chunk (Key : Type) where
  keys : List Key
  size : Nat
deriving DecidableEq, Repr

structure Stream (Key Text : Type) where
  /-- `LastModified.UTC().Format("2006-01-02T15:04:05Z")`. -/
  format : Nat → Text
  /-- The object is a file of the stream. -/
  selects : Key → Bool
  /-- The ID of a chunk's thread.  It prints the size of a chunk, and so it may differ
  between a chunk that was split by this process and one that was loaded. -/
  chunkID : Bool → Chunk Key → Bytes
  dest : Destination

variable {Key Text : Type}

def Stream.fileObject (S : Stream Key Text) (v : Version Key) : FileObject Key Text where
  FileKey := v.key
  Size := v.size
  LastModified := S.format v.modified

variable (files : List (FileObject Key Text))

section Cursors

variable [LinearOrder Text]

/-- `FetchMaxCursorValues`; the least text is the empty one. -/
def FetchMaxCursorValues [OrderBot Text] : Option Text :=
  if files = [] then none
  else some (files.foldl (fun maxLastModified file =>
    if file.LastModified > maxLastModified then file.LastModified else maxLastModified) ⊥)

def filterFilesByCursor (cursorTimestamp : Text) : List (FileObject Key Text) :=
  files.filter (fun file => file.LastModified > cursorTimestamp)

end Cursors

/-! ### Chunks -/

/-- `constants.EffectiveParquetSize`. -/
def EffectiveParquetSize : Nat := 256 * 1024 * 1024 * 8

/-- The variables of `groupFilesIntoChunks`. -/
structure Grouping (Key : Type) where
  chunks : List (Chunk Key)
  currentChunkFiles : List Key
  currentChunkSize : Nat

def Grouping.flushChunk (g : Grouping Key) : Grouping Key :=
  match g.currentChunkFiles with
  | [] => g
  | files => ⟨g.chunks ++ [⟨files, g.currentChunkSize⟩], [], 0⟩

/-- The body of the loop. -/
def Grouping.addFile (g : Grouping Key) (file : FileObject Key Text) : Grouping Key :=
  if EffectiveParquetSize ≤ file.Size then
    let flushed := g.flushChunk
    { flushed with chunks := flushed.chunks ++ [⟨[file.FileKey], file.Size⟩] }
  else
    let room :=
      if EffectiveParquetSize < g.currentChunkSize + file.Size then g.flushChunk else g
    { room with
      currentChunkFiles := room.currentChunkFiles ++ [file.FileKey]
      currentChunkSize := room.currentChunkSize + file.Size }

/-- `groupFilesIntoChunks`.  The chunks have no file in common, so that a list does for the
set. -/
def groupFilesIntoChunks : List (Chunk Key) :=
  (files.foldl Grouping.addFile ⟨[], [], 0⟩).flushChunk.chunks

/-! ### Runs -/

/-- Where a chunk's thread stands. -/
inductive Thread (Key : Type) where
  /-- Its ID was among the committed ones. -/
  | skipping
  /-- `ChunkIterator` runs: the files to come, and what was read. -/
  | reading (todo : List Key) (read : List (Version Key))
  /-- The writer was closed without an error. -/
  | closed

/-- Where the process stands, with what its listing has shown. -/
inductive Phase (Key Text : Type) where
  | idle
  /-- The listing has come to a key. -/
  | listing (after : Option Key) (shown : List (Version Key))
  /-- The cursor of a new backfill is stored, and its chunks are not. -/
  | cursorSet (shown : List (Version Key))
  /-- The chunks are read; they may have been loaded from the state. -/
  | backfill (loaded : Bool) (shown : List (Version Key)) (threads : Chunk Key → Option (Thread Key))
  /-- `StreamIncrementalChanges` runs from a cursor: the files to come, the largest time so
  far, and what was read. -/
  | incremental (shown : List (Version Key)) (cursor : Text) (todo : List (FileObject Key Text))
      (largest : Text) (read : List (Version Key))
  /-- The writer was closed without an error, and the cursor is not stored.  The cursor may
  be one that an earlier process committed. -/
  | committed (shown : List (Version Key)) (largest : Text) (recovered : Bool)
  /-- The run is complete. -/
  | done (shown : List (Version Key)) (recovered : Bool)

/-- The bucket, the state file and the destination.  `processed` are the versions whose
records are committed, `seen` those that a complete listing has shown, and `began` is the
number of uploads before the run. -/
structure Store (Key Text : Type) where
  bucket : List (Version Key)
  uploads : Nat
  cursor : Option Text
  chunks : Option (List (Chunk Key))
  committedIDs : List Bytes
  metadata : Option (Text × Text)
  processed : List (Version Key)
  seen : List (Version Key)
  began : Nat

structure System (Key Text : Type) extends Store Key Text where
  phase : Phase Key Text

def System.init : System Key Text := ⟨⟨[], 0, none, none, [], none, [], [], 0⟩, .idle⟩

inductive Event (Key : Type) where
  | upload (key : Key) (size records modified : Nat)
  | delete (key : Key)
  /-- A process starts; the one before has ended, for whatever reason. -/
  | start
  /-- The listing shows the objects up to a key. -/
  | page (upto : Key)
  /-- The listing shows the rest, and the sync of the stream begins. -/
  | lastPage
  | setChunks
  /-- A thread for the chunk creates its writer. -/
  | openChunk (c : Chunk Key)
  /-- The chunk's thread reads its next file. -/
  | readKey (c : Chunk Key)
  /-- The thread returns an error before its writer is closed. -/
  | failChunk (c : Chunk Key)
  | closeChunk (c : Chunk Key) (outcome : CloseOutcome)
  /-- `RemoveChunk`. -/
  | finishChunk (c : Chunk Key)
  /-- The next file of `StreamIncrementalChanges`. -/
  | readFile
  /-- The incremental thread fails and is tried again. -/
  | retry
  | close (outcome : CloseOutcome)
  /-- The cursor is stored. -/
  | save

section Steps

variable [LinearOrder Key] [LinearOrder Text] (S : Stream Key Text)

/-- The objects of the stream after a key and up to another. -/
def pageOf (bucket : List (Version Key)) (after upto : Option Key) : List (Version Key) :=
  bucket.filter (fun v => S.selects v.key && after.all (· < v.key) && upto.all (v.key ≤ ·))

def current (bucket : List (Version Key)) (key : Key) : Option (Version Key) :=
  bucket.find? (fun v => v.key = key)

def Version.hasRecords (v : Version Key) : Bool := 0 < v.records

/-- The metadata after the commit of a thread: it is written with the files, if there are
any, and a local Parquet destination has none. -/
def recordState (dest : Destination) (metadata : Option (Text × Text)) (cursor largest : Text)
    (read : List (Version Key)) : Option (Text × Text) :=
  match dest with
  | .parquetLocal => metadata
  | .parquetS3 => if read.any Version.hasRecords then some (cursor, largest) else metadata
  | .iceberg => if read.any Version.hasRecords then some (cursor, largest) else metadata

variable (s : System Key Text) (shown : List (Version Key))

/-- The thread of the incremental sync: a thread that finds its own ID in the metadata takes
over the cursor there.  Without a cursor nothing is read. -/
def streamIncremental : System Key Text :=
  match s.cursor with
  | none => { s with phase := .done shown false }
  | some c =>
    let fresh : Phase Key Text :=
      .incremental shown c (filterFilesByCursor (shown.map S.fileObject) c) c []
    match s.metadata with
    | none => { s with phase := fresh }
    | some (id, largest) =>
      { s with phase := if id = c then .committed shown largest true else fresh }

/-- `Incremental` of a stream, up to the storing of chunks. -/
def beginSync [OrderBot Text] : System Key Text :=
  match s.chunks, s.cursor with
  | some [], some _ => streamIncremental S s shown
  | some (_ :: _), _ => { s with phase := .backfill true shown (fun _ => none) }
  | _, _ =>
    { s with
      cursor := FetchMaxCursorValues (shown.map S.fileObject)
      phase := .cursorSet shown }

/-- `Backfill` of newly split chunks. -/
def setChunks : System Key Text :=
  let chunks := groupFilesIntoChunks (shown.map S.fileObject)
  let s := { s with chunks := some chunks }
  if chunks = [] then streamIncremental S s shown
  else { s with phase := .backfill false shown (fun _ => none) }

/-- A step of a chunk's thread. -/
def chunkStep (loaded : Bool) (c : Chunk Key) :
    Event Key → Option (Thread Key) → Option (Thread Key)
  | .openChunk _, none =>
    some (if S.chunkID loaded c ∈ s.committedIDs then .skipping else .reading c.keys [])
  | .readKey _, some (.reading (key :: todo) read) =>
    some (.reading todo (read ++ (current s.bucket key).toList))
  | .failChunk _, _ => none
  | .closeChunk _ outcome, some .skipping => if outcome = .committed then some .closed else none
  | .closeChunk _ outcome, some (.reading [] _) => if outcome = .committed then some .closed else none
  | _, thread => thread

/-- The events of the chunk threads. -/
def backfillStep (loaded : Bool) (shown : List (Version Key)) (threads : Chunk Key → Option (Thread Key))
    (c : Chunk Key) (e : Event Key) : System Key Text :=
  if c ∉ s.chunks.getD [] then s
  else
    let s' := { s with phase := .backfill loaded shown
                        (Function.update threads c (chunkStep S s loaded c e (threads c))) }
    match e, threads c with
    | .closeChunk _ outcome, some (.reading [] read) =>
      if outcome.durable then
        { s' with
          processed := s.processed ++ read
          committedIDs :=
            recordID S.dest (S.chunkID loaded c) (read.filter Version.hasRecords) s.committedIDs }
      else s'
    | .finishChunk _, some .closed =>
      let left := (s.chunks.getD []).erase c
      let s' := { s with
        chunks := some left
        phase := .backfill loaded shown (Function.update threads c none) }
      if left = [] then streamIncremental S s' shown else s'
    | _, _ => s'

/-- The events of the incremental thread. -/
def incrementalStep (cursor : Text) (todo : List (FileObject Key Text))
    (largest : Text) (read : List (Version Key)) : Event Key → System Key Text
  | .readFile =>
    match todo with
    | [] => s
    | file :: rest =>
      match current s.bucket file.FileKey with
      | none => { s with phase := .incremental shown cursor rest largest read }
      | some v =>
        let next := if v.hasRecords ∧ file.LastModified > largest then file.LastModified else largest
        { s with phase := .incremental shown cursor rest next (read ++ [v]) }
  | .retry => streamIncremental S s shown
  | .close outcome =>
    match todo with
    | _ :: _ => s
    | [] =>
      let s' := if outcome.durable then
          { s with
            processed := s.processed ++ read
            metadata := recordState S.dest s.metadata cursor largest read }
        else s
      if outcome = .committed then { s' with phase := .committed shown largest false }
      else streamIncremental S s' shown
  | _ => s

/-- One event; those that cannot happen in the phase change nothing. -/
def step [OrderBot Text] (e : Event Key) (s : System Key Text) : System Key Text :=
  match e, s.phase with
  | .upload key size records modified, _ =>
    { s with
      bucket := s.bucket.filter (fun v => v.key ≠ key) ++ [⟨key, s.uploads, size, records, modified⟩]
      uploads := s.uploads + 1 }
  | .delete key, _ => { s with bucket := s.bucket.filter (fun v => v.key ≠ key) }
  | .start, _ => { s with began := s.uploads, phase := .listing none [] }
  | .page upto, .listing after shown =>
    if after.all (· < upto) then
      { s with phase := .listing (some upto) (shown ++ pageOf S s.bucket after (some upto)) }
    else s
  | .lastPage, .listing after shown =>
    let shown := shown ++ pageOf S s.bucket after none
    beginSync S { s with seen := s.seen ++ shown } shown
  | .setChunks, .cursorSet shown => setChunks S s shown
  | .openChunk c, .backfill loaded shown threads => backfillStep S s loaded shown threads c e
  | .readKey c, .backfill loaded shown threads => backfillStep S s loaded shown threads c e
  | .failChunk c, .backfill loaded shown threads => backfillStep S s loaded shown threads c e
  | .closeChunk c _, .backfill loaded shown threads => backfillStep S s loaded shown threads c e
  | .finishChunk c, .backfill loaded shown threads => backfillStep S s loaded shown threads c e
  | .save, .committed shown largest recovered =>
    { s with cursor := some largest, phase := .done shown recovered }
  | e, .incremental shown cursor todo largest read => incrementalStep S s shown cursor todo largest read e
  | _, _ => s

end Steps

end Olake.S3
