/-
The row index on disk (pkg/indexdb/pebble.go).

A row is stored under its key as the id of its file and its position in it.  The ids of the files
are written in a batch of their own before the batch of the rows, and are also kept in memory,
with the next id.  A process dies before one of its durable writes, or when the index is opened
again; what it had in memory is lost then.  A death after the last write of a call is one after
the call: nobody can tell.

Strings are the bytes that Go has for them.  A read of the database does not fail; a write fails
if it does not fit on the disk, and no disk has room for 2^64 keys.
-/
import Olake.Lib.ByteStore
import Olake.Lib.Utf8
import Olake.Lib.Varint

namespace Olake.IndexDB

open Varint

abbrev GoString := List UInt8

structure RowLocation where
  filePath : GoString
  position : Int64
deriving DecidableEq, Repr

/-! ### Keys and values -/

def prefixRow : UInt8 := 0x01

def prefixIDToFilePath : UInt8 := 0x02

def prefixFileByPath : UInt8 := 0x03

def prefixMeta : UInt8 := 0x04

def formatVersion : UInt64 := 1

def metaSnapshot : GoString := Utf8.ascii "snapshot"

def metaNextFileID : GoString := Utf8.ascii "next_file_id"

def metaFormatVersion : GoString := Utf8.ascii "format_version"

def rowKey (id : GoString) : List UInt8 := prefixRow :: id

def fileByIDKey (id : UInt64) : List UInt8 := prefixIDToFilePath :: put64 id

def fileByPathKey (path : GoString) : List UInt8 := prefixFileByPath :: path

def metaKey (name : GoString) : List UInt8 := prefixMeta :: name

/-- `prefixEnd` of a single byte that is not the last one. -/
def prefixEnd (b : UInt8) : List UInt8 := [b + 1]

def encodeRow (fileID position : UInt64) : List UInt8 := putUvarint fileID ++ putUvarint position

def decodeRow (value : List UInt8) : Except String (UInt64 × Int64) :=
  match uvarint value with
  | none => .error "unreadable file id"
  | some (fileID, read) =>
    match uvarint (value.drop read) with
    | none => .error "unreadable position"
    | some (raw, _) =>
      if 2 ^ 63 ≤ raw.toNat then .error ("position " ++ toString raw.toNat ++ " out of range")
      else .ok (fileID, raw.toInt64)

def setCounter (name : GoString) (value : UInt64) : ByteStore.Op := .set (metaKey name) (putUvarint value)

/-! ### The index -/

/-- The directory of the index, the disk it is on, and how strings are shown. -/
structure Disk where
  dir : String
  text : GoString → String
  noSpace : String
  /-- The number of keys that there is room for. -/
  capacity : Nat
  room : 0 < capacity
  fits : capacity < 2 ^ 64

/-- `pebbleIndex`, with the number of durable writes before its process dies. -/
structure PebbleIndex where
  db : ByteStore
  pathToID : GoString → Option UInt64
  idToPath : UInt64 → Option GoString
  nextFileID : UInt64
  life : Option Nat

inductive Outcome (α : Type) where
  | ok (a : α)
  | error (text : String)
  | crashed
deriving DecidableEq, Repr

variable (disk : Disk)

def commitSync (batch : List ByteStore.Op) (i : PebbleIndex) : Outcome Unit × PebbleIndex :=
  if i.life = some 0 then (.crashed, i)
  else if disk.capacity < (i.db.commit batch).size then (.error disk.noSpace, i)
  else
    (.ok (), { i with
      db := i.db.commit batch
      life := i.life.map Nat.pred })

def readMetaKey (db : ByteStore) (name : GoString) : Except String UInt64 :=
  match db.get (metaKey name) with
  | none => .ok 0
  | some value =>
    match uvarint value with
    | none => .error ("corrupt stream index counter " ++ disk.text name ++ " in " ++ disk.dir)
    | some (counter, _) => .ok counter

def readFileID (db : ByteStore) (path : GoString) : Except String (Option UInt64) :=
  match db.get (fileByPathKey path) with
  | none => .ok none
  | some value =>
    if value.length ≠ 8 then
      .error ("corrupt file id for " ++ disk.text path ++ ": expected 8 bytes, got " ++ toString value.length)
    else .ok (some (get64 value))

def readFilePath (db : ByteStore) (id : UInt64) : Except String GoString :=
  match db.get (fileByIDKey id) with
  | none =>
    .error ("failed to resolve indexed file id[" ++ toString id.toNat ++ "] in " ++ disk.dir ++ ": pebble: not found")
  | some value => .ok value

namespace PebbleIndex

variable (i : PebbleIndex)

def remember (path : GoString) (id : UInt64) : PebbleIndex :=
  { i with
    pathToID := Function.update i.pathToID path (some id)
    idToPath := Function.update i.idToPath id (some path) }

def fileID (path : GoString) (i : PebbleIndex) : Outcome UInt64 × PebbleIndex :=
  match i.pathToID path with
  | some id => (.ok id, i)
  | none =>
    match readFileID disk i.db path with
    | .error text => (.error text, i)
    | .ok (some id) => (.ok id, i.remember path id)
    | .ok none =>
      let id := i.nextFileID
      match commitSync disk [.set (fileByIDKey id) path, .set (fileByPathKey path) (put64 id),
          setCounter metaNextFileID (id + 1)] i with
      | (.crashed, i) => (.crashed, i)
      | (.error err, i) => (.error ("failed to intern file path " ++ disk.text path ++ ": " ++ err), i)
      | (.ok _, i) => (.ok id, { i with nextFileID := id + 1 }.remember path id)

def filePath (id : UInt64) (i : PebbleIndex) : Outcome GoString × PebbleIndex :=
  match i.idToPath id with
  | some path => (.ok path, i)
  | none =>
    match readFilePath disk i.db id with
    | .error text => (.error text, i)
    | .ok path => (.ok path, i.remember path id)

def Lookup (key : GoString) (i : PebbleIndex) : Outcome (Option RowLocation) × PebbleIndex :=
  match i.db.get (rowKey key) with
  | none => (.ok none, i)
  | some value =>
    match decodeRow value with
    | .error text => (.error ("corrupt stream index entry for key[" ++ disk.text key ++ "]: " ++ text), i)
    | .ok (fileID, position) =>
      match i.filePath disk fileID with
      | (.ok path, i) => (.ok (some ⟨path, position⟩), i)
      | (.error text, i) => (.error text, i)
      | (.crashed, i) => (.crashed, i)

/-- `stageChange` for each of the changes, in the order they are visited. -/
def stageChanges : List (GoString × RowLocation) → List ByteStore.Op → PebbleIndex →
    Outcome (List ByteStore.Op) × PebbleIndex
  | [], pending, i => (.ok pending, i)
  | (key, loc) :: rest, pending, i =>
    if loc.position < 0 then
      (.error ("stream index position for key[" ++ disk.text key ++ "] must not be negative, got " ++
        toString loc.position.toInt), i)
    else
      match i.fileID disk loc.filePath with
      | (.ok id, i) => stageChanges rest (pending ++ [.set (rowKey key) (encodeRow id loc.position.toUInt64)]) i
      | (.error text, i) => (.error text, i)
      | (.crashed, i) => (.crashed, i)

def stageSnapshot (snapshotID : Option Int64) : List ByteStore.Op :=
  match snapshotID with
  | none => []
  | some id => [.set (metaKey metaSnapshot) (putVarint id)]

def Commit (changes : List (GoString × RowLocation)) (snapshotID : Option Int64) (i : PebbleIndex) :
    Outcome Unit × PebbleIndex :=
  match i.stageChanges disk changes [] with
  | (.error text, i) => (.error text, i)
  | (.crashed, i) => (.crashed, i)
  | (.ok rows, i) =>
    let pending := rows ++ stageSnapshot snapshotID
    if pending = [] then (.ok (), i)
    else
      match commitSync disk pending i with
      | (.error err, i) => (.error ("failed to commit stream index changes in " ++ disk.dir ++ ": " ++ err), i)
      | out => out

def LastCommittedSnapshot : Except String Int64 :=
  match i.db.get (metaKey metaSnapshot) with
  | none => .ok 0
  | some value =>
    match varint value with
    | none => .error ("corrupt indexed snapshot in stream index " ++ disk.dir)
    | some (snapshotID, _) => .ok snapshotID

/-- The batch of `Truncate`. -/
def truncation : List ByteStore.Op :=
  [prefixRow, prefixIDToFilePath, prefixFileByPath, prefixMeta].map (fun b => .deleteRange [b] (prefixEnd b)) ++
    [setCounter metaFormatVersion formatVersion]

def Truncate : Outcome Unit × PebbleIndex :=
  match commitSync disk truncation i with
  | (.crashed, i) => (.crashed, i)
  | (.error err, i) => (.error ("failed to commit stream index truncate for " ++ disk.dir ++ ": " ++ err), i)
  | (.ok _, i) =>
    (.ok (), { i with
      pathToID := fun _ => none
      idToPath := fun _ => none
      nextFileID := 0 })

def checkFormatVersion : Outcome Unit × PebbleIndex :=
  match readMetaKey disk i.db metaFormatVersion with
  | .error text => (.error text, i)
  | .ok stored => if stored = formatVersion then (.ok (), i) else i.Truncate disk

def load : Outcome Unit × PebbleIndex :=
  match i.checkFormatVersion disk with
  | (.error text, i) => (.error text, i)
  | (.crashed, i) => (.crashed, i)
  | (.ok _, i) =>
    match readMetaKey disk i.db metaNextFileID with
    | .error text => (.error text, i)
    | .ok next => (.ok (), { i with nextFileID := next })

/-- `openIndex`, by a process that lives for so many writes. -/
def openIndex (db : ByteStore) (life : Option Nat) : Outcome Unit × PebbleIndex :=
  load disk ⟨db, fun _ => none, fun _ => none, 0, life⟩

end PebbleIndex

/-! ### Runs -/

/-- The index is open, or there is only what is on the disk. -/
inductive World where
  | down (db : ByteStore)
  | up (i : PebbleIndex)

def World.db : World → ByteStore
  | .down db => db
  | .up i => i.db

inductive Call where
  | reopen (life : Option Nat)
  | commit (changes : List (GoString × RowLocation)) (snapshotID : Option Int64)
  | lookup (key : GoString)
  | truncate

def World.after {α : Type} : Outcome α × PebbleIndex → World
  | (.crashed, i) => .down i.db
  | (_, i) => .up i

/-- A call; without an open index only `reopen` can be called. -/
def step (call : Call) (w : World) : World :=
  match call, w with
  | .reopen life, w =>
    match PebbleIndex.openIndex disk w.db life with
    | (.ok _, i) => .up i
    | (_, i) => .down i.db
  | .commit changes snapshotID, .up i => .after (i.Commit disk changes snapshotID)
  | .lookup key, .up i => .after (i.Lookup disk key)
  | .truncate, .up i => .after (i.Truncate disk)
  | _, .down db => .down db

/-- A call of `Commit` or `Truncate` returned without an error. -/
def returned (call : Call) (w : World) : Bool :=
  match call, w with
  | .commit changes snapshotID, .up i => (i.Commit disk changes snapshotID).1 == .ok ()
  | .truncate, .up i => (i.Truncate disk).1 == .ok ()
  | _, _ => false

end Olake.IndexDB
