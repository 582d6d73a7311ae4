/-
The migration of equality deletes (EqualityDeleteMigrator.java, PreviousDeleteLoader.java).

Iceberg's planning of a scan says which equality delete files are read for a data file.
The migrator reads the identifiers in them, looks for rows of the data file with one of
these, and deletes the rows by position instead: with a positional delete file for each
partition directory, or with deletion vectors that take over what was deleted before.  One
commit exchanges the delete files.

The contents of files are parameters: what an equality delete removes is the reader's
business, and the migrator only gets to see a column of it (`readKeys`).  Files that are
no Parquet files, and partitions of older specifications that the current one cannot print,
end the migration with an exception before it commits; they are left out.
-/
import Olake.Lib.Groups
import Olake.Model.Iceberg.Rows

namespace Olake.Migrator

open Iceberg IcebergWriter
export Iceberg (Table)

/-- A partition: the values, and the specification that says what they are of. -/
structure Partition (T : Type) where
  spec : Nat
  values : T
deriving DecidableEq, Repr

def reader {P T R E : Type} [DecidableEq P] [DecidableEq T] (scope : Partition T → Partition T → Prop)
    (hits : E → R → Bool) : Reader P (Partition T) R E :=
  ⟨scope, hits, readsFor⟩

variable {P T R E : Type} {rd : Reader P (Partition T) R E} {Id Dir : Type}

/-- What the migrator gets from the table and its session. -/
structure Session (rd : Reader P (Partition T) R E) (Id Dir : Type) where
  planner : Planner rd
  /-- The identifier column of an equality delete file, without nulls. -/
  readKeys : E → List Id
  /-- The identifier of a row; there may be none. -/
  identifier : R → Option Id
  /-- `partitionToPath` of the current specification. -/
  partitionToPath : T → Dir
  /-- `table.spec()`. -/
  spec : Nat
  /-- The empty values, if the specification has no fields (`isUnpartitioned`). -/
  unpartitioned : Option T

/-- The partition of a delete file for a group with these values. -/
def Session.partition (session : Session rd Id Dir) (values : T) : Partition T :=
  ⟨session.spec, session.unpartitioned.getD values⟩

/-- `DataFileDeletes`; the positional deletes of a file are looked up in the table. -/
structure DataFileDeletes (P T R E : Type) where
  dataFile : DataFile P (Partition T) R
  equalityDeletes : List (EqualityDelete (Partition T) E)

/-- `validateOrUpgradeFormatVersion`: the version of the table for a mode, unless it is
refused. -/
def validateOrUpgradeFormatVersion (currSpecVersion : Nat) (deleteMode : UpdateType) : Option Nat :=
  let reqSpecVersion := if deleteMode = .deletionVector then 3 else 2
  if currSpecVersion < reqSpecVersion then some reqSpecVersion
  else if deleteMode ≠ .deletionVector ∧ 3 ≤ currSpecVersion then none
  else some currSpecVersion

/-- `hasEqualityDeletes`, from the summary of the snapshot. -/
def hasEqualityDeletes (totalEqDeletes : Option Nat) : Bool :=
  match totalEqDeletes with
  | some n => 0 < n
  | none => false

section Migration

variable (session : Session rd Id Dir) (t : Table P (Partition T) R E)

def planAffectedDataFiles : List (DataFileDeletes P T R E) :=
  t.data.filterMap (fun f =>
    let equalityDeletes := t.equalityDeletes.filter (fun d => session.planner.pairs d f)
    if equalityDeletes.isEmpty then none else some ⟨f, equalityDeletes⟩)

variable [DecidableEq Id]

/-- `collectPositions`, with the keys that were read from the file's equality deletes. -/
def collectPositions (entry : DataFileDeletes P T R E) : List (RowLocation P) :=
  let deletedKeys := entry.equalityDeletes.flatMap (fun d => session.readKeys d.content)
  entry.dataFile.rows.zipIdx.filterMap (fun row =>
    (session.identifier row.1).bind (fun key =>
      if key ∈ deletedKeys then some ⟨entry.dataFile.path, row.2⟩ else none))

variable [DecidableEq Dir]

def groups : List (Dir × List (DataFileDeletes P T R E)) :=
  Groups.sort (fun entry => session.partitionToPath entry.dataFile.partition.values)
    (planAffectedDataFiles session t)

/-- `writePositionDeletes`: a file for each directory that has positions, in the partition
of the directory's first data file, or in the only one. -/
def writePositionDeletes : List (Partition T × List (RowLocation P)) :=
  (groups session t).filterMap (fun group =>
    let positions := group.2.flatMap (collectPositions session)
    if positions.isEmpty then none
    else group.2.head?.map (fun entry => (session.partition entry.dataFile.partition.values, positions)))

/-- `writeDeletionVectors`: the rows that the new vectors remove. -/
def writeDeletionVectors : List (RowLocation P) :=
  (groups session t).flatMap (fun group => group.2.flatMap (collectPositions session))

/-- `writeDeletes`, as files of a commit. -/
def writeDeletes (targetMode : UpdateType) (t : Table P (Partition T) R E) :
    Delta P (Partition T) R E where
  data := []
  equalityDeletes := []
  positionDeletes := if targetMode = .deletionVector then [] else writePositionDeletes session t
  vectors := if targetMode = .deletionVector then writeDeletionVectors session t else []

/-- The equality delete files that the migration replaces. -/
def replaced (d : EqualityDelete (Partition T) E) : Bool :=
  t.data.any (fun f => session.planner.pairs d f)

/-- The positional delete files that a new vector takes over as a whole
(`rewrittenDeleteFiles`): those that were read for its data file, and list rows of no other
file. -/
def rewritten [DecidableEq P] (rd : Reader P (Partition T) R E)
    (t : Table P (Partition T) R E) (vectors : List (RowLocation P))
    (d : PositionDelete P (Partition T)) : Bool :=
  t.data.any (fun f => decide (f.path ∈ vectors.map RowLocation.path) && !decide (t.HasVector f) &&
    rd.covers d f && decide (f.sequence ≤ d.sequence) && d.entries.all (fun loc => loc.path = f.path))

def migrate [DecidableEq P] (totalEqDeletes : Option Nat) (targetMode : UpdateType)
    (t : Table P (Partition T) R E) : Table P (Partition T) R E :=
  if !hasEqualityDeletes totalEqDeletes || (planAffectedDataFiles session t).isEmpty then t
  else
    let deletes := writeDeletes session targetMode t
    let t' := t.commit rd deletes
    { t' with
      equalityDeletes := t'.equalityDeletes.filter (fun d => !replaced session t d)
      positionDeletes := t'.positionDeletes.filter (fun d => !rewritten rd t deletes.vectors d) }

end Migration

end Olake.Migrator
