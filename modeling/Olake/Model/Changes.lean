/-
The changes that drivers emit, and what `streamChanges` makes of them
(drivers/abstract/cdc.go, drivers/abstract/abstract.go, utils/utils.go,
types/stream_configured.go).

A driver emits a change: its kind and the row it is about.  The callback of
`streamChanges` adds the olake id, a hash of the row's primary key, and the operation
type, drops the columns that are not selected, and pushes the record to the writer.
A Go value of type `any` is an `Option V`, with `none` for nil; how the standard
library prints one and what md5 gives are parameters.
-/
import Mathlib.Data.String.Basic

namespace Olake

variable {V : Type}

/-! ### Records -/

/-- A `map[string]any`, as a list without repeated keys. -/
abbrev Record (V : Type) := List (String × Option V)

def Record.set (name : String) (value : Option V) : Record V → Record V
  | [] => [(name, value)]
  | (n, v) :: rest => if n = name then (name, value) :: rest else (n, v) :: Record.set name value rest

/-- `m[k]`: nil when there is no entry. -/
def Record.get (m : Record V) (name : String) : Option V := (m.lookup name).join

/-- The standard library: `fmt.Sprint`, and the hex digits of `md5.Sum`. -/
structure Stdlib (V : Type) where
  sprint : Option V → String
  md5 : String → String

/-- `GetKeysHash` for at least one key. -/
def keysHash (std : Stdlib V) (m : Record V) (keys : List String) : String :=
  let hashed : String :=
    std.md5 (String.join ((keys.mergeSort (· ≤ ·)).map (fun k => std.sprint (m.get k) ++ "|")))
  match keys with
  | [key] =>
    -- if single primary key is present use as it is
    if (m.lookup key).isSome then std.sprint (m.get key) else hashed
  | _ => hashed

/-- `GetKeysHash`.  Without keys the entire record is hashed (`GetHash`); for an empty
record the two functions then call each other forever. -/
def GetKeysHash (std : Stdlib V) (m : Record V) (keys : List String) : Option String :=
  match keys with
  | [] => if m.isEmpty then none else some (keysHash std m (m.map Prod.fst))
  | _ => some (keysHash std m keys)

mutual

/-- `GetKeysHash` as it is written, for so many nested calls. -/
def GetKeysHash.calls (std : Stdlib V) (m : Record V) : Nat → List String → Option String
  | 0, _ => none
  | depth + 1, [] => GetHash.calls std m depth
  | _ + 1, keys => some (keysHash std m keys)

def GetHash.calls (std : Stdlib V) (m : Record V) : Nat → Option String
  | 0 => none
  | depth + 1 => GetKeysHash.calls std m depth (m.map Prod.fst)

end

/-! ### Changes -/

inductive ChangeKind where
  | insert
  | update
  | delete
  | create
deriving DecidableEq, Repr

/-- `CDCChange`, without what only metrics and time columns use. -/
structure CDCChange (S V : Type) where
  stream : S
  kind : ChangeKind
  data : Record V
  /-- The olake id among `ExtraColumns`, which overrides the hash. -/
  extraOlakeID : Option String

/-- The value of the column `_op_type`. -/
inductive OpType where
  | d
  | u
  | i
  | c
deriving DecidableEq, Repr

/-- `SelectedColumns` of a stream, with the columns of its schema that are not selected. -/
structure SelectedColumns where
  columns : List String
  unselected : List String
  syncNewColumns : Bool

/-- What the callback reads of a configured stream. -/
structure StreamConfig where
  sourceDefinedPrimaryKey : List String
  selectedColumns : Option SelectedColumns
  /-- `ResolveUpsertOp`. -/
  resolveUpsertOp : Bool

def StreamConfig.retainSelectedColumns (stream : StreamConfig) (data : Record V) : Record V :=
  match stream.selectedColumns with
  | none => data
  | some selected =>
    if selected.columns = [] then data
    else if selected.syncNewColumns then data.filter (fun e => decide (e.1 ∉ selected.unselected))
    else data.filter (fun e => decide (e.1 ∈ selected.columns))

def mapChangeKindToOperationType (kind : ChangeKind) (dedupInserts : Bool) (stream : StreamConfig) :
    OpType :=
  if kind = .delete then .d
  else if stream.resolveUpsertOp then .u
  else if kind = .update then .u
  else if dedupInserts then .i
  else .c

/-- `RawRecord`, with the olake columns that tell what to do with the data. -/
structure RawRecord (V : Type) where
  data : Record V
  olakeID : String
  opType : OpType

/-- The record that the callback of `streamChanges` pushes for a change. -/
def rawRecordOf {S : Type} (std : Stdlib V) (stream : StreamConfig) (dedupInserts : Bool)
    (change : CDCChange S V) : Option (RawRecord V) :=
  (GetKeysHash std change.data stream.sourceDefinedPrimaryKey).map (fun olakeID =>
    { data := stream.retainSelectedColumns change.data
      olakeID := change.extraOlakeID.getD olakeID
      opType := mapChangeKindToOperationType change.kind dedupInserts stream })

end Olake
