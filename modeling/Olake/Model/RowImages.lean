/-
How a change of a row reaches the callback of `streamChanges`, in the two drivers that
read row images from a log: the messages of pgoutput (pkg/waljs/pgoutput.go) and the
row events of the MySQL binlog (pkg/binlog/filter.go).

An update comes with the row before and after.  Both drivers emit the row after, and
pgoutput looks at the row before only for TOAST values that were not sent again.  The
conversion of a column's value is a field of both change filters and a parameter here;
`none` is an error other than `ErrNullValue`.
-/
import Olake.Model.Changes

namespace Olake

variable {S V : Type}

/-! ### pgoutput -/

namespace Pgoutput

/-- A column of a `RelationMessage`; the type is an OID. -/
structure RelationColumn where
  name : String
  dataType : Nat

/-- `RelationMessage`. -/
structure Relation where
  relationID : Nat
  namespaceName : String
  relationName : String
  columns : List RelationColumn

inductive TupleDataType where
  | null
  | toast
  | text
  | binary
deriving DecidableEq, Repr

/-- A column of `TupleData`. -/
structure TupleColumn where
  dataType : TupleDataType
  data : Option (List UInt8)

/-- The messages of the logical replication protocol. -/
inductive LogicalMsg where
  | relation (rel : Relation)
  | beginTransaction
  | insert (relationID : Nat) (tuple : Option (List TupleColumn))
  | update (relationID : Nat) (oldTuple newTuple : Option (List TupleColumn))
  | delete (relationID : Nat) (oldTuple : Option (List TupleColumn))
  | commit
  | other

/-- The change filter: the selected tables by `namespace.name`, and the conversion of
values. -/
structure ChangeFilter (S V : Type) where
  tables : String → Option S
  oidToString : Nat → String
  converter : List UInt8 → String → Option (Option V)
  /-- A Go string as a value. -/
  ofString : String → V

structure Replicator where
  relationIDToMsgMap : Nat → Option Relation
  transactionCompleted : Bool

def olakeUnavailableValue : String := "__olake_unavailable_value__"

/-- The loop of `tupleValuesToMap`, with what is left of the three lists of columns. -/
def tupleColumnsToMap (f : ChangeFilter S V) :
    List TupleColumn → List RelationColumn → List TupleColumn → Record V → Option (Record V)
  | [], _, _, data => some data
  | _ :: _, [], _, data => some data
  | col :: cols, rel :: rels, old, data =>
    let isUnchangedToast : Bool := col.dataType = .toast
    let col := if isUnchangedToast then old.head?.getD col else col
    match col.data with
    | none =>
      tupleColumnsToMap f cols rels old.tail
        (data.set rel.name (if isUnchangedToast then some (f.ofString olakeUnavailableValue) else none))
    | some bytes =>
      match f.converter bytes (f.oidToString rel.dataType) with
      | none => none
      | some val => tupleColumnsToMap f cols rels old.tail (data.set rel.name val)

variable (f : ChangeFilter S V)

def tupleValuesToMap (rel : Relation)
    (tuple oldTuple : Option (List TupleColumn)) : Option (Record V) :=
  match tuple with
  | none => some []
  | some cols => tupleColumnsToMap f cols rel.columns (oldTuple.getD []) []

variable (r : Replicator) (relationID : Nat)

/-- `emitInsert`, `emitUpdate` and `emitDelete`: the change of the given kind with the
values of `tuple`, or none when the table is not selected. -/
def emit (kind : ChangeKind)
    (tuple oldTuple : Option (List TupleColumn)) : Option (List (CDCChange S V)) :=
  match r.relationIDToMsgMap relationID with
  | none => none
  | some rel =>
    match f.tables (rel.namespaceName ++ "." ++ rel.relationName) with
    | none => some []
    | some stream =>
      (tupleValuesToMap f rel tuple oldTuple).map (fun values =>
        [{ stream := stream, kind := kind, data := values, extraOlakeID := none }])

def emitInsert (tuple : Option (List TupleColumn)) : Option (List (CDCChange S V)) :=
  emit f r relationID .insert tuple none

def emitUpdate (oldTuple newTuple : Option (List TupleColumn)) : Option (List (CDCChange S V)) :=
  emit f r relationID .update newTuple oldTuple

def emitDelete (oldTuple : Option (List TupleColumn)) : Option (List (CDCChange S V)) :=
  emit f r relationID .delete oldTuple none

/-- `processPgoutputWAL`: the replicator after a message, and the changes handed to the
callback; `none` is an error. -/
def processPgoutputWAL :
    LogicalMsg → Option (Replicator × List (CDCChange S V))
  | .relation rel =>
    some ({ r with relationIDToMsgMap :=
      fun id => if id = rel.relationID then some rel else r.relationIDToMsgMap id }, [])
  | .beginTransaction => some ({ r with transactionCompleted := false }, [])
  | .insert id tuple => (emitInsert f r id tuple).map (fun changes => (r, changes))
  | .update id oldTuple newTuple => (emitUpdate f r id oldTuple newTuple).map (fun changes => (r, changes))
  | .delete id oldTuple => (emitDelete f r id oldTuple).map (fun changes => (r, changes))
  | .commit => some ({ r with transactionCompleted := true }, [])
  | .other => some (r, [])

variable {r}

def processMessages (f : ChangeFilter S V) :
    Replicator → List LogicalMsg → Option (List (CDCChange S V))
  | _, [] => some []
  | r, msg :: msgs =>
    match processPgoutputWAL f r msg with
    | none => none
    | some (r', changes) => (processMessages f r' msgs).map (changes ++ ·)

end Pgoutput

/-! ### The MySQL binlog -/

namespace Binlog

/-- A value of a row event, as go-mysql decodes it. -/
inductive Value (W : Type) where
  | int64 (n : Int)
  | string (bytes : List UInt8)
  | bytes (bytes : List UInt8)
  | other (w : W)
deriving DecidableEq, Repr

/-- `columnView`, one entry for each column. -/
structure ColumnView where
  name : String
  type : String
  /-- `none` for columns that are not ENUM. -/
  enumValues : Option (List (List UInt8))
  /-- `none` for columns that are not SET. -/
  setMembers : Option (List (List UInt8))
  /-- 0: no charset decoding. -/
  collation : Nat

/-- The change filter: the selected tables by `schema.table`, and the conversion of
values.  `decode` is `decodeBytesToString`. -/
structure ChangeFilter (S V W : Type) where
  streams : String → Option S
  decode : List UInt8 → Nat → Option (List UInt8)
  converter : Option (Value W) → String → Option (Option V)

/-- The members of a SET that a bitmask selects, from bit `bit` on. -/
def selectedMembers (bitmask : Int) : Nat → List (List UInt8) → List (List UInt8)
  | _, [] => []
  | bit, member :: members =>
    if (bitmask / 2 ^ bit) % 2 ≠ 0 then member :: selectedMembers bitmask (bit + 1) members
    else selectedMembers bitmask (bit + 1) members

def comma : UInt8 := 44

variable {W : Type} (f : ChangeFilter S V W)

/-- The value of a column before conversion: members of ENUM and SET by name, and
strings decoded from the column's charset. -/
def decodeValue (col : ColumnView) (val : Option (Value W)) : Option (Value W) :=
  match col.enumValues, col.setMembers with
  | some members, _ =>
    match val with
    | some (.int64 idx) =>
      if 0 < idx ∧ idx.toNat ≤ members.length then
        some (.string (members.getD (idx.toNat - 1) []))
      else some (.string [])
    | _ => val
  | none, some members =>
    match val with
    | some (.int64 bitmask) =>
      some (.string (List.intercalate [comma] (selectedMembers bitmask 0 members)))
    | _ => val
  | none, none =>
    if col.collation = 0 then val
    else
      match val with
      | some (.string raw) => ((f.decode raw col.collation).map Value.string).orElse (fun _ => val)
      | some (.bytes raw) => ((f.decode raw col.collation).map Value.string).orElse (fun _ => val)
      | _ => val

/-- The loop of `convertRowToMap`. -/
def convertColumns (f : ChangeFilter S V W) :
    List (Option (Value W)) → List ColumnView → Record V → Option (Record V)
  | val :: row, col :: view, record =>
    match f.converter (decodeValue f col val) col.type with
    | none => none
    | some converted => convertColumns f row view (record.set col.name converted)
  | _, _, record => some record

def convertRowToMap (row : List (Option (Value W))) (view : List ColumnView) : Option (Record V) :=
  if view.length ≠ row.length then none else convertColumns f row view []

/-- The type of a rows event. -/
inductive EventType where
  | writeRows
  | updateRows
  | deleteRows
  | other

/-- `RowsEvent`, with the columns that `resolveColumns` finds for its table. -/
structure RowsEvent (W : Type) where
  table : String
  eventType : EventType
  view : List ColumnView
  rows : List (List (Option (Value W)))

/-- Every second row, from the second on: the after-images of `[before, after, …]`. -/
def afterImages {A : Type} : List A → List A
  | _ :: after :: rest => after :: afterImages rest
  | _ => []

/-- The loop of `FilterRowsEvent` over the rows to process. -/
def emitRows (f : ChangeFilter S V W) (stream : S) (kind : ChangeKind)
    (view : List ColumnView) : List (List (Option (Value W))) → Option (List (CDCChange S V))
  | [] => some []
  | row :: rows =>
    match convertRowToMap f row view with
    | none => none
    | some record =>
      (emitRows f stream kind view rows).map
        ({ stream := stream, kind := kind, data := record, extraOlakeID := none } :: ·)

/-- `FilterRowsEvent`: the changes handed to the callback; `none` is an error. -/
def FilterRowsEvent (e : RowsEvent W) : Option (List (CDCChange S V)) :=
  match f.streams e.table with
  | none => some []
  | some stream =>
    match e.eventType with
    | .writeRows => emitRows f stream .insert e.view e.rows
    | .updateRows => emitRows f stream .update e.view (afterImages e.rows)
    | .deleteRows => emitRows f stream .delete e.view e.rows
    | .other => some []

def processEvents (f : ChangeFilter S V W) :
    List (RowsEvent W) → Option (List (CDCChange S V))
  | [] => some []
  | e :: events =>
    match FilterRowsEvent f e with
    | none => none
    | some changes => (processEvents f events).map (changes ++ ·)

end Binlog

end Olake
