/-
The column types that the parquet writer keeps (utils/typeutils/fields.go) and how they follow
the records of a batch (`FlattenAndCleanData`, destination/parquet/parquet.go), for a stream that
is normalized.

A field has the types that occurred and caches what they have in common.  A task per record
flattens it and looks for a column or a type that has not occurred, unless another task has found
one already (Lib.FlagTasks); if one is found all records are processed, one by one.  The records
are then reformatted to the types of their columns.  A `range` over a map visits the entries in
any order, so each one comes with its order.
-/
import Olake.Lib.FlagTasks
import Olake.Model.Reformat

namespace Olake.Typeutils

/-! ### Fields -/

/-- `Field`; the types that occurred are the keys of a map. -/
structure Field where
  dataType : Option DataType
  typeOccurrence : List DataType

/-- The order in which a `range` visits the types that occurred. -/
structure TypeVisit where
  order : List DataType → List DataType
  perm : ∀ types, (order types).Perm types

def NewField (t : DataType) : Field := ⟨some t, [t]⟩

/-- The common ancestor of the types in the order they are visited. -/
def commonType : List DataType → DataType
  | [] => .unknown
  | t :: rest => rest.foldl GetCommonAncestorType t

/-- `getType`, with the field that has it cached. -/
def Field.getType (visit : TypeVisit) (f : Field) : DataType × Field :=
  match f.dataType with
  | some t => (t, f)
  | none =>
    let common := commonType (visit.order f.typeOccurrence)
    (common, { f with dataType := some common })

/-- A type occurs; if it is new the cache is wiped. -/
def Field.add (f : Field) (t : DataType) : Field :=
  if t ∈ f.typeOccurrence then f else ⟨none, f.typeOccurrence ++ [t]⟩

/-- `Merge` of a field. -/
def Field.Merge (f anotherField : Field) : Field := anotherField.typeOccurrence.foldl Field.add f

abbrev Fields := String → Option Field

def Fields.set (f : Fields) (key : String) (field : Field) : Fields := fun k => if k = key then some field else f k

def Fields.Merge (f other : Fields) : Fields := fun k =>
  match other k, f k with
  | none, currentField => currentField
  | some otherField, some currentField => some (currentField.Merge otherField)
  | some otherField, none => some otherField

/-- `FromSchema`, from the types that the columns of a stream's schema have under their resolved
names. -/
def Fields.FromSchema (schema : String → Option DataType) : Fields := fun k => (schema k).map NewField

variable {go : GoLib}

/-- The variables of the loop of `Process`. -/
structure Progress where
  fields : Fields
  changeDetected : Bool
  typeChangeDetected : Bool
  mutations : Fields

/-- The loop of `Process` at an entry. -/
def processEntry (visit : TypeVisit) (acc : Progress) (key : String) (value : Option (Value go)) : Progress :=
  let detectedType := TypeFromValue value
  match acc.fields key with
  | some val =>
    let (currentType, val) := val.getType visit
    if detectedType ≠ .null ∧ currentType ≠ detectedType then
      let (updatedType, merged) := (val.Merge (NewField detectedType)).getType visit
      { acc with
        fields := acc.fields.set key merged
        typeChangeDetected := acc.typeChangeDetected || decide (updatedType ≠ currentType)
        mutations := if updatedType ≠ currentType then acc.mutations.set key (NewField detectedType)
          else acc.mutations }
    else { acc with fields := acc.fields.set key val }
  | none =>
    { acc with
      changeDetected := true
      mutations := acc.mutations.set key (NewField detectedType) }

/-- `Process`: whether a column is new, whether a type has changed, and the fields. -/
def Fields.Process (visit : String → TypeVisit) (f : Fields) (record : Record (Value go)) : Bool × Bool × Fields :=
  let acc := record.foldl (fun acc p => processEntry (visit p.1) acc p.1 p.2) ⟨f, false, false, fun _ => none⟩
  (acc.changeDetected, acc.typeChangeDetected, acc.fields.Merge acc.mutations)

/-! ### Reformatting -/

/-- `ReformatRecord`, from the entries that are still to be visited. -/
def ReformatRecord (conv : Conversions go) (visit : String → TypeVisit) (fields : Fields) :
    Record (Value go) → Except String (Record (Value go))
  | [] => .ok []
  | (key, val) :: rest =>
    match fields key with
    | none => .error ("missing field [" ++ key ++ "]")
    | some field =>
      let dataType := (field.getType (visit key)).1
      match ReformatValue conv dataType val with
      | .error (.other text) =>
        .error ("failed to reformat value[" ++ (val.map conv.text).getD "<nil>" ++ "] to datatype[" ++
          dataType.name ++ "] for key[" ++ key ++ "]: " ++ text)
      | .error .nullValue => (ReformatRecord conv visit fields rest).map (fun record => (key, none) :: record)
      | .ok updated => (ReformatRecord conv visit fields rest).map (fun record => (key, updated) :: record)

end Olake.Typeutils

namespace Olake.ParquetFields

open Typeutils
export Typeutils (Value DataType)

variable {go : GoLib} (conv : Conversions go) (resolveColumnName : String → String)

/-- A record with its olake columns, flattened. -/
def flat (record : BatchRecord go) : Except String (Record (Value go)) :=
  Flatten resolveColumnName (copy record.data record.olakeColumns)

/-- A value of a column or a type that has not occurred. -/
def unknownTo (schema : Fields) (entry : String × Option (Value go)) : Bool :=
  match schema entry.1 with
  | none => true
  | some field => !field.typeOccurrence.contains (TypeFromValue entry.2)

/-- The task of a record: it flattens it, and then looks for a difference. -/
def task (schema : Fields) (visit : Visit go) (idx : Nat) (record : BatchRecord go) : FlagTasks.Job String :=
  match flat resolveColumnName record with
  | .error text => ⟨some ("failed to flatten record at index " ++ toString idx ++ ", pq writer: " ++ text), .clear⟩
  | .ok flattenedRecord =>
    ⟨none, if (visit.order flattenedRecord).any (unknownTo schema) then .sets else .clear⟩

/-- A batch of records, with the turns of its tasks and the orders in which entries and types are
visited. -/
structure Batch (go : GoLib) where
  records : List (BatchRecord go)
  turns : List Nat
  detecting : Nat → Visit go
  processing : Nat → Visit go
  reformatting : Nat → Visit go
  types : Nat → String → TypeVisit

def tasks (schema : Fields) (batch : Batch go) : List (FlagTasks.Job String) :=
  batch.records.mapIdx (fun idx record => task resolveColumnName schema (batch.detecting idx) idx record)

/-- The turns of the tasks are over when all are done. -/
def Batch.Complete (schema : Fields) (batch : Batch go) : Prop :=
  FlagTasks.Complete (tasks resolveColumnName schema batch) batch.turns

def flatAll : List (BatchRecord go) → Except String (List (Record (Value go)))
  | [] => .ok []
  | record :: rest =>
    match flat resolveColumnName record with
    | .error text => .error text
    | .ok data => (flatAll rest).map (fun records => data :: records)

/-- All records processed, one by one; `idx` is the place of the first. -/
def processAll (batch : Batch go) : Nat → Fields → List (Record (Value go)) → Bool × Fields
  | _, schema, [] => (false, schema)
  | idx, schema, record :: rest =>
    let (change, typeChange, schema) := schema.Process (batch.types idx) ((batch.processing idx).order record)
    let (schemaChange, schema) := processAll batch (idx + 1) schema rest
    (change || typeChange || schemaChange, schema)

/-- All records reformatted; `idx` is the place of the first. -/
def reformatAll (schema : Fields) (batch : Batch go) :
    Nat → List (Record (Value go)) → Except String (List (Record (Value go)))
  | _, [] => .ok []
  | idx, record :: rest =>
    match ReformatRecord conv (batch.types idx) schema ((batch.reformatting idx).order record) with
    | .error text => .error text
    | .ok record => (reformatAll schema batch (idx + 1) rest).map (fun records => record :: records)

/-- The schema after a batch: the flag decides whether its records are processed. -/
def schemaAfter (schema : Fields) (batch : Batch go) (records : List (Record (Value go))) : Bool × Fields :=
  if (FlagTasks.run (tasks resolveColumnName schema batch) batch.turns).flag then
    processAll batch 0 schema records
  else (false, schema)

/-- `FlattenAndCleanData` up to the filter: the writer's schema, and whether it has changed with
the records of the batch. -/
def FlattenAndCleanData (schema : Fields) (batch : Batch go) :
    Fields × Except String (Bool × List (Record (Value go))) :=
  match (FlagTasks.run (tasks resolveColumnName schema batch) batch.turns).err,
      flatAll resolveColumnName batch.records with
  | some text, _ => (schema, .error ("failed to process records: " ++ text))
  | none, .error text => (schema, .error text)
  | none, .ok records =>
    let (schemaChange, schema) := schemaAfter resolveColumnName schema batch records
    match reformatAll conv schema batch 0 records with
    | .error text => (schema, .error ("failed to reformat records: " ++ text))
    | .ok records => (schema, .ok (schemaChange, records))

end Olake.ParquetFields
