/-
How the Iceberg writer finds the schema of a batch (`extractSchemaFromRecords` of
`FlattenAndCleanData`, destination/iceberg/iceberg.go).

A task per record flattens it and looks for a difference from the schema of the thread, unless
another task has found one already.  The tasks run at the same time and share the flag for this
(Lib.FlagTasks).  If there is a difference the records are then gone through one by one and the
schema grows with them.

A `range` over a map visits the entries in any order, so each pass comes with the order in which
it visits those of each record.  Entries that are null are deleted from the record on the way;
both passes skip them, so this is left out.  The filter, which is applied after, is in
Model.Filter.
-/
import Olake.Lib.FlagTasks
import Olake.Model.Values

namespace Olake.IcebergSchema

open Typeutils
export Typeutils (Value DataType)

/-- `map[string]string`: the type of each column. -/
abbrev SchemaMap := String → Option String

def SchemaMap.set (schema : SchemaMap) (key type : String) : SchemaMap :=
  fun k => if k = key then some type else schema k

/-! ### Types -/

def validTypeTransitions : String → List String
  | "int" => ["int", "long"]
  | "long" => ["long", "int"]
  | "float" => ["float", "double"]
  | "double" => ["double", "float"]
  | "boolean" => ["boolean"]
  | "string" => ["string"]
  | "timestamptz" => ["timestamptz"]
  | _ => []

def promotionTransitions : String → List String
  | "int" => ["long"]
  | "float" => ["double"]
  | _ => []

def getCommonAncestorType (d1 d2 : String) : String :=
  (GetCommonAncestorType (icebergTypeToDatatype d1) (icebergTypeToDatatype d2)).toIceberg

def isValidTransition (oldType newType : String) : Bool :=
  oldType == newType || (validTypeTransitions oldType).contains newType ||
    getCommonAncestorType oldType newType == oldType

def isPromotionRequired (oldType newType : String) : Bool :=
  (promotionTransitions oldType).contains newType

variable {go : GoLib}

/-! ### A pass over a record -/

/-- `detectOrUpdateSchema`, from the entries that are still to be visited: whether a change was
detected, and the final schema. -/
def detectOrUpdateSchema (detectChange : Bool) (threadSchema : SchemaMap) (finalSchema : SchemaMap) :
    Record (Value go) → Except String (Bool × SchemaMap)
  | [] => .ok (false, finalSchema)
  | (key, value) :: rest =>
    if TypeFromValue value = .null then detectOrUpdateSchema detectChange threadSchema finalSchema rest
    else
      let detectedIcebergType := (TypeFromValue value).toIceberg
      if (threadSchema key).isSome then
        let finalType := (finalSchema key).getD ""
        if isValidTransition finalType detectedIcebergType = false then
          .error ("failed to validate schema for field[" ++ key ++
            "] (detected two different types in batch), expected type: " ++ finalType ++
            ", detected type: " ++ detectedIcebergType)
        else if isPromotionRequired finalType detectedIcebergType then
          if detectChange then .ok (true, finalSchema)
          else
            detectOrUpdateSchema detectChange threadSchema (finalSchema.set key detectedIcebergType) rest
        else detectOrUpdateSchema detectChange threadSchema finalSchema rest
      else if detectChange then .ok (true, finalSchema)
      else
        match finalSchema key with
        | some existingType =>
          detectOrUpdateSchema detectChange threadSchema
            (finalSchema.set key (getCommonAncestorType existingType detectedIcebergType)) rest
        | none =>
          detectOrUpdateSchema detectChange threadSchema (finalSchema.set key detectedIcebergType) rest

/-! ### The batch -/

/-- A record flattened, with its olake columns. -/
def flat (resolveColumnName : String → String) (record : BatchRecord go) :
    Except String (Record (Value go)) :=
  match Flatten resolveColumnName record.data with
  | .error text => .error ("failed to flatten record, iceberg writer: " ++ text)
  | .ok flattenRecord => .ok (copy flattenRecord record.olakeColumns)

section Extract

variable (resolveColumnName : String → String) (threadSchema : SchemaMap) (records : List (BatchRecord go))

/-- The task of a record: it flattens it, and then looks for a difference. -/
def task (visit : Visit go) (record : BatchRecord go) : FlagTasks.Job String :=
  match flat resolveColumnName record with
  | .error text => ⟨some text, .clear⟩
  | .ok data =>
    match detectOrUpdateSchema true threadSchema threadSchema (visit.order data) with
    | .error text => ⟨none, .fails ("failed to detect schema: " ++ text)⟩
    | .ok (changeDetected, _) => ⟨none, if changeDetected then .sets else .clear⟩

def tasks (visit : Nat → Visit go) : List (FlagTasks.Job String) :=
  records.mapIdx (fun i record => task resolveColumnName threadSchema (visit i) record)

/-- The second pass, record by record; `i` is the place of the first. -/
def updateSchema (visit : Nat → Visit go) : Nat → SchemaMap → List (BatchRecord go) → Except String SchemaMap
  | _, schemaMap, [] => .ok schemaMap
  | i, schemaMap, record :: rest =>
    match flat resolveColumnName record with
    | .error text => .error text
    | .ok data =>
      match detectOrUpdateSchema false threadSchema schemaMap ((visit i).order data) with
      | .error text => .error ("failed to update schema: " ++ text)
      | .ok (_, schemaMap) => updateSchema visit (i + 1) schemaMap rest

/-- How a batch is gone through: the turns of the tasks, and the orders in which the two passes
visit the entries of each record. -/
structure Schedule (go : GoLib) where
  detecting : Nat → Visit go
  updating : Nat → Visit go
  turns : List Nat

/-- The turns are over when all tasks are done. -/
def Schedule.Complete (schedule : Schedule go) : Prop :=
  FlagTasks.Complete (tasks resolveColumnName threadSchema records schedule.detecting) schedule.turns

/-- `extractSchemaFromRecords`: whether the schema of the batch differs from the thread's, and the
schema. -/
def extractSchemaFromRecords (schedule : Schedule go) : Except String (Bool × SchemaMap) :=
  let s := FlagTasks.run (tasks resolveColumnName threadSchema records schedule.detecting) schedule.turns
  match s.err with
  | some text =>
    .error ("failed to flatten schema concurrently and detect change in records: " ++ text)
  | none =>
    if s.flag then
      match updateSchema resolveColumnName threadSchema schedule.updating 0 threadSchema records with
      | .error text => .error text
      | .ok schemaMap => .ok (true, schemaMap)
    else .ok (false, threadSchema)

end Extract

end Olake.IcebergSchema
