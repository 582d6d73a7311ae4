/-
The filters that the MongoDB driver puts on the cursor fields
(drivers/mongodb/internal/incremental.go, drivers/mongodb/internal/backfill.go).

`ThresholdFilter` cuts the backfill of an incremental stream off at the stored cursors,
`buildIncrementalCondition` asks for the documents beyond them.  Both go through
`buildMongoCondition`, which guesses from the text of a string whether an object id or
a date is meant; but the threshold filter first converts the cursor to the type that
the schema gives the field, and the incremental filter does not.
-/
import Mathlib.Data.String.Basic
import Olake.Lib.Bson

namespace Olake.MongoDB

open Bson

variable {T V : Type}

/-- A cursor in the state: a Go string, or a value of another type. -/
inductive Cursor (T : Type) where
  | string (s : String)
  | typed (t : T)

/-- What `buildMongoCondition` calls. -/
structure Convert (T V : Type) where
  /-- `primitive.ObjectIDFromHex`. -/
  objectIDFromHex : String → Option T
  /-- `typeutils.ReformatDate` of a string. -/
  reformatDate : String → Option T
  /-- The BSON value that the client library makes of a Go value. -/
  encode : Cursor T → V

/-- The value in the condition that `buildMongoCondition` builds (not legacy). -/
def Convert.value (C : Convert T V) (column : String) : Cursor T → Cursor T
  | .string v =>
    if column = "_id" ∧ v.utf8ByteSize = 24 then
      match C.objectIDFromHex v with
      | some oid => .typed oid
      | none => .string v
    else
      match C.reformatDate v with
      | some timeVal => .typed timeVal
      | none => .string v
  | .typed t => .typed t

/-- `buildMongoCondition`, not legacy. -/
def buildMongoCondition (C : Convert T V) (column : String) (op : Op) (value : Option (Cursor T)) :
    Query String V :=
  .cmp column op (value.map (fun v => C.encode (C.value column v)))

structure CursorFields (T : Type) where
  primaryCursor : String
  secondaryCursor : Option String
  /-- `ReformatCursorValue`: to the type of the field in the schema. -/
  reformat : String → Cursor T → Option (Cursor T)

section Builders

variable (C : Convert T V) (stream : CursorFields T) (state : String → Option (Cursor T))

/-- The condition that `ThresholdFilter` puts on one cursor, with null values included;
none where no cursor is stored. -/
def thresholdCondition (column : String) : Option (List (Query String V)) :=
  match state column with
  | none => some []
  | some value =>
    (stream.reformat column value).map (fun formatted =>
      [.or (buildMongoCondition C column .lte (some formatted)) (.cmp column .eq none)])

def ThresholdFilter : Option (List (Query String V)) :=
  (thresholdCondition C stream state stream.primaryCursor).bind (fun conditions =>
    match stream.secondaryCursor with
    | none => some conditions
    | some secondaryCursor =>
      (thresholdCondition C stream state secondaryCursor).map (fun more => conditions ++ more))

end Builders

end Olake.MongoDB
