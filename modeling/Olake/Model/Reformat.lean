/-
Values reformatted to the type of their column (utils/typeutils/reformat.go), for the values that
a record or a filter can have.

The conversions between Go's number types and the text of `%v` are parameters; integers wrap
around at their width.  Pointers are among the other values, and what is made of them is a
parameter too.
-/
import Olake.Model.Values
import Mathlib.Algebra.Group.Int.Defs

namespace Olake.Typeutils

structure Conversions (go : GoLib) where
  int64OfFloat32 : go.Float32 → Int
  int64OfFloat64 : go.Float64 → Int
  int32OfFloat32 : go.Float32 → Int
  int32OfFloat64 : go.Float64 → Int
  float64OfInt : Int → go.Float64
  float64OfFloat32 : go.Float32 → go.Float64
  float32OfInt : Int → go.Float32
  float32OfFloat64 : go.Float64 → go.Float32
  /-- `strconv.ParseUint` in base 10 with 64 bits. -/
  parseUint : String → Except String Int
  /-- `time.Unix(v, 0)`. -/
  unix : Int → go.Time
  /-- `time.Time{}`. -/
  zeroTime : go.Time
  /-- The only byte of a slice of one. -/
  singleByte : String → Option Int
  /-- `%v`. -/
  text : Value go → String
  /-- `%T`. -/
  typeName : Value go → String
  /-- `[]any{v}`. -/
  singleton : Value go → go.Other
  reformatOther : DataType → go.Other → Except String (Value go)

variable {go : GoLib} (conv : Conversions go)

def DataType.name : DataType → String
  | .null => "null"
  | .int32 => "integer_small"
  | .int64 => "integer"
  | .float32 => "number_small"
  | .float64 => "number"
  | .string => "string"
  | .bool => "boolean"
  | .object => "object"
  | .array => "array"
  | .unknown => "unknown"
  | .timestamp => "timestamp"
  | .timestampMilli => "timestamp_milli"
  | .timestampMicro => "timestamp_micro"
  | .timestampNano => "timestamp_nano"

/-- `int64(v)`. -/
def wrap64 (n : Int) : Int := n.bmod (2 ^ 64)

/-- `int32(v)`. -/
def wrap32 (n : Int) : Int := n.bmod (2 ^ 32)

def IntType.isSigned : IntType → Bool
  | .int | .int8 | .int16 | .int32 | .int64 => true
  | _ => false

/-- The width of a type; `int` and `uint` have 64 bits. -/
def IntType.bits : IntType → Nat
  | .int8 | .uint8 => 8
  | .int16 | .uint16 => 16
  | .int32 | .uint32 => 32
  | _ => 64

def IntType.Holds (type : IntType) (n : Int) : Prop :=
  if type.isSigned then -2 ^ (type.bits - 1) ≤ n ∧ n < 2 ^ (type.bits - 1) else 0 ≤ n ∧ n < 2 ^ type.bits

variable (v : Value go)

def notBoolean : String := "found to be boolean, but value is not boolean : " ++ conv.text v

def ReformatBool : Except String Bool :=
  match v with
  | .bool b => .ok b
  | .string s =>
    if s ∈ ["1", "t", "T", "true", "TRUE", "True", "YES", "Yes", "yes"] then .ok true
    else if s ∈ ["0", "f", "F", "false", "FALSE", "False", "NO", "No", "no"] then .ok false
    else .error (notBoolean conv v)
  | .int type n =>
    if type.isSigned then
      if n = 1 then .ok true else if n = 0 then .ok false else .error (notBoolean conv v)
    else .error (notBoolean conv v)
  | _ => .error (notBoolean conv v)

def failedChange (target : String) : String :=
  "failed to change " ++ conv.text v ++ " (type:" ++ conv.typeName v ++ ") to " ++ target

def ReformatInt64 : Except String Int :=
  match v with
  | .number text => go.parseInt text 64
  | .float32 x => .ok (conv.int64OfFloat32 x)
  | .float64 x => .ok (conv.int64OfFloat64 x)
  | .int _ n => .ok (wrap64 n)
  | .bool b => .ok (if b then 1 else 0)
  | .string s =>
    match go.parseInt s 64 with
    | .ok n => .ok n
    | .error err => .error ("failed to change string " ++ s ++ " to int64: " ++ err)
  | .bytes s =>
    if 5 < go.loadedStateVersion then
      match go.parseInt s 64, conv.parseUint s with
      | .ok n, _ => .ok n
      | .error _, .ok n => .ok (wrap64 n)
      | .error _, .error _ => .error (failedChange conv v "int64")
    else .error (failedChange conv v "int64")
  | _ => .error (failedChange conv v "int64")

def ReformatInt32 : Except String Int :=
  match v with
  | .float32 x => .ok (conv.int32OfFloat32 x)
  | .float64 x => .ok (conv.int32OfFloat64 x)
  | .int _ n => .ok (wrap32 n)
  | .bool b => .ok (if b then 1 else 0)
  | .string s =>
    match go.parseInt s 32 with
    | .ok n => .ok n
    | .error err => .error ("failed to change string " ++ s ++ " to int32: " ++ err)
  | .number text =>
    match go.parseInt text 64 with
    | .ok n => .ok (wrap32 n)
    | .error err => .error err
  | .bytes s =>
    match conv.singleByte s with
    | some n => .ok n
    | none => .error ("unsupported []uint8 of length " ++ toString s.utf8ByteSize ++ ": " ++ conv.text v)
  | _ => .error (failedChange conv v "int32")

def ReformatFloat64 : Except String go.Float64 :=
  match v with
  | .number text => go.parseFloat64 text
  | .bytes s =>
    match go.parseFloat64 s with
    | .ok x => .ok x
    | .error err => .error ("failed to change []byte " ++ conv.text v ++ " to float64: " ++ err)
  | .float32 x => .ok (conv.float64OfFloat32 x)
  | .float64 x => .ok x
  | .int _ n => .ok (conv.float64OfInt n)
  | .bool b => .ok (conv.float64OfInt (if b then 1 else 0))
  | .string s =>
    match go.parseFloat64 s with
    | .ok x => .ok x
    | .error err => .error ("failed to change string " ++ s ++ " to float64: " ++ err)
  | _ => .error (failedChange conv v "float64")

def ReformatFloat32 : Except String go.Float32 :=
  match v with
  | .number text =>
    match go.parseFloat64 text with
    | .ok x => .ok (conv.float32OfFloat64 x)
    | .error err => .error err
  | .bytes s =>
    match go.parseFloat32 s with
    | .ok x => .ok x
    | .error err => .error ("failed to change []byte " ++ conv.text v ++ " to float32: " ++ err)
  | .float32 x => .ok x
  | .float64 x => .ok (conv.float32OfFloat64 x)
  | .int _ n => .ok (conv.float32OfInt n)
  | .bool b => .ok (conv.float32OfInt (if b then 1 else 0))
  | .string s =>
    match go.parseFloat32 s with
    | .ok x => .ok x
    | .error err => .error ("failed to change string " ++ s ++ " to float32: " ++ err)
  | _ => .error (failedChange conv v "float32")

def ReformatDate (isTimestampInDB : Bool) : Except String go.Time :=
  match v with
  | .string s | .bytes s => reformatDateString go s isTimestampInDB
  | .int .int64 n => .ok (limitYear (conv.unix n))
  | .time t => .ok (limitYear t)
  | _ => .error ("unhandled type[" ++ conv.typeName v ++ "] passed: unable to parse into time")

def ReformatValue (dataType : DataType) : Option (Value go) → Except ParseError (Option (Value go))
  | none => .ok none
  | some (.other x) =>
    match conv.reformatOther dataType x with
    | .ok v => .ok (some v)
    | .error text => .error (.other text)
  | some v =>
    let typed (out : Except String (Value go)) : Except ParseError (Option (Value go)) :=
      match out with
      | .ok v => .ok (some v)
      | .error text => .error (.other text)
    match dataType with
    | .null => .error .nullValue
    | .bool => typed ((ReformatBool conv v).map .bool)
    | .int64 => typed ((ReformatInt64 conv v).map (.int .int64))
    | .int32 => typed ((ReformatInt32 conv v).map (.int .int32))
    | .timestamp | .timestampMilli | .timestampMicro | .timestampNano => typed ((ReformatDate conv v true).map .time)
    | .string =>
      match v with
      | .string s | .bytes s => .ok (some (.string s))
      | v => .ok (some (.string (conv.text v)))
    | .float32 => typed ((ReformatFloat32 conv v).map .float32)
    | .float64 => typed ((ReformatFloat64 conv v).map .float64)
    | .array => .ok (some (.other (conv.singleton v)))
    | _ => .ok (some v)

/-- `ParseFilterValue`.  Of a timestamp column a nil is read as a time too. -/
def ParseFilterValue (dataType : DataType) (v : Option (Value go)) :
    Except ParseError (Option (Value go)) :=
  match dataType with
  | .timestamp | .timestampMilli | .timestampMicro | .timestampNano =>
    match v with
    | none => .ok (some (.time (limitYear conv.zeroTime)))
    | some v =>
      match ReformatDate conv v false with
      | .ok t => .ok (some (.time t))
      | .error text => .error (.other text)
  | _ => ReformatValue conv dataType v

/-- An integer reformatted to the type that is detected from it. -/
def reformatDetected (type : IntType) (n : Int) : Except ParseError (Option (Value go)) :=
  ReformatValue conv (TypeFromValue (some (.int type n) : Option (Value go))) (some (.int type n))

end Olake.Typeutils
