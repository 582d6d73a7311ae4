/-
Column values, the types they are taken for and how records are flattened
(utils/typeutils/datatype.go, utils/typeutils/flatten.go and the dates of
utils/typeutils/reformat.go).

The floating-point and time types of Go and the parsers of its library are parameters.  The
order in which a record's entries are listed is the order in which a `range` over the map meets
them: when two columns have one name at the destination, the last of them stays.
-/
import Olake.Model.TypeSchema

namespace Olake.Typeutils

inductive IntType where
  | int
  | int8
  | int16
  | int32
  | int64
  | uint
  | uint8
  | uint16
  | uint32
  | uint64
deriving DecidableEq, Repr

/-- What is used of Go's types and library. -/
structure GoLib where
  Float32 : Type
  Float64 : Type
  Time : Type
  /-- Pointers, maps, slices and structs. -/
  Other : Type
  /-- `json.Marshal`. -/
  marshal : Other → Except String String
  /-- What `TypeFromValue` takes one of the others for. -/
  typeOfOther : Other → DataType
  /-- `time.Parse` of a layout and a value. -/
  timeParse : String → String → Except String Time
  /-- `time.Unix(0, 0).UTC()`. -/
  epoch : Time
  year : Time → Int
  /-- `AddDate(years, 0, 0)`. -/
  addYears : Time → Int → Time
  /-- `Nanosecond`: the part of a second. -/
  nanosecond : Time → Nat
  /-- `constants.LoadedStateVersion`. -/
  loadedStateVersion : Int
  /-- `strconv.ParseInt` in base 10, with the number of bits. -/
  parseInt : String → Nat → Except String Int
  /-- `strconv.ParseFloat` with 64 bits. -/
  parseFloat64 : String → Except String Float64
  /-- `strconv.ParseFloat` with 32 bits, as a `float32`. -/
  parseFloat32 : String → Except String Float32

/-- A value of a record that is not nil. -/
inductive Value (go : GoLib) where
  | bool (b : Bool)
  | int (type : IntType) (n : Int)
  | float32 (x : go.Float32)
  | float64 (x : go.Float64)
  | string (s : String)
  /-- A `[]byte`, with its bytes as a string. -/
  | bytes (s : String)
  | time (t : go.Time)
  /-- `json.Number`. -/
  | number (text : String)
  | other (x : go.Other)

variable {go : GoLib}

/-! ### Dates -/

def DateTimeFormats : List String :=
  ["2006-01-02",
    "2006-01-02 15:04:05",
    "2006-01-02 15:04:05 -07:00",
    "2006-01-02 15:04:05-07:00",
    "2006-01-02 15:04:05 -0700 MST",
    "2006-01-02-15.04.05.000000",
    "2006-01-02T15:04:05",
    "2006-01-02T15:04:05.000000",
    "2006-01-02T15:04:05.999999999Z07:00",
    "2006-01-02T15:04:05+0000",
    "2020-08-17T05:50:22.895Z",
    "2006-01-02 15:04:05.999999-07",
    "2006-01-02 15:04:05.999999+00",
    "2006-01-02T15:04:05.000000000Z"]

/-- The first ten bytes are three groups of one to four digits.  A character of more than one byte
is no digit, so these are the first ten characters. -/
def startsWithDatePattern (value : String) : Bool :=
  let datePart := value.toList.take 10
  let parts := datePart.splitOn '-'
  datePart.length == 10 && parts.length == 3 &&
    parts.all (fun part => 1 ≤ part.length && part.length ≤ 4 && part.all (fun c => '0' ≤ c && c ≤ '9'))

/-- The loop over the layouts: the first that parses, or the last error. -/
def parseLayouts (go : GoLib) (value : String) (err : String) : List String → Except String go.Time
  | [] => .error err
  | layout :: rest =>
    match go.timeParse layout value with
    | .ok t => .ok t
    | .error err => parseLayouts go value err rest

def parseStringTimestamp (go : GoLib) (value : String) (isTimestampInDB : Bool) : Except String go.Time :=
  if startsWithDatePattern value = false then .error "string does not start with date pattern (YYYY-MM-DD)"
  else
    match parseLayouts go value "" DateTimeFormats with
    | .ok t => .ok t
    | .error err =>
      if isTimestampInDB = false ∧ go.loadedStateVersion ≠ 0 then
        .error ("failed to parse datetime from available formats: " ++ err)
      else .ok go.epoch

/-- The year of a date is brought into what can be written. -/
def limitYear (t : go.Time) : go.Time :=
  if go.year t < 1 then go.epoch
  else if 9999 < go.year t then go.addYears t (-(go.year t - 9999))
  else t

/-- `ReformatDate` of a string. -/
def reformatDateString (go : GoLib) (s : String) (isTimestampInDB : Bool) : Except String go.Time :=
  match parseStringTimestamp go s isTimestampInDB with
  | .ok t => .ok (limitYear t)
  | .error text => .error text

/-! ### The type of a value -/

def detectTimestampPrecision (t : go.Time) : DataType :=
  let nanos := go.nanosecond t
  if nanos = 0 then .timestamp
  else if nanos % 1000000 = 0 then .timestampMilli
  else if nanos % 1000 = 0 then .timestampMicro
  else .timestampNano

def TypeFromValue : Option (Value go) → DataType
  | none => .null
  | some (.bool _) => .bool
  | some (.int type _) => if type = .int64 ∨ type = .uint64 then .int64 else .int32
  | some (.float32 _) => .float32
  | some (.float64 _) => .float64
  | some (.string s) =>
    match reformatDateString go s false with
    | .ok t => detectTimestampPrecision t
    | .error _ => .string
  | some (.bytes _) => .string
  | some (.time t) => detectTimestampPrecision t
  | some (.number text) =>
    match go.parseInt text 64 with
    | .ok _ => .int64
    | .error _ => .float64
  | some (.other x) => go.typeOfOther x

/-! ### Flattening -/

/-- `flatten` of one value that is not nil. -/
def flattenValue : Value go → Except String (Value go)
  | .bytes s => .ok (.string s)
  | .other x =>
    match go.marshal x with
    | .ok text => .ok (.string text)
    | .error text => .error text
  | v => .ok v

/-- `Flatten`, from the entries that are still to be visited. -/
def flattenInto (resolveColumnName : String → String) (destination : Record (Value go)) :
    Record (Value go) → Except String (Record (Value go))
  | [] => .ok destination
  | (_, none) :: rest => flattenInto resolveColumnName destination rest
  | (key, some value) :: rest =>
    match flattenValue value with
    | .error text => .error text
    | .ok flat => flattenInto resolveColumnName (destination.set (resolveColumnName key) (some flat)) rest

def Flatten (resolveColumnName : String → String) (data : Record (Value go)) :
    Except String (Record (Value go)) :=
  flattenInto resolveColumnName [] data

/-! ### Records of a batch -/

/-- `RawRecord`: two maps.  The names of the olake columns are all different; those of the data
are too, but nothing rests on it. -/
structure BatchRecord (go : GoLib) where
  data : Record (Value go)
  olakeColumns : Record (Value go)
  nodup : (olakeColumns.map Prod.fst).Nodup

/-- `maps.Copy(dst, src)`. -/
def copy (dst : Record (Value go)) : Record (Value go) → Record (Value go)
  | [] => dst
  | (key, value) :: rest => copy (dst.set key value) rest

/-- The order in which a `range` visits the entries of a map. -/
structure Visit (go : GoLib) where
  order : Record (Value go) → Record (Value go)
  perm : ∀ m, (order m).Perm m

end Olake.Typeutils
