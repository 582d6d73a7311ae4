/-
The directory of a record (`getPartitionedFilePath` of destination/parquet/parquet.go).

The partition pattern of the stream is filled in with the values of the record and joined to
the path of the table.  A placeholder names a column, a text for records without a value, and
the part of a time that is wanted.
-/
import Olake.Lib.Strings
import Olake.Model.Parquet

namespace Olake.PartitionPath

open Parquet Strings

abbrev Text := List Char

/-- What the functions use of Go: values printed with `%v`, values as times (`ReformatValue` to a
timestamp), and the parts of a time in UTC. -/
structure GoLib where
  Value : Type
  Time : Type
  sprint : Value → Text
  ofTime : Time → Value
  timestamp : Value → Option Time
  hour : Time → Nat
  day : Time → Nat
  isoWeek : Time → Nat
  month : Time → Nat
  year : Time → Int

/-- The stream: its base path, of a database and a table name, its partition pattern, and
`ResolveColumnName`. -/
structure Stream where
  basePath : Text
  normal : ∀ s ∈ Path.segments basePath, Path.Normal s
  partitionRegex : Text
  resolveColumnName : Text → Text

/-- `ReplaceAllStringFunc` with the regular expression `\{([^}]+)\}`, outside of braces or behind
an opening one and what has followed it. -/
def replaceAll (replace : Text → Text) : Option Text → Text → Text
  | none, [] => []
  | none, c :: rest => if c = '{' then replaceAll replace (some []) rest else c :: replaceAll replace none rest
  | some body, [] => '{' :: body
  | some body, c :: rest =>
    if c ≠ '}' then replaceAll replace (some (body ++ [c])) rest
    else if body = [] then '{' :: '}' :: replaceAll replace none rest
    else replace ('{' :: body ++ ['}']) ++ replaceAll replace none rest

variable (go : GoLib)

/-- Two digits at least, as `%02d` prints them. -/
def twoDigits (n : Nat) : Text := if n < 10 then '0' :: (toString n).toList else (toString n).toList

def granularityFunction (granularity : Text) (value : go.Value) : Text :=
  match go.timestamp value with
  | none => go.sprint value
  | some t =>
    if granularity = "HH".toList then twoDigits (go.hour t)
    else if granularity = "DD".toList then twoDigits (go.day t)
    else if granularity = "WW".toList then twoDigits (go.isoWeek t)
    else if granularity = "MM".toList then twoDigits (go.month t)
    else if granularity = "YYYY".toList then (toString (go.year t)).toList
    else go.sprint value

section Fill

variable (stream : Stream) (values : Text → Option (Option go.Value)) (olakeTimestamp : go.Time)

/-- What the three blocks of a placeholder are replaced by.  The inner `none` of `values` is nil. -/
def fillBlocks (first second third : Text) : Text :=
  let part := fun block => trimSpace (trimFunc (· == '\'') block)
  let colName := part first
  let defaultValue := if part second = [] then "default_".toList ++ colName else part second
  if colName = "now()".toList then granularityFunction go (part third) (go.ofTime olakeTimestamp)
  else
    match ((values (stream.resolveColumnName colName)).orElse fun _ => values colName) with
    | some (some value) => granularityFunction go (part third) value
    | _ => defaultValue

def fillPlaceholder (placeholder : Text) : Text :=
  match (trimFunc (fun c => c == '{' || c == '}') placeholder).splitOn ',' with
  | first :: second :: third :: _ => fillBlocks go stream values olakeTimestamp first second third
  | _ => []

/-- The pattern with the values of a record. -/
def fill : Text := replaceAll (fillPlaceholder go stream values olakeTimestamp) none stream.partitionRegex

def getPartitionedFilePath : Text :=
  if stream.partitionRegex = [] then stream.basePath
  else
    let result := fill go stream values olakeTimestamp
    if result = [] then stream.basePath
    else Path.join stream.basePath (if result.getLast? = some '/' then result.dropLast else result)

end Fill

end Olake.PartitionPath
