/-
The WHERE clause of a stream's filter (`SQLFilter` of pkg/jdbc/jdbc.go) for structured filters,
and what a database makes of it.

The clause is kept as the list of its conditions with the text between them; quoting of
identifiers and the escaping of text literals, which the database undoes, are left out, and so
is the branch for legacy filters.  A database evaluates it in three-valued logic (Lib.Sql).
It may refuse a clause: for a connective or an operator it does not know, or because a literal
cannot be compared with the column.
-/
import Olake.Model.Jdbc
import Olake.Model.Reformat

namespace Olake.SqlFilter

open Typeutils Sql

/-! ### Literals -/

/-- The Go types a filter value can have, with what is printed of it. -/
inductive FilterValue where
  | string (v : String)
  | bool (v : Bool)
  | int (v : Int)
  | int64 (v : Int)
  /-- `strconv.FormatFloat(v, 'f', -1, 64)`. -/
  | float64 (text : String)
  /-- `fmt.Sprint` of anything else. -/
  | other (text : String)

/-- The type switch on a value that is not nil. -/
def filterValue {go : GoLib} (conv : Conversions go) (formatFloat : go.Float64 → String) :
    Typeutils.Value go → FilterValue
  | .string v => .string v
  | .bool v => .bool v
  | .int .int v => .int v
  | .int .int64 v => .int64 v
  | .float64 v => .float64 (formatFloat v)
  | v => .other (conv.text v)

/-- Values of the process, given `Compare`. -/
def goValues {go : GoLib} (conv : Conversions go)
    (compare : Typeutils.Value go → Typeutils.Value go → Option Ordering) :
    Values (Typeutils.Value go) :=
  ⟨ParseFilterValue conv, compare⟩

inductive Literal where
  /-- A text in quotes. -/
  | text (s : String)
  /-- `TO_TIMESTAMP('..', 'YYYY-MM-DD HH24:MI:SS.FF')`. -/
  | toTimestamp (s : String)
  /-- `TIMESTAMP('..')`. -/
  | timestamp (s : String)
  /-- A number or a keyword, as it is. -/
  | plain (s : String)
deriving DecidableEq, Repr

/-- `time.Parse(time.RFC3339, ..)`, and `UTC().Format` with three and with six digits after the
second. -/
structure Times where
  Time : Type
  parse : String → Option Time
  formatMilli : Time → String
  formatMicro : Time → String

def formatFilterBoolValue (driver : Jdbc.DriverType) (value : Bool) : String :=
  if driver = .mssql then if value then "1" else "0"
  else if value then "TRUE" else "FALSE"

/-- The text looks like a timestamp of ISO 8601; the length is counted in bytes. -/
def isISO8601 (v : String) : Bool :=
  v.toList.contains 'T' &&
    (v.toList.contains 'Z' || v.toList.contains '+' || (v.toList.contains '-' && 19 < v.utf8ByteSize))

def formatValue (times : Times) (driver : Jdbc.DriverType) : FilterValue → Literal
  | .string v =>
    match (if isISO8601 v then times.parse v else none), driver with
    | some t, .oracle => .toTimestamp (times.formatMilli t)
    | some t, .db2 => .timestamp (times.formatMicro t)
    | _, _ => .text v
  | .bool v => .plain (formatFilterBoolValue driver v)
  | .int v => .plain (toString v)
  | .int64 v => .plain (toString v)
  | .float64 text => .plain text
  | .other text => .text text

/-! ### The clause -/

inductive Condition where
  | isNull (column : String)
  | isNotNull (column : String)
  | cmp (column : String) (operator : Operator) (literal : Literal)

def operatorText : Operator → String
  | .eq => "="
  | .ne => "!="
  | .gt => ">"
  | .ge => ">="
  | .lt => "<"
  | .le => "<="
  | .other text => text

section Build

variable {V : Type} (times : Times) (value : V → FilterValue) (driver : Jdbc.DriverType)

def buildCondition (cond : FilterCondition V) : Except String Condition :=
  match cond.value with
  | none =>
    match cond.operator with
    | .eq => .ok (.isNull cond.column)
    | .ne => .ok (.isNotNull cond.column)
    | operator => .error ("operator " ++ operatorText operator ++ " not supported with NULL")
  | some v => .ok (.cmp cond.column cond.operator (formatValue times driver (value v)))

/-- The conditions of a filter, up to the first that cannot be built. -/
def buildConditions : List (FilterCondition V) → Except String (List Condition)
  | [] => .ok []
  | cond :: rest =>
    match buildCondition times value driver cond with
    | .error text => .error text
    | .ok condition =>
      match buildConditions rest with
      | .error text => .error text
      | .ok conditions => .ok (condition :: conditions)

/-- The clause: `thresholdFilter`, if there is one, and the conditions with the text between
them. -/
structure Where (T : Type) where
  threshold : Option T
  conditions : List Condition
  logicalOperator : String

/-- `SQLFilter` of a structured filter. -/
def SQLFilter {T : Type} (filter : FilterConfig V) (thresholdFilter : Option T) :
    Except String (Where T) :=
  match buildConditions times value driver filter.conditions with
  | .error text => .error text
  | .ok conditions => .ok ⟨thresholdFilter, conditions, filter.logicalOperator⟩

end Build

/-! ### Its meaning -/

/-- A database: how a value of a column compares with a literal, if it does at all, and the
operators it has besides the six. -/
structure Database (V : Type) where
  compare : String → V → Literal → Option Ordering
  operator : String → Option (Ordering → Bool)

variable {V T : Type} (db : Database V)

/-- Whether the operator accepts the outcome of a comparison; `none`: there is no such
operator. -/
def Database.holds : Operator → Option (Ordering → Bool)
  | .other text => db.operator text
  | operator => some operator.holds

/-- The truth of a condition at a row; `none`: the database refuses it. -/
def Condition.eval (row : String → Option V) : Condition → Option Truth
  | .isNull column => some (some (row column).isNone)
  | .isNotNull column => some (some (row column).isSome)
  | .cmp column operator literal =>
    match db.holds operator, row column with
    | none, _ => none
    | some _, none => some none
    | some holds, some a => (db.compare column a literal).map (fun ord => some (holds ord))

/-- The connective that a text is in SQL: `OR` (true) or `AND`, in any case. -/
def connective (text : String) : Option Bool :=
  let lower := text.toList.map Char.toLower
  if lower = ['o', 'r'] then some true else if lower = ['a', 'n', 'd'] then some false else none

def evalAll (row : String → Option V) (or : Bool) : List Condition → Option Truth
  | [] => some (some !or)
  | c :: rest =>
    match c.eval db row, evalAll row or rest with
    | some t, some t' => some (if or then t.or t' else t.and t')
    | _, _ => none

/-- The truth of a clause; one condition needs no connective. -/
def Where.eval (row : String → Option V) (threshold : T → Option Truth) (w : Where T) : Option Truth :=
  let filter : Option Truth :=
    match w.conditions with
    | [] => some (some true)
    | [c] => c.eval db row
    | conditions => (connective w.logicalOperator).bind (fun or => evalAll db row or conditions)
  match w.threshold with
  | none => filter
  | some t => (threshold t).bind (fun t => filter.map t.and)

end Olake.SqlFilter
