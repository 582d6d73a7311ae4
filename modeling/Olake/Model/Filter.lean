/-
The row filter on change records (utils/typeutils/filter.go, with the calls in
`FlattenAndCleanData` of destination/iceberg/iceberg.go and destination/parquet/parquet.go,
and the drivers' setting in constants/constants.go).

The conditions of a filter are read anew for each batch of records, against the schema
the batch is written with.  A record is then kept or dropped on its own.  How a filter
value is read as a value of its column's type and how two values compare are parameters;
a comparison of two values that the Go code cannot compare is a panic.
-/
import Olake.Lib.Strings
import Olake.Model.Changes

namespace Olake.Typeutils

variable {V : Type}

/-! ### Filters -/

inductive DataType where
  | null
  | int32
  | int64
  | float32
  | float64
  | string
  | bool
  | object
  | array
  | unknown
  | timestamp
  | timestampMilli
  | timestampMicro
  | timestampNano
deriving DecidableEq, Repr

/-- The operator of a condition.  It is a text in the configuration, and a text that is
none of the six is accepted but never holds. -/
inductive Operator where
  | eq
  | ne
  | gt
  | ge
  | lt
  | le
  | other (text : String)
deriving DecidableEq, Repr

structure FilterCondition (V : Type) where
  column : String
  operator : Operator
  value : Option V

structure FilterConfig (V : Type) where
  logicalOperator : String
  conditions : List (FilterCondition V)

/-- `parsedCondition`: the column under its name at the destination, and the value typed. -/
structure ParsedCondition (V : Type) where
  column : String
  operator : Operator
  value : Option V

inductive Failure where
  | err (text : String)
  | panic

/-- What `ParseFilterValue` can fail with: `ErrNullValue`, or another error. -/
inductive ParseError where
  | nullValue
  | other (text : String)

/-- The values: `ParseFilterValue`, and `Compare` of two values that are not nil. -/
structure Values (V : Type) where
  parseFilterValue : DataType → Option V → Except ParseError (Option V)
  compare : V → V → Option Ordering

/-! ### The schema of a batch -/

/-- The schema as `FilterRecords` gets it. -/
inductive Schema where
  /-- parquet: `Fields`, with the type of each column. -/
  | fields (columns : String → Option DataType)
  /-- iceberg: the name of each column's type. -/
  | iceberg (columns : String → Option String)
  | unsupported (goType : String)

def icebergTypeToDatatype (d : String) : DataType :=
  match d with
  | "boolean" => .bool
  | "int" => .int32
  | "long" => .int64
  | "float" => .float32
  | "double" => .float64
  | "timestamptz" => .timestampMicro
  | _ => .string

def getFilterColumnDataType (column : String) (schema : Schema) : Except Failure DataType :=
  let missing : Failure := .err ("filter column [" ++ column ++ "] missing from schema")
  match schema with
  | .fields columns =>
    match columns column with
    | none => .error missing
    | some dataType => .ok dataType
  | .iceberg columns =>
    match columns column with
    | none => .error missing
    | some icebergType => .ok (icebergTypeToDatatype icebergType)
  | .unsupported goType => .error (.err ("unsupported schema type for filtering: " ++ goType))

def parseCondition (vals : Values V) (schema : Schema) (resolve : String → String)
    (cond : FilterCondition V) : Except Failure (ParsedCondition V) :=
  let column := resolve cond.column
  match getFilterColumnDataType column schema with
  | .error failure => .error failure
  | .ok dataType =>
    match vals.parseFilterValue dataType cond.value with
    | .ok value => .ok ⟨column, cond.operator, value⟩
    | .error .nullValue => .ok ⟨column, cond.operator, none⟩
    | .error (.other text) =>
      .error (.err ("failed to parse filter value for column [" ++ column ++ "]: " ++ text))

/-- The conditions of a filter, up to the first that cannot be read. -/
def parseConditions (vals : Values V) (schema : Schema) (resolve : String → String) :
    List (FilterCondition V) → Except Failure (List (ParsedCondition V))
  | [] => .ok []
  | cond :: rest =>
    match parseCondition vals schema resolve cond with
    | .error failure => .error failure
    | .ok parsed =>
      match parseConditions vals schema resolve rest with
      | .error failure => .error failure
      | .ok conditions => .ok (parsed :: conditions)

/-! ### Deciding a record -/

/-- Whether the operator accepts the outcome of a comparison. -/
def Operator.holds (operator : Operator) (cmp : Ordering) : Bool :=
  match operator with
  | .eq => decide (cmp = .eq)
  | .ne => decide (cmp ≠ .eq)
  | .gt => decide (cmp = .gt)
  | .ge => decide (cmp ≠ .lt)
  | .lt => decide (cmp = .lt)
  | .le => decide (cmp ≠ .gt)
  | .other _ => false

/-- `evaluate`; `none` is a panic.  With a nil on either side only equality can be asked. -/
def evaluate (vals : Values V) (recordVal filterVal : Option V) (operator : Operator) :
    Option Bool :=
  match recordVal, filterVal with
  | some a, some b => (vals.compare a b).map operator.holds
  | none, none => some (decide (operator = .eq))
  | _, _ => some (decide (operator = .ne))

/-- `strings.EqualFold(strings.TrimSpace(logicalOp), "OR")`.  No other character folds to
one of these two letters. -/
def isOr (logicalOp : String) : Bool :=
  decide ((Strings.trimSpace logicalOp.toList).map Char.toLower = ['o', 'r'])

/-- `matches`: the loop ends at the first condition that settles it. -/
def matchesConditions (vals : Values V) (data : Record V) (or : Bool) :
    List (ParsedCondition V) → Option Bool
  | [] => some !or
  | c :: rest =>
    match evaluate vals (data.get c.column) c.value c.operator with
    | none => none
    | some holds => if holds = or then some or else matchesConditions vals data or rest

/-! ### FilterRecords -/

/-- A delete that passes straight through the filter. -/
def passes (keepDeletesThroughFilter : Bool) (record : RawRecord V) : Bool :=
  keepDeletesThroughFilter && decide (record.opType = .d)

/-- The records that pass, and those of the others that match, in their order. -/
def keepRecords (vals : Values V) (conditions : List (ParsedCondition V)) (logicalOp : String)
    (keepDeletesThroughFilter : Bool) : List (RawRecord V) → Except Failure (List (RawRecord V))
  | [] => .ok []
  | record :: rest =>
    let keep :=
      if passes keepDeletesThroughFilter record then some true
      else matchesConditions vals record.data (isOr logicalOp) conditions
    match keep, keepRecords vals conditions logicalOp keepDeletesThroughFilter rest with
    | none, _ => .error .panic
    | _, .error failure => .error failure
    | some true, .ok filtered => .ok (record :: filtered)
    | some false, .ok filtered => .ok filtered

def FilterRecords (vals : Values V) (records : List (RawRecord V)) (filter : FilterConfig V)
    (isLegacy : Bool) (schema : Schema) (resolve : String → String)
    (keepDeletesThroughFilter : Bool) : Except Failure (List (RawRecord V)) :=
  if filter.conditions.isEmpty then .ok records
  else if isLegacy then .ok records
  -- nothing is left to filter, and the conditions are not even read
  else if records.all (passes keepDeletesThroughFilter) then .ok records
  else
    match parseConditions vals schema resolve filter.conditions with
    | .error failure => .error failure
    | .ok conditions =>
      keepRecords vals conditions filter.logicalOperator keepDeletesThroughFilter records

/-! ### The drivers -/

inductive DriverType where
  | mongoDB
  | postgres
  | mySQL
  | oracle
  | db2
  | s3
  | kafka
  | mssql
deriving DecidableEq, Repr

def CDCKeepDeletesThroughFilterDrivers : List DriverType := [.kafka]

/-- A batch of records with the schema it is filtered by. -/
structure Batch (V : Type) where
  schema : Schema
  records : List (RawRecord V)

/-- The records that survive the filter of a stream's change writer, batch by batch. -/
def survivors (vals : Values V) (driver : DriverType) (filter : FilterConfig V) (isLegacy : Bool)
    (resolve : String → String) : List (Batch V) → Except Failure (List (RawRecord V))
  | [] => .ok []
  | batch :: rest =>
    match FilterRecords vals batch.records filter isLegacy batch.schema resolve
        (decide (driver ∈ CDCKeepDeletesThroughFilterDrivers)) with
    | .error failure => .error failure
    | .ok filtered =>
      match survivors vals driver filter isLegacy resolve rest with
      | .error failure => .error failure
      | .ok others => .ok (filtered ++ others)

end Olake.Typeutils
