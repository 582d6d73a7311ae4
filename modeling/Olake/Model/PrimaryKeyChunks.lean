/-
Chunks along the primary key (`splitViaPrimaryKey` of drivers/mysql/internal/backfill.go
and drivers/mssql/internal/backfill.go, `buildLexicographicChunkCondition` and the
boundary queries of pkg/jdbc/jdbc.go).

The splitter walks over the table in key order and takes the key of every n-th row as a
boundary.  A key is one text, its columns joined by commas; the next query and, later,
the conditions of the chunks split it again.

The database is a parameter: in which order a column has its values, and what a column
is compared with for a literal of the condition or an argument of the walk.  Statements
are taken as valid SQL and the connection as alive.  Quoting of identifiers is left out.
-/
import Mathlib.Order.WithBot
import Olake.Lib.Lexicographic
import Olake.Lib.Ranges
import Olake.Lib.Strings

namespace Olake.PrimaryKey

open Sql Strings

variable {α : Type}

abbrev Text := List Char

/-- A value in a key column: its place in the column's order, and how the database
prints it. -/
structure Cell (α : Type) where
  key : α
  text : Text
deriving DecidableEq, Repr

/-- The key columns of a row; `none` is NULL. -/
abbrev Row (α : Type) := List (Option (Cell α))

def Row.keys (r : Row α) : List (Option α) := r.map (Option.map Cell.key)

inductive Dialect where
  | mysql
  | mssql

/-- What a column is compared with. -/
structure Database (α : Type) where
  /-- For a literal in the text of a condition. -/
  literal : Nat → Text → α
  /-- For an argument of a prepared statement. -/
  argument : Nat → Text → α

/-- A row as ORDER BY sees it: NULL comes first. -/
def Row.order (r : Row α) : List (WithBot α) :=
  r.map (fun c => c.elim ⊥ (fun cell => (cell.key : WithBot α)))

/-- A table, listed in the order of its key columns.  Only a chunk column, which stands
alone, may be NULL. -/
structure Table (α : Type) [LinearOrder α] where
  columns : Nat
  columns_pos : 0 < columns
  rows : List (Row α)
  row_length : ∀ r ∈ rows, r.length = columns
  not_null : 1 < columns → ∀ r ∈ rows, none ∉ r
  ordered : rows.Pairwise (fun r s => r.order ≤ s.order)

/-! ### Texts -/

def singleQuote : Char := Char.ofNat 39

def formatSQLLiteral (val : Text) : Text :=
  let escaped := val.flatMap (fun c => if c = singleQuote then [singleQuote, singleQuote] else [c])
  singleQuote :: escaped ++ [singleQuote]

def splitBoundaryValues (boundary : Text) : List Text :=
  (boundary.splitOn ',').map trimSpace

/-- The key of a row as one text: `CONCAT_WS(',', ..)`, which skips NULLs, or
`buildMSSQLConcat`, which is the column itself when there is one. -/
def keyText (dialect : Dialect) (r : Row α) : Option Text :=
  match dialect, r with
  | .mysql, r => some ([','].intercalate (r.filterMap (Option.map Cell.text)))
  | .mssql, [c] => c.map Cell.text
  | .mssql, r => some ([','].intercalate (r.map (fun c => c.elim [] Cell.text)))

/-! ### The condition of a chunk -/

def buildBound (columns : Nat) (values : List Text) (isLower : Bool) : List (List (Atom Text)) :=
  (List.range columns).flatMap (fun colIdx =>
    let op : Comparison :=
      if isLower then (if colIdx = columns - 1 then .ge else .gt) else .lt
    let andConds := boundGroup op (values.map formatSQLLiteral) colIdx
    if andConds = [] then [] else [andConds])

/-- `buildLexicographicChunkCondition` without an extra filter: the bounds that are
joined by AND. -/
def buildLexicographicChunkCondition (columns : Nat) (chunk : Option Text × Option Text) :
    List (List (List (Atom Text))) :=
  (chunk.1.map (fun min => buildBound columns (splitBoundaryValues min) true)).toList ++
    (chunk.2.map (fun max => buildBound columns (splitBoundaryValues max) false)).toList

variable [LinearOrder α] (db : Database α)

/-- The truth of a chunk's condition for a row. -/
def chunkTruth (columns : Nat) (r : Row α) (chunk : Option Text × Option Text) : Truth :=
  (buildLexicographicChunkCondition columns chunk).foldr
    (fun bound t => (disjunction db.literal r.keys bound).and t) (some true)

abbrev Satisfies (columns : Nat) (r : Row α) (chunk : Option Text × Option Text) : Prop :=
  chunkTruth db columns r chunk = some true

/-! ### The walk -/

/-- The arguments of the next query; SQL Server's are trimmed. -/
def walkValues (dialect : Dialect) (current : Text) : List Text :=
  match dialect with
  | .mysql => current.splitOn ','
  | .mssql => (current.splitOn ',').map trimSpace

/-- The rows behind a boundary, by the condition of `NextChunkEndQuery` and
`MSSQLNextChunkEndQuery`. -/
def rowsBehind (t : Table α) (values : List Text) : List (Row α) :=
  t.rows.filter (fun r => disjunction db.argument r.keys
    ((List.range t.columns).map (boundGroup .gt values)) = some true)

/-- `OFFSET chunkSize`, or `rn = chunkSize` with row numbers from 1. -/
def pickRow (dialect : Dialect) (chunkSize : Nat) (rows : List (Row α)) : Option (Row α) :=
  match dialect with
  | .mysql => rows[chunkSize]?
  | .mssql => if chunkSize = 0 then none else rows[chunkSize - 1]?

/-- The next boundary.  There is none if the query has too few arguments: it fails, and
`nextValRaw` stays nil. -/
def nextChunkEnd (dialect : Dialect) (t : Table α) (chunkSize : Nat)
    (current : Text) : Option Text :=
  let values := walkValues dialect current
  if values.length < t.columns then none
  else (pickRow dialect chunkSize (rowsBehind db t values)).bind (keyText dialect)

/-- The loop of `splitViaPrimaryKey`: the boundaries behind the current one.  `none` when
the loop has not ended. -/
def walk (db : Database α) (dialect : Dialect) (t : Table α) (chunkSize : Nat) :
    Nat → Text → Option (List Text)
  | 0, _ => none
  | fuel + 1, current =>
    match nextChunkEnd db dialect t chunkSize current with
    | none => some []
    | some next => (walk db dialect t chunkSize fuel next).map (next :: ·)

/-- `splitViaPrimaryKey`: the boundaries, from the smallest key on.  There are none if
the query for the smallest key gives NULL. -/
def splitViaPrimaryKey (dialect : Dialect) (t : Table α) (chunkSize fuel : Nat) :
    Option (List Text) :=
  match t.rows.head?.bind (keyText dialect) with
  | none => some []
  | some minVal => (walk db dialect t chunkSize fuel minVal).map (minVal :: ·)

/-- The chunks that `splitViaPrimaryKey` inserts: below the smallest key, between
neighbouring boundaries, and from the last one on. -/
def chunks (boundaries : List Text) : List (Option Text × Option Text) := Ranges.ranges boundaries

end Olake.PrimaryKey
