/-
Column metadata of the binlog (pkg/binlog/schema.go and filter.go).

The members of an ENUM or SET are scanned out of the text of its column type.  All characters that
the scanner compares with are single bytes, so it is written over characters.  Which numeric columns
are unsigned is in a bitmap of the table map event.
-/
import Mathlib.Data.List.DropRight

namespace Olake.Binlog

/-- The loop of `parseEnumSetMembers`. -/
def scanMembers (members : List (List Char)) (cur : List Char) : Bool → List Char → List (List Char)
  | _, [] => members
  | false, ch :: body => scanMembers members cur (ch = '\'') body
  | true, [ch] => if ch = '\'' then members ++ [cur] else members
  | true, ch :: next :: body =>
    if ch = '\\' then scanMembers members (cur ++ [next]) true body
    else if ch = '\'' ∧ next = '\'' then scanMembers members (cur ++ ['\'']) true body
    else if ch = '\'' then scanMembers (members ++ [cur]) [] false (next :: body)
    else scanMembers members (cur ++ [ch]) true (next :: body)

/-- `parseEnumSetMembers`: what is between the first `(` and the last `)`. -/
def parseEnumSetMembers (columnType : List Char) : List (List Char) :=
  match columnType.dropWhile (· ≠ '(') with
  | [] => []
  | _ :: rest =>
    if ')' ∈ rest then scanMembers [] [] false (rest.rdropWhile (· ≠ ')')).dropLast else []

inductive ColumnType where
  | tiny
  | short
  | int24
  | long
  | longlong
  | year
  | float
  | double
  | decimal
  | newdecimal
  | other (code : UInt8)

def isNumericColumn : ColumnType → Bool
  | .other _ => false
  | _ => true

/-- The loops of `unsignedMap`, from the column on that comes next, with the entries of the columns;
`c` is the mask of the next bit.  To look for a column where there is none is a panic. -/
def unsignedLoop : List ColumnType → UInt8 → List UInt8 → Nat → Option (List (Option Bool))
  | [], _, _, _ => none
  | type :: columns, field, bitmap, c =>
    let entry := if isNumericColumn type then some (decide (field.toNat &&& c ≠ 0)) else none
    let c := if isNumericColumn type then c >>> 1 else c
    if columns.isEmpty then some [entry]
    else if c ≠ 0 then (unsignedLoop columns field bitmap c).map (entry :: ·)
    else
      match bitmap with
      | [] => some [entry]
      | field :: bitmap => (unsignedLoop columns field bitmap 0x80).map (entry :: ·)

def unsignedMap (columns : List ColumnType) : List UInt8 → Option (List (Option Bool))
  | [] => some []
  | field :: bitmap => unsignedLoop columns field bitmap 0x80

end Olake.Binlog
