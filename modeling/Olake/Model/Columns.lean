/-
The columns of a stream (types/stream_configured.go, `Reformat` of utils/utils.go): what they are
called at the destination, and which of them are selected.

A set of columns is the list of its elements.  `strings.ToLower` goes rune by rune, and what it
makes of a rune is a parameter.
-/
import Olake.Model.Changes

namespace Olake.ColumnNames

variable (toLower : Char → Char)

def IsLetterOrNumber (symbol : Char) : Bool :=
  ('a' ≤ symbol && symbol ≤ 'z') || ('A' ≤ symbol && symbol ≤ 'Z') || ('0' ≤ symbol && symbol ≤ '9')

def Reformat (key : String) : String :=
  String.ofList ((key.toList.map toLower).map fun symbol =>
    if IsLetterOrNumber symbol then symbol else '_')

structure SelectedColumns where
  Columns : List String
  SyncNewColumns : Bool

/-- What a configured stream says of its columns. -/
structure ConfiguredStream where
  /-- The columns of the schema. -/
  Properties : List String
  UseSourceColumnNames : Bool
  /-- `none` in older catalogs. -/
  SelectedColumns : Option SelectedColumns

namespace ConfiguredStream

variable (s : ConfiguredStream)

def ResolveColumnName (key : String) : String :=
  if s.UseSourceColumnNames then key else Reformat toLower key

def GetUnSelectedColumnsSet (columns : List String) : List String :=
  if columns = [] then [] else s.Properties.filter (· ∉ columns)

/-- `RetainSelectedColumns`, applied to a record. -/
def RetainSelectedColumns {V : Type} (data : Record V) : Record V :=
  match s.SelectedColumns with
  | none => data
  | some selected =>
    if selected.Columns = [] then data
    else if selected.SyncNewColumns then
      data.filter fun (col, _) => col ∉ s.GetUnSelectedColumnsSet selected.Columns
    else data.filter fun (col, _) => col ∈ selected.Columns

/-- `IsSelectedColumn`, applied to a name at the destination. -/
def IsSelectedColumn (col : String) : Bool :=
  match s.SelectedColumns with
  | none => true
  | some selected =>
    if selected.Columns = [] then true
    else if selected.SyncNewColumns then
      col ∉ (s.GetUnSelectedColumnsSet selected.Columns).map (s.ResolveColumnName toLower)
    else col ∈ selected.Columns.map (s.ResolveColumnName toLower)

end ConfiguredStream

end Olake.ColumnNames
