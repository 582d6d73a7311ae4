/-
Records of parquet files (drivers/s3/internal/pkg/parser/parquet.go).

A flat row group is read column by column, any other one row by row.  Nested fields of a row come
from `schema.Reconstruct`, which assembles Go slices and maps with raw values at the leaves, and
`convertReconstructed` walks what was assembled alongside the schema.  The conversion of a single
value, `parquetValueToInterfaceWithType`, is a parameter, and so is the text of a raw value.
-/
import Mathlib.Data.Fin.Basic
import Mathlib.Logic.Embedding.Basic

namespace Olake.Parser

inductive Any (Leaf : Type) where
  | nil
  | leaf (x : Leaf)
  | slice (n : Nat) (element : Fin n → Any Leaf)
  | map (n : Nat) (key : Fin n ↪ String) (entry : Fin n → Any Leaf)

/-- The annotations of a group that are looked at. -/
inductive LogicalType where
  | list
  | map

/-- A node of a schema: a leaf of a type, or a group of named fields. -/
inductive Node (T : Type) where
  | leaf (type : T) (repeated : Bool)
  | group (logical : Option LogicalType) (repeated : Bool) (fields : List (String × Node T))

variable {T Leaf : Type}

def fieldByName : Node T → String → Option (Node T)
  | .leaf _ _, _ => none
  | .group _ _ fields, name => fields.lookup name

/-- The field `inner` of the field `outer`, or where there is none the field `inner'` of `outer'`. -/
def nestedField (node : Node T) (outer inner outer' inner' : String) : Option (Node T) :=
  ((fieldByName node outer).bind (fieldByName · inner)).or
    ((fieldByName node outer').bind (fieldByName · inner'))

def listElementNode (node : Node T) : Option (Node T) :=
  nestedField node "list" "element" "list" "item"

def mapValueNode (node : Node T) : Option (Node T) :=
  nestedField node "key_value" "value" "map" "value"

/-- `normalizeReconstructed`, where `text` is what becomes of a raw value. -/
def normalizeReconstructed (text : Leaf → Leaf) : Any Leaf → Any Leaf
  | .nil => .nil
  | .leaf x => .leaf (text x)
  | .slice n element => .slice n fun i => normalizeReconstructed text (element i)
  | .map n key entry => .map n key fun i => normalizeReconstructed text (entry i)

/-- `convertLeafNode`: a repeated leaf is assembled into a slice. -/
def convertLeafNode (convert : Any Leaf → Any Leaf) : Any Leaf → Any Leaf
  | .nil => .nil
  | .slice n element => .slice n fun i => convertLeafNode convert (element i)
  | value => convert value

/-- `convertListNode`, with the conversion for the element node if there is one. -/
def convertListNode (text : Leaf → Leaf) (element : Option (Any Leaf → Any Leaf)) :
    Any Leaf → Any Leaf
  | .slice n elements =>
    match element with
    | some convert => .slice n fun i => convert (elements i)
    | none => normalizeReconstructed text (.slice n elements)
  | value => normalizeReconstructed text value

/-- `convertMapNode`, with the conversion for the value node if there is one. -/
def convertMapNode (text : Leaf → Leaf) (value : Option (Any Leaf → Any Leaf)) :
    Any Leaf → Any Leaf
  | .map n key entry =>
    match value with
    | some convert => .map n key fun i => convert (entry i)
    | none => normalizeReconstructed text (.map n key entry)
  | value => normalizeReconstructed text value

/-- `convertStructNode`, with the conversions for the fields, which are made one after another.
The elements of a repeated struct come back through `convertReconstructed`, with the same node. -/
def convertStructNode (text : Leaf → Leaf) (repeated : Bool)
    (fields : List (String × (Any Leaf → Any Leaf))) : Any Leaf → Any Leaf
  | .nil => .nil
  | .slice n element =>
    if repeated then .slice n fun i => convertStructNode text repeated fields (element i)
    else normalizeReconstructed text (.slice n element)
  | .map n key entry =>
    .map n key (fields.foldl (fun entry field i =>
      if key i = field.1 then field.2 (entry i) else entry i) entry)
  | .leaf x => .leaf (text x)

theorem sizeOf_of_mem {field : String × Node T} (h : field ∈ fields) :
    sizeOf field.2 < sizeOf (Node.group logical repeated fields) := by
  have hlt := List.sizeOf_lt_of_mem h
  obtain ⟨name, node⟩ := field
  simp only [Prod.mk.sizeOf_spec, Node.group.sizeOf_spec] at hlt ⊢
  omega

theorem sizeOf_fieldByName {node field : Node T}
    (h : fieldByName node name = some field) : sizeOf field < sizeOf node := by
  cases node with
  | leaf => cases h
  | group logical repeated fields =>
    obtain ⟨before, after, rfl, -⟩ := List.lookup_eq_some_iff.1 h
    have hmem : (name, field) ∈ before ++ (name, field) :: after := by simp
    exact sizeOf_of_mem hmem

theorem sizeOf_nestedField {node field : Node T} {inner : String}
    (h : nestedField node outer inner outer' inner' = some field) : sizeOf field < sizeOf node := by
  rcases Option.or_eq_some_iff.1 h with h | ⟨-, h⟩
  all_goals
    obtain ⟨group, hgroup, hfield⟩ := Option.bind_eq_some_iff.1 h
    exact (sizeOf_fieldByName hfield).trans (sizeOf_fieldByName hgroup)

def convertReconstructed (convert : T → Any Leaf → Any Leaf) (text : Leaf → Leaf)
    (value : Any Leaf) (node : Node T) : Any Leaf :=
  match value with
  | .nil => .nil
  | value =>
    match node with
    | .leaf type _ => convertLeafNode (convert type) value
    | .group (some .list) repeated fields =>
      convertListNode text ((listElementNode (.group (some .list) repeated fields)).attach.map
        fun element entry => convertReconstructed convert text entry element.1) value
    | .group (some .map) repeated fields =>
      convertMapNode text ((mapValueNode (.group (some .map) repeated fields)).attach.map
        fun value entry => convertReconstructed convert text entry value.1) value
    | .group none repeated fields =>
      convertStructNode text repeated (fields.attach.map fun field =>
        (field.1.1, fun entry => convertReconstructed convert text entry field.1.2)) value
termination_by sizeOf node
decreasing_by
  · exact sizeOf_nestedField element.2
  · exact sizeOf_nestedField value.2
  · exact sizeOf_of_mem field.2

/-! ### Rows -/

/-- A record is a Go map. -/
abbrev Record (Leaf : Type) := String → Option (Any Leaf)

def Record.set (record : Record Leaf) (name : String) (value : Any Leaf) : Record Leaf :=
  Function.update record name (some value)

/-- The values of a row with their columns. -/
abbrev Row (Leaf : Type) := List (Nat × Any Leaf)

def isMultiValued : Node T → Bool
  | .leaf _ repeated => repeated
  | .group _ _ _ => true

def leafCount : Node T → Nat
  | .leaf _ _ => 1
  | .group _ _ fields => fields.attach.foldl (fun count field => count + leafCount field.1.2) 0
termination_by node => sizeOf node
decreasing_by exact sizeOf_of_mem field.2

/-- The plain field that owns a leaf column, as `newRowDecoder` computes it; -1 is `none`. -/
def colToField (fields : List (String × Node T)) : List (Option Nat) :=
  fields.zipIdx.flatMap fun (field, i) =>
    if isMultiValued field.2 then List.replicate (leafCount field.2) none else [some i]

section Stream

variable (convert : T → Any Leaf → Any Leaf) (text : Leaf → Leaf)
  (reconstruct : Row Leaf → Option (String → Any Leaf)) (fields : List (String × Node T))

/-- The value of a plain field; a group has no type to convert by. -/
def convertPlain (value : Any Leaf) : Node T → Any Leaf
  | .leaf type _ => convert type value
  | .group _ _ _ => value

/-- `decode`; `none` is an error of `Reconstruct`. -/
def decode (row : Row Leaf) : Option (Record Leaf) :=
  let groups := if fields.any (isMultiValued ·.2) then reconstruct row else some fun _ => .nil
  groups.map fun groups =>
    let record := fields.foldl (fun record field => Record.set record field.1
      (if isMultiValued field.2 then convertReconstructed convert text (groups field.1) field.2
        else .nil)) (fun _ => none)
    row.foldl (fun record value =>
      match ((colToField fields)[value.1]?.join).bind (fields[·]?) with
      | some field => Record.set record field.1 (convertPlain convert value.2 field.2)
      | none => record) record

inductive StreamError where
  | context
  | decode
  | callback
  | read

variable (cancelled : Nat → Bool) (callback : Record Leaf → Bool)

/-- What both loops do with the records: those handed to the callback, and the error.  The context
is looked at before every thousandth record. -/
def process (recordCount : Nat) :
    List (Option (Record Leaf)) → List (Record Leaf) × Option StreamError
  | [] => ([], none)
  | record :: rest =>
    if recordCount % 1000 = 0 && cancelled recordCount then ([], some .context)
    else
      match record with
      | none => ([], some .decode)
      | some record =>
        if callback record then
          let (records, error) := process (recordCount + 1) rest
          (record :: records, error)
        else ([record], some .callback)

/-- How a call of `ReadRows` ends besides the rows it returns. -/
inductive ReadErr where
  | nil
  | eof
  | failed

/-- `streamRowGroupRows`, over the calls of `ReadRows`. -/
def streamRowGroupRows (recordCount : Nat) :
    List (List (Row Leaf) × ReadErr) → List (Record Leaf) × Option StreamError
  | [] => ([], none)
  | (rows, readErr) :: reads =>
    match process cancelled callback recordCount
        (rows.map (decode convert text reconstruct fields)), readErr with
    | (records, some error), _ => (records, some error)
    | (records, none), .eof => (records, none)
    | (records, none), .failed => (records, some .read)
    | (records, none), .nil =>
      let (more, error) := streamRowGroupRows (recordCount + records.length) reads
      (records ++ more, error)

/-- `readColumnValues`; a page that cannot be read is `none`. -/
def readColumnValues (pages : List (Option (List (Any Leaf)))) : Option (List (Any Leaf)) :=
  pages.foldlM (fun values page => page.map (values ++ ·)) []

/-- `streamRowGroupColumns`. -/
def streamRowGroupColumns (recordCount numRows : Nat)
    (columnChunks : List (List (Option (List (Any Leaf))))) :
    List (Record Leaf) × Option StreamError :=
  match columnChunks.mapM readColumnValues with
  | none => ([], some .read)
  | some columnData =>
    process cancelled callback recordCount ((List.range numRows).map fun rowIdx =>
      some (fields.zipIdx.foldl (fun record (field, colIdx) =>
        Record.set record field.1
          (match columnData[colIdx]?.bind (·[rowIdx]?) with
          | some value => convertPlain convert value field.2
          | none => .nil)) (fun _ => none)))

end Stream

end Olake.Parser
