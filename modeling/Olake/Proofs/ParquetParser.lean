/-
Parquet records: nested values are converted leaf by leaf, and the two ways of reading a flat row
group agree.

A schema of structs, standard lists, maps and optional fields says what its values are
(`Schema.Value`), which node `parquet-go` makes of it (`Schema.node`), and how a value is laid out
in Go (`assemble`).  Reconstruction lays a value out with raw leaves, and the conversion of that
is the same layout with every leaf converted by the type of its own column.

A flat row group is read in columns, each in pages of its own.  The record of a row is the same
fold over the columns either way (`RowGroup.record`, `decode_row`).
-/
import Mathlib.Data.List.FinRange
import Olake.Model.ParquetParser

namespace Olake.Parser

open List

/-- A schema; the element of a list and the group of a map have two names each. -/
inductive Schema (T : Type) where
  | leaf (type : T)
  | struct (n : Nat) (name : Fin n ↪ String) (field : Fin n → Schema T)
  | list (item : Bool) (element : Schema T)
  | map (legacy : Bool) (key value : Schema T)
  | optional (schema : Schema T)

variable {T Leaf : Type}

/-- That a field is optional is not looked at. -/
def Schema.node : Schema T → Node T
  | .leaf type => .leaf type false
  | .struct _ name field => .group none false (ofFn fun i => (name i, (field i).node))
  | .list item element =>
    .group (some .list) false
      [("list", .group none true [(if item then "item" else "element", element.node)])]
  | .map legacy key value =>
    .group (some .map) false
      [(if legacy then "map" else "key_value",
        .group none true [("key", key.node), ("value", value.node)])]
  | .optional schema => schema.node

/-- The values of a schema.  The keys of a map are texts in Go whatever their column is. -/
def Schema.Value (Leaf : Type) : Schema T → Type
  | .leaf _ => Leaf
  | .struct n _ field => (i : Fin n) → (field i).Value Leaf
  | .list _ element => (n : Nat) × (Fin n → element.Value Leaf)
  | .map _ _ value => (n : Nat) × (Fin n ↪ String) × (Fin n → value.Value Leaf)
  | .optional schema => Option (schema.Value Leaf)

/-- A value laid out in Go, with `leaf` at its leaves. -/
def assemble (leaf : T → Leaf → Any Leaf) : (schema : Schema T) → schema.Value Leaf → Any Leaf
  | .leaf type, x => leaf type x
  | .struct n name field, v => .map n name fun i => assemble leaf (field i) (v i)
  | .list _ element, v => .slice v.1 fun i => assemble leaf element (v.2 i)
  | .map _ _ value, v => .map v.1 v.2.1 fun i => assemble leaf value (v.2.2 i)
  | .optional _, none => .nil
  | .optional schema, some v => assemble leaf schema v

/-- The fields of a struct are converted one after another, each its own entry. -/
theorem foldl_entries (key : Fin n ↪ String) (convert : Fin n → Any Leaf → Any Leaf)
    (fields : List (Fin n)) (hnodup : fields.Nodup) (entry : Fin n → Any Leaf) :
    (fields.map fun i => (key i, convert i)).foldl (fun entry field i =>
        if key i = field.1 then field.2 (entry i) else entry i) entry
      = fun i => if i ∈ fields then convert i (entry i) else entry i := by
  induction fields generalizing entry with
  | nil => simp
  | cons j fields ih =>
    obtain ⟨hj, hnodup⟩ := nodup_cons.1 hnodup
    rw [map_cons, foldl_cons, ih hnodup]
    funext i
    by_cases hij : i = j
    · subst hij
      simp [hj]
    · simp [hij]

variable (convert : T → Any Leaf → Any Leaf) (text : Leaf → Leaf)

/-- **Converting a reconstructed value converts its leaves.** -/
theorem convertReconstructed_assemble (schema : Schema T) (v : schema.Value Leaf) :
    convertReconstructed convert text (assemble (fun _ => .leaf) schema v) schema.node
      = assemble (fun type x => convert type (.leaf x)) schema v := by
  induction schema with
  | leaf type => simp [assemble, Schema.node, convertReconstructed, convertLeafNode]
  | struct n name field ih =>
    have hfields : (ofFn fun i => (name i, (field i).node)).attach.map (fun field =>
          (field.1.1, fun entry => convertReconstructed convert text entry field.1.2))
        = (finRange n).map fun i =>
            (name i, fun entry => convertReconstructed convert text entry (field i).node) := by
      rw [attach_map_val (f := fun field : String × Node T =>
        (field.1, fun entry => convertReconstructed convert text entry field.2)), ofFn_eq_map, map_map]
      rfl
    simp only [assemble, Schema.node, convertReconstructed, convertStructNode]
    rw [hfields, foldl_entries name _ _ (nodup_finRange n)]
    simp [ih]
  | list item element ih =>
    have hnode : listElementNode (Schema.list item element).node = some element.node := by
      cases item <;> rfl
    simp only [Schema.node] at hnode
    simp only [assemble, Schema.node, convertReconstructed]
    rw [hnode]
    simp [convertListNode, ih]
  | map legacy key value _ ih =>
    have hnode : mapValueNode (Schema.map legacy key value).node = some value.node := by
      cases legacy <;> rfl
    simp only [Schema.node] at hnode
    simp only [assemble, Schema.node, convertReconstructed]
    rw [hnode]
    simp [convertMapNode, ih]
  | optional schema ih =>
    cases v with
    | none => simp [assemble, convertReconstructed]
    | some v => exact ih v

/-! ### Flat row groups -/

/-- A column of a flat schema with the pages of its chunk; nulls are values like others. -/
structure Column (T Leaf : Type) where
  name : String
  type : T
  pages : List (List (Any Leaf))

def Column.field (column : Column T Leaf) : String × Node T := (column.name, .leaf column.type false)

def Column.value (column : Column T Leaf) (rowIdx : Nat) : Any Leaf :=
  column.pages.flatten[rowIdx]?.getD .nil

/-- A row group with a flat schema: each column has a value for each row, however they are paged. -/
structure RowGroup (T Leaf : Type) where
  columns : List (Column T Leaf)
  numRows : Nat
  aligned : ∀ column ∈ columns, column.pages.flatten.length = numRows

variable (group : RowGroup T Leaf)

def RowGroup.fields : List (String × Node T) :=
  group.columns.map Column.field

/-- The chunks of the columns, with pages that can be read. -/
def RowGroup.chunks : List (List (Option (List (Any Leaf)))) :=
  group.columns.map fun column => column.pages.map some

def RowGroup.row (rowIdx : Nat) : Row Leaf :=
  group.columns.zipIdx.map fun column => (column.2, column.1.value rowIdx)

/-- The calls of `ReadRows` for a row group: batches of any size, and EOF with the last. -/
structure RowReads where
  batches : List (List (Row Leaf))
  last : List (Row Leaf)
  whole : batches.flatten ++ last = (range group.numRows).map group.row

def RowReads.reads {group : RowGroup T Leaf} (r : RowReads group) :
    List (List (Row Leaf) × ReadErr) :=
  r.batches.map (·, .nil) ++ [(r.last, .eof)]

/-- The record that the columns give for a row. -/
def RowGroup.record (rowIdx : Nat) : Record Leaf :=
  group.columns.zipIdx.foldl (fun record column =>
    record.set column.1.name (convert column.1.type (column.1.value rowIdx))) (fun _ => none)

/-- Records that differ only in fields that are set are the same afterwards. -/
theorem foldl_set_congr {α : Type} (name : α → String) (value : α → Any Leaf) (l : List α)
    {r r' : Record Leaf} (h : ∀ k ∉ l.map name, r k = r' k) :
    l.foldl (fun r a => r.set (name a) (value a)) r = l.foldl (fun r a => r.set (name a) (value a)) r' := by
  induction l generalizing r r' with
  | nil => exact funext fun k => h k not_mem_nil
  | cons a l ih =>
    refine ih fun k hk => ?_
    by_cases hka : k = name a
    · simp [Record.set, hka]
    · simpa [Record.set, hka] using h k (by simp [hka, hk])

theorem foldl_set_of_notMem {α : Type} (name : α → String) (value : α → Any Leaf) (l : List α)
    (r : Record Leaf) (hk : k ∉ l.map name) : l.foldl (fun r a => r.set (name a) (value a)) r k = r k := by
  induction l generalizing r with
  | nil => rfl
  | cons a l ih =>
    simp only [map_cons, mem_cons, not_or] at hk
    rw [foldl_cons, ih _ hk.2]
    simp [Record.set, hk.1]

variable (group : RowGroup T Leaf) (reconstruct : Row Leaf → Option (String → Any Leaf))
  (cancelled : Nat → Bool) (callback : Record Leaf → Bool)

theorem getElem?_colToField (col : Nat) :
    (colToField group.fields)[col]? = group.columns[col]?.map fun _ => some col := by
  have heq : colToField group.fields = group.columns.zipIdx.map fun column => some column.2 := by
    rw [map_eq_flatMap]
    simp [colToField, RowGroup.fields, zipIdx_map, flatMap_map, Column.field, isMultiValued]
  rw [heq]
  simp [Function.comp_def]

theorem decode_row (rowIdx : Nat) :
    decode convert text reconstruct group.fields (group.row rowIdx) = some (group.record convert rowIdx) := by
  have hflat : group.fields.any (isMultiValued ·.2) = false := by
    simp [RowGroup.fields, Column.field, isMultiValued]
  simp only [decode, hflat, Bool.false_eq_true, if_false, Option.map_some, Option.some.injEq, RowGroup.row,
    foldl_map]
  refine (foldl_ext _ (fun record column =>
    record.set column.1.name (convert column.1.type (column.1.value rowIdx))) _ ?_).trans
    (foldl_set_congr (fun column : Column T Leaf × Nat => column.1.name) _ _ fun k hk => ?_)
  · rintro record ⟨column, col⟩ hmem
    have hcolumn : group.columns[col]? = some column := mem_zipIdx_iff_getElem?.1 hmem
    have hfield : group.fields[col]? = some column.field := by simp [RowGroup.fields, hcolumn]
    simp [getElem?_colToField, hcolumn, hfield, Column.field, convertPlain]
  · refine foldl_set_of_notMem Prod.fst _ _ _ ?_
    rw [show (fun column : Column T Leaf × Nat => column.1.name) = Column.name ∘ Prod.fst from rfl,
      ← map_map] at hk
    simpa [RowGroup.fields, Column.field] using hk

theorem readColumnValues_pages (pages : List (List (Any Leaf))) :
    readColumnValues (pages.map some) = some pages.flatten := by
  have happend : ∀ values : List (Any Leaf), (pages.map some).foldlM (fun values page => page.map (values ++ ·))
      values = some (values ++ pages.flatten) := by
    induction pages with
    | nil => simp
    | cons page pages ih => simp [ih]
  exact happend []

theorem process_append (recordCount : Nat) (l l' : List (Option (Record Leaf))) :
    process cancelled callback recordCount (l ++ l') =
      match process cancelled callback recordCount l with
      | (records, some error) => (records, some error)
      | (records, none) =>
        let (more, error) := process cancelled callback (recordCount + records.length) l'
        (records ++ more, error) := by
  fun_induction process cancelled callback recordCount l with
  | case1 => simp
  | case2 => simp_all [process]
  | case3 => simp_all [process]
  | case4 recordCount rest hctx record hcall records error heq ih =>
    rw [cons_append, process, if_neg hctx]
    simp only [hcall, ih]
    cases error <;> simp [heq, Nat.add_assoc, Nat.add_comm 1]
  | case5 => simp_all [process]

theorem streamRowGroupRows_reads (fields : List (String × Node T))
    (batches : List (List (Row Leaf))) (last : List (Row Leaf)) (recordCount : Nat) :
    streamRowGroupRows convert text reconstruct fields cancelled callback recordCount
        (batches.map (·, .nil) ++ [(last, .eof)])
      = process cancelled callback recordCount
          ((batches.flatten ++ last).map (decode convert text reconstruct fields)) := by
  induction batches generalizing recordCount with
  | nil =>
    simp only [map_nil, nil_append, streamRowGroupRows, flatten_nil]
    generalize process cancelled callback recordCount _ = out
    rcases out with ⟨records, _ | error⟩ <;> rfl
  | cons batch batches ih =>
    rw [flatten_cons, append_assoc, map_append, process_append]
    simp only [map_cons, cons_append, streamRowGroupRows, ih]
    generalize process cancelled callback recordCount _ = out
    rcases out with ⟨records, _ | error⟩ <;> rfl

/-- **Both ways of reading a flat row group hand over the same records.** -/
theorem streamRowGroupColumns_eq_rows (recordCount : Nat) (r : RowReads group) :
    streamRowGroupColumns convert group.fields cancelled callback recordCount group.numRows group.chunks
      = streamRowGroupRows convert text reconstruct group.fields cancelled callback recordCount r.reads := by
  have hchunks : group.chunks.mapM readColumnValues
      = some (group.columns.map fun column => column.pages.flatten) := by
    unfold RowGroup.chunks
    generalize group.columns = columns
    induction columns with
    | nil => rfl
    | cons column columns ih => simp [readColumnValues_pages, ih]
  rw [RowReads.reads, streamRowGroupRows_reads, r.whole, map_map, streamRowGroupColumns, hchunks]
  refine congrArg _ (map_congr_left fun rowIdx hrow => ?_)
  rw [Function.comp_apply, decode_row, RowGroup.fields, zipIdx_map, foldl_map]
  refine congrArg some (foldl_ext _ _ _ ?_)
  rintro record ⟨column, col⟩ hmem
  have hcolumn : group.columns[col]? = some column := mem_zipIdx_iff_getElem?.1 hmem
  have hlen : rowIdx < column.pages.flatten.length := by
    rw [group.aligned column (mem_of_getElem? hcolumn)]
    exact mem_range.1 hrow
  simp [hcolumn, Column.field, Column.value, convertPlain, getElem?_eq_getElem hlen]

/-- Three rows in two columns, which are paged differently, with a null. -/
def pagedGroup : RowGroup Unit Nat where
  columns := [⟨"id", (), [[.leaf 1], [.leaf 2, .leaf 3]]⟩, ⟨"name", (), [[.leaf 10, .nil], [.leaf 30]]⟩]
  numRows := 3
  aligned := by simp

/-- Two rows with the first call of `ReadRows`, and the last row with the second. -/
def twoReads : RowReads pagedGroup where
  batches := [[pagedGroup.row 0, pagedGroup.row 1]]
  last := [pagedGroup.row 2]
  whole := rfl

theorem streamRowGroupColumns_eq_rows_paged :
    let out := streamRowGroupColumns (fun _ value => value) pagedGroup.fields (fun _ => false) (fun _ => true)
      0 pagedGroup.numRows pagedGroup.chunks;
    out = streamRowGroupRows (fun _ value => value) id (fun _ => none) pagedGroup.fields (fun _ => false)
        (fun _ => true) 0 twoReads.reads ∧
      out.1.map (· "id") = [some (.leaf 1), some (.leaf 2), some (.leaf 3)] ∧
      out.1.map (· "name") = [some (.leaf 10), some .nil, some (.leaf 30)] :=
  ⟨streamRowGroupColumns_eq_rows _ _ _ _ _ _ _ _, rfl, rfl⟩

end Olake.Parser
