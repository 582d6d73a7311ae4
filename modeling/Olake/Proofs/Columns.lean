/-
Columns that share a name at the destination.

The normaliser of column names is not injective.  What is decided column by column on the side of
the source and name by name on the side of the destination agrees for a column, unless it is not
marked and another one of its name is (`retained_iff_selected_iff`).  A flattened record has a
column for each of its fields as long as no two of them have one name (`flatten_lossless_iff`).
-/
import Mathlib.Data.List.Dedup
import Olake.Model.Columns
import Olake.Proofs.Values

namespace Olake.ColumnNames

open List Typeutils ConfiguredStream
export Typeutils (Value)

/-! ### The two sides of the selection -/

/-- The columns that the selection is about. -/
def ConfiguredStream.marked (s : ConfiguredStream) : List String :=
  match s.SelectedColumns with
  | none => []
  | some selected =>
    if selected.SyncNewColumns then s.GetUnSelectedColumnsSet selected.Columns else selected.Columns

/-- The marked columns are left out, and all others are kept. -/
def ConfiguredStream.excludes (s : ConfiguredStream) : Prop :=
  ∀ selected ∈ s.SelectedColumns, selected.Columns = [] ∨ selected.SyncNewColumns = true

variable (toLower : Char → Char)

section Selection

variable {s : ConfiguredStream} {V : Type} {data : Record V} {c : String}

theorem mem_retained (hc : c ∈ data.map Prod.fst) :
    c ∈ (s.RetainSelectedColumns data).map Prod.fst ↔ (c ∈ s.marked ↔ ¬ s.excludes) := by
  have hentry : ∃ v, (c, v) ∈ data := by simpa using hc
  unfold RetainSelectedColumns marked excludes
  cases s.SelectedColumns with
  | none => simp [hentry]
  | some selected =>
    by_cases hnil : selected.Columns = []
    · cases selected.SyncNewColumns <;> simp [hnil, hentry, GetUnSelectedColumnsSet]
    · cases hsync : selected.SyncNewColumns <;> simp [hnil, hsync, hentry]

theorem isSelectedColumn_iff (name : String) :
    s.IsSelectedColumn toLower name = true ↔
      (name ∈ s.marked.map (s.ResolveColumnName toLower) ↔ ¬ s.excludes) := by
  unfold IsSelectedColumn marked excludes
  cases s.SelectedColumns with
  | none => simp
  | some selected =>
    by_cases hnil : selected.Columns = []
    · cases selected.SyncNewColumns <;> simp [hnil, GetUnSelectedColumnsSet]
    · cases hsync : selected.SyncNewColumns <;> simp [hnil, hsync]

end Selection

/-- A column is kept in the records exactly if its name is accepted for the schema, unless it is
not marked and shares its name with a column that is. -/
theorem retained_iff_selected_iff (s : ConfiguredStream) {V : Type}
    (data : Record V) (c : String) (hc : c ∈ data.map Prod.fst) :
    (c ∈ (s.RetainSelectedColumns data).map Prod.fst ↔
        s.IsSelectedColumn toLower (s.ResolveColumnName toLower c) = true) ↔
      ∀ m ∈ s.marked, s.ResolveColumnName toLower m = s.ResolveColumnName toLower c →
        c ∈ s.marked := by
  have hname : c ∈ s.marked →
      s.ResolveColumnName toLower c ∈ s.marked.map (s.ResolveColumnName toLower) := mem_map_of_mem
  have hshared : (s.ResolveColumnName toLower c ∈ s.marked.map (s.ResolveColumnName toLower) →
      c ∈ s.marked) ↔ ∀ m ∈ s.marked,
        s.ResolveColumnName toLower m = s.ResolveColumnName toLower c → c ∈ s.marked := by
    simp only [mem_map, forall_exists_index, and_imp]
  rw [mem_retained hc, isSelectedColumn_iff]
  tauto

/-- A stream with two columns whose names differ in case, one of them selected. -/
def users (useSourceColumnNames : Bool) : ConfiguredStream where
  Properties := ["Name", "name"]
  UseSourceColumnNames := useSourceColumnNames
  SelectedColumns := some ⟨["Name"], false⟩

theorem retained_iff_selected_source_names :
    let data : Record Nat := [("Name", some 1), ("name", some 2)];
    "name" ∈ ((users true).RetainSelectedColumns data).map Prod.fst ↔
      (users true).IsSelectedColumn Char.toLower "name" = true := by
  intro data
  exact (retained_iff_selected_iff Char.toLower (users true) data "name" (by decide)).2 (by decide)

/-- The column is left out of the records, and its name is accepted for the schema. -/
theorem unselected_name_accepted :
    (users false).RetainSelectedColumns [("Name", some 1), ("name", some 2)] = [("Name", some 1)] ∧
      (users false).ResolveColumnName Char.toLower "name" = "name" ∧
      (users false).IsSelectedColumn Char.toLower "name" = true := by
  decide

/-! ### Flattened records -/

variable {go : GoLib}

/-- The names of the fields that are not null. -/
def fields (data : Record (Value go)) : List String :=
  (data.filter fun entry => entry.2.isSome).map Prod.fst

/-- Each field that is not null has a column of its own, with its value. -/
structure Lossless (resolve : String → String) (data d : Record (Value go)) : Prop where
  columns : d.length = (fields data).length
  values : ∀ key v, (key, some v) ∈ data →
    ∃ flat, flattenValue v = .ok flat ∧ d.lookup (resolve key) = some (some flat)

variable {data d : Record (Value go)} {key : String}

theorem mem_fields : key ∈ fields data ↔ ∃ v, (key, some v) ∈ data := by
  simp only [fields, mem_map, mem_filter, Option.isSome_iff_exists, Prod.exists, exists_and_right,
    exists_eq_right]
  constructor
  · rintro ⟨_, hv, v, rfl⟩
    exact ⟨v, hv⟩
  · rintro ⟨v, hv⟩
    exact ⟨some v, hv, v, rfl⟩

variable {resolve : String → String}

/-- What comes in under a name is the value of a field of that name. -/
theorem mem_landing :
    flat ∈ landing resolve k data ↔
      ∃ key v, (key, some v) ∈ data ∧ resolve key = k ∧ flattenValue v = .ok flat := by
  have hok : ∀ v : Value go, (flattenValue v).toOption = some flat ↔ flattenValue v = .ok flat := by
    intro v
    cases flattenValue v <;> simp [Except.toOption]
  simp only [landing, mem_filterMap, Option.ite_none_right_eq_some, Option.bind_eq_some_iff, hok]
  constructor
  · rintro ⟨⟨key, _⟩, hmem, hk, v, rfl, hflat⟩
    exact ⟨key, v, hmem, hk, hflat⟩
  · rintro ⟨key, v, hmem, hk, hflat⟩
    exact ⟨(key, some v), hmem, hk, v, rfl, hflat⟩

variable (h : Flatten resolve data = .ok d)
include h

theorem mem_columns : k ∈ d.map Prod.fst ↔ k ∈ (fields data).map resolve := by
  have hlookup := lookup_flatten h k
  have hflattens : Flattens data := (flatten_ok_iff resolve data).1 ⟨d, h⟩
  calc k ∈ d.map Prod.fst ↔ d.lookup k ≠ none := by simp
    _ ↔ landing resolve k data ≠ [] := by simp [hlookup]
    _ ↔ k ∈ (fields data).map resolve := ?_
  rw [ne_eq, eq_nil_iff_forall_not_mem, not_forall_not, mem_map]
  constructor
  · rintro ⟨flat, hflat⟩
    obtain ⟨key, v, hv, hk, -⟩ := mem_landing.1 hflat
    exact ⟨key, mem_fields.2 ⟨v, hv⟩, hk⟩
  · rintro ⟨key, hkey, hk⟩
    obtain ⟨v, hv⟩ := mem_fields.1 hkey
    obtain ⟨flat, hflat⟩ := hflattens key v hv
    exact ⟨flat, mem_landing.2 ⟨key, v, hv, hk, hflat⟩⟩

theorem length_columns : d.length = (fields data).length ↔ ((fields data).map resolve).Nodup := by
  have hperm : d.map Prod.fst ~ ((fields data).map resolve).dedup :=
    (perm_ext_iff_of_nodup (nodup_flatten h) (nodup_dedup _)).2 fun k => by
      rw [mem_columns h, mem_dedup]
  have hlen : d.length = ((fields data).map resolve).dedup.length := by simpa using hperm.length_eq
  have hmap : (fields data).length = ((fields data).map resolve).length := (length_map _).symm
  rw [hlen, ← dedup_eq_self, hmap]
  exact ⟨(dedup_sublist _).eq_of_length, congrArg length⟩

/-- A field that shares its name with no other is found under it. -/
theorem lookup_field (hdata : (data.map Prod.fst).Nodup) (hnodup : ((fields data).map resolve).Nodup)
    (hv : (key, some v) ∈ data) :
    ∃ flat, flattenValue v = .ok flat ∧ d.lookup (resolve key) = some (some flat) := by
  obtain ⟨flat, hflat⟩ := (flatten_ok_iff resolve data).1 ⟨d, h⟩ key v hv
  refine ⟨flat, hflat, ?_⟩
  -- nothing else comes in under the name
  have honly : ∀ flat' ∈ landing resolve (resolve key) data, flat' = flat := by
    intro flat' hmem
    obtain ⟨key', v', hv', hk, hflat'⟩ := mem_landing.1 hmem
    obtain rfl := inj_on_of_nodup_map hnodup (mem_fields.2 ⟨v', hv'⟩) (mem_fields.2 ⟨v, hv⟩) hk
    cases inj_on_of_nodup_map hdata hv' hv rfl
    exact Except.ok.inj (hflat'.symm.trans hflat)
  have hmem : flat ∈ landing resolve (resolve key) data := mem_landing.2 ⟨key, v, hv, rfl, hflat⟩
  rw [lookup_flatten h]
  cases hlast : (landing resolve (resolve key) data).getLast? with
  | none => simp [getLast?_eq_none_iff.1 hlast] at hmem
  | some flat' => rw [honly flat' (mem_of_getLast? hlast), Option.map_some]

omit h

/-- Flattening loses no field exactly if the fields that are not null have different names at the
destination. -/
theorem flatten_lossless_iff (s : ConfiguredStream) (go : GoLib)
    (data d : Record (Value go)) (hdata : (data.map Prod.fst).Nodup)
    (h : Flatten (s.ResolveColumnName toLower) data = .ok d) :
    Lossless (s.ResolveColumnName toLower) data d ↔
      ((fields data).map (s.ResolveColumnName toLower)).Nodup :=
  ⟨fun hl => (length_columns h).1 hl.columns,
    fun hnodup => ⟨(length_columns h).2 hnodup, fun _ _ hv => lookup_field h hdata hnodup hv⟩⟩

def twoNames : Record (Value kinds) :=
  [("Name", some (.string "Ada")), ("name", some (.string "Grace"))]

theorem flatten_lossless_source_names :
    Lossless ((users true).ResolveColumnName Char.toLower) twoNames twoNames := by
  have hnodup : ["Name", "name"].Nodup := by decide
  exact (flatten_lossless_iff Char.toLower (users true) kinds twoNames twoNames hnodup rfl).2 hnodup

/-- One of the two values is dropped. -/
theorem second_name_replaces_first :
    Flatten ((users false).ResolveColumnName Char.toLower) twoNames =
      .ok [("name", some (.string "Grace"))] :=
  rfl

end Olake.ColumnNames
