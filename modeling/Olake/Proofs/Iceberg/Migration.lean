/-
Which rows the migration of equality deletes leaves.

A row of a data file is deleted by position if its identifier is among the keys of the
equality deletes that are read for the file (`Keyed`).  With vectors that is all there is to
it (`mem_writeDeletionVectors`).  A positional delete file is written for a directory, in the
partition of the directory's first file, and so it may not be read for files of another
partition with the same directory (`Reached`).

The migration keeps the rows of the table exactly if the equality deletes mean what is read
from them (`live_migrate_iff`).  Rows that were deleted by position before stay deleted in
any case.
-/
import Olake.Model.Iceberg.EqualityDeleteMigrator

namespace Olake.Migrator

open Iceberg IcebergWriter Table List Groups

variable {P T R E Id Dir : Type}

section Positions

variable {rd : Reader P (Partition T) R E} (session : Session rd Id Dir)
  (t : Table P (Partition T) R E) (f : DataFile P (Partition T) R)

/-- The identifier of the row is a key of an equality delete that is read for the file. -/
def Keyed (row : R) : Prop :=
  ∃ d ∈ t.equalityDeletes, session.planner.pairs d f ∧
    ∃ id, session.identifier row = some id ∧ id ∈ session.readKeys d.content

def directory : Dir := session.partitionToPath f.partition.values

def affected : Bool :=
  t.equalityDeletes.any (fun d => session.planner.pairs d f)

/-- The new positional delete file of the directory is read for the file: it lists rows of no
other file, or it is in the file's partition. -/
def Reached [DecidableEq Dir] : Prop :=
  (∀ g ∈ t.data, directory session g = directory session f → (∃ row ∈ g.rows, Keyed session t g row) →
    g.path = f.path) ∨
  ∃ first, t.data.find? (fun g => affected session t g && directory session g = directory session f) =
    some first ∧ session.partition first.partition.values = f.partition

variable {session} {t : Table P (Partition T) R E} {f : DataFile P (Partition T) R}

def entryOf (session : Session rd Id Dir) (t : Table P (Partition T) R E) (f : DataFile P (Partition T) R) :
    DataFileDeletes P T R E :=
  ⟨f, t.equalityDeletes.filter (fun d => session.planner.pairs d f)⟩

theorem planAffectedDataFiles_eq : planAffectedDataFiles session t =
    (t.data.filter (affected session t)).map (entryOf session t) := by
  rw [← filterMap_eq_map, filterMap_filter]
  refine filterMap_congr fun f _ => ?_
  rw [← ite_not]
  simp [affected, entryOf]

theorem affected_of_isEmpty (h : (planAffectedDataFiles session t).isEmpty = true) (hf : f ∈ t.data) :
    ¬ affected session t f = true := by
  rw [planAffectedDataFiles_eq, List.isEmpty_iff, map_eq_nil_iff, filter_eq_nil_iff] at h
  exact h f hf

theorem Keyed.affected (h : Keyed session t f row) : affected session t f = true := by
  obtain ⟨d, hd, hpairs, -⟩ := h
  exact any_eq_true.2 ⟨d, hd, hpairs⟩

variable [DecidableEq Id] {loc : RowLocation P}

theorem mem_collectPositions : loc ∈ collectPositions session (entryOf session t f) ↔
      f.path = loc.path ∧ ∃ row, f.rows[loc.position]? = some row ∧ Keyed session t f row := by
  have hkeys : ∀ key, key ∈ (entryOf session t f).equalityDeletes.flatMap
      (fun d => session.readKeys d.content) ↔
        ∃ d ∈ t.equalityDeletes, session.planner.pairs d f ∧ key ∈ session.readKeys d.content := by
    intro key
    simp only [entryOf, mem_flatMap, mem_filter, and_assoc]
  unfold collectPositions
  simp only [mem_filterMap, Prod.exists, mem_zipIdx_iff_getElem?, Option.bind_eq_some_iff]
  constructor
  · rintro ⟨row, position, hrow, key, hkey, hloc⟩
    split at hloc
    · next hmem =>
      cases hloc
      obtain ⟨d, hd, hpairs, hin⟩ := (hkeys key).1 hmem
      exact ⟨rfl, row, hrow, d, hd, hpairs, key, hkey, hin⟩
    · cases hloc
  · rintro ⟨hpath, row, hrow, d, hd, hpairs, key, hkey, hin⟩
    refine ⟨row, loc.position, hrow, key, hkey, ?_⟩
    rw [if_pos ((hkeys key).2 ⟨d, hd, hpairs, hin⟩)]
    exact congrArg some (RowLocation.ext hpath rfl)

variable [DecidableEq Dir] {group : Dir × List (DataFileDeletes P T R E)}
  (hgroup : group ∈ groups session t)
include hgroup

omit [DecidableEq Id] in
/-- A group has the files of its directory that are affected, as they come in the table. -/
theorem eq_of_mem_groups :
    group.2 = (t.data.filter (fun g => affected session t g && directory session g = group.1)).map
      (entryOf session t) := by
  have heq : group.2 = (planAffectedDataFiles session t).filter
      (fun entry => directory session entry.dataFile = group.1) := eq_filter_of_mem_sort hgroup
  rw [heq, planAffectedDataFiles_eq, filter_map, filter_filter]
  simp only [Function.comp_apply, Bool.and_comm]
  rfl

theorem mem_positions_of_mem_groups :
    loc ∈ group.2.flatMap (collectPositions session) ↔ ∃ f ∈ t.data, directory session f = group.1 ∧
      f.path = loc.path ∧ ∃ row, f.rows[loc.position]? = some row ∧ Keyed session t f row := by
  rw [eq_of_mem_groups hgroup]
  simp only [flatMap_map, mem_flatMap, mem_filter, Bool.and_eq_true, decide_eq_true_eq, mem_collectPositions]
  constructor
  · rintro ⟨f, ⟨hf, -, hdir⟩, hloc⟩
    exact ⟨f, hf, hdir, hloc⟩
  · rintro ⟨f, hf, hdir, hpath, row, hrow, hkeyed⟩
    exact ⟨f, ⟨hf, hkeyed.affected, hdir⟩, hpath, row, hrow, hkeyed⟩

omit hgroup

omit [DecidableEq Id] in
theorem Keyed.exists_group (h : Keyed session t f row) (hf : f ∈ t.data) :
    ∃ group ∈ groups session t, group.1 = directory session f := by
  have hmem : entryOf session t f ∈ planAffectedDataFiles session t := by
    rw [planAffectedDataFiles_eq]
    exact mem_map_of_mem (mem_filter.2 ⟨hf, h.affected⟩)
  obtain ⟨group, hgroup, hdir, -⟩ : Groups.Has (groups session t) (directory session f)
    (entryOf session t f) := has_sort.2 ⟨hmem, rfl⟩
  exact ⟨group, hgroup, hdir⟩

theorem mem_writeDeletionVectors :
    loc ∈ writeDeletionVectors session t ↔ ∃ f ∈ t.data, f.path = loc.path ∧
      ∃ row, f.rows[loc.position]? = some row ∧ Keyed session t f row := by
  unfold writeDeletionVectors
  rw [mem_flatMap]
  constructor
  · rintro ⟨group, hgroup, hloc⟩
    obtain ⟨f, hf, -, hrow⟩ := (mem_positions_of_mem_groups hgroup).1 hloc
    exact ⟨f, hf, hrow⟩
  · rintro ⟨f, hf, hpath, row, hrow, hkeyed⟩
    obtain ⟨group, hgroup, hdir⟩ := hkeyed.exists_group hf
    exact ⟨group, hgroup, (mem_positions_of_mem_groups hgroup).2
      ⟨f, hf, hdir.symm, hpath, row, hrow, hkeyed⟩⟩

/-- The new positional delete files: one for each directory with deleted rows. -/
theorem mem_writePositionDeletes :
    d ∈ writePositionDeletes session t ↔ ∃ group ∈ groups session t,
      d.2 = group.2.flatMap (collectPositions session) ∧ d.2 ≠ [] ∧
      ∃ first, t.data.find? (fun g => affected session t g && directory session g = group.1) = some first ∧
        d.1 = session.partition first.partition.values := by
  unfold writePositionDeletes
  rw [mem_filterMap]
  refine exists_congr fun group => and_congr_right fun hgroup => ?_
  dsimp only
  have hhead : group.2.head? = (t.data.find? (fun g => affected session t g &&
      directory session g = group.1)).map (entryOf session t) := by
    rw [← head?_filter, ← head?_map, ← eq_of_mem_groups hgroup]
  rw [hhead]
  constructor
  · intro h
    split at h
    · cases h
    · next hne =>
      rw [Option.map_map, Option.map_eq_some_iff] at h
      obtain ⟨first, hfirst, rfl⟩ := h
      exact ⟨rfl, mt isEmpty_iff.2 hne, first, hfirst, rfl⟩
  · rintro ⟨hpositions, hne, first, hfirst, hpartition⟩
    rw [if_neg (mt List.isEmpty_iff.1 (hpositions ▸ hne)), hfirst]
    exact congrArg some (Prod.ext hpartition.symm hpositions.symm)

end Positions

section Migration

variable [DecidableEq P] [DecidableEq T] [DecidableEq Id] [DecidableEq Dir]
  {scope : Partition T → Partition T → Prop} {hits : E → R → Bool}
  {session : Session (reader scope hits : Reader P (Partition T) R E) Id Dir}
  {t : Table P (Partition T) R E} {f : DataFile P (Partition T) R} {position : Nat}

/-- The new positional delete files that are read for a data file delete its keyed rows, if
the file of its directory is read for it at all. -/
theorem exists_writePositionDeletes_iff {sequence : Nat} (ht : t.Ordered) (hf : f ∈ t.data)
    (hrow : f.rows[position]? = some row) : (∃ d ∈ writePositionDeletes session t,
      readsFor ⟨d.1, sequence, d.2⟩ f ∧ (⟨f.path, position⟩ : RowLocation P) ∈ d.2) ↔
      Keyed session t f row ∧ Reached session t f := by
  -- a location of the path is a row of this file
  have hsame : ∀ g ∈ t.data, g.path = f.path → g = f := fun g hg hpath =>
    inj_on_of_nodup_map ht.paths hg hf hpath
  have hall : ∀ group ∈ groups session t, directory session f = group.1 →
      ((∀ loc ∈ group.2.flatMap (collectPositions session), loc.path = f.path) ↔
        ∀ g ∈ t.data, directory session g = directory session f →
          (∃ row ∈ g.rows, Keyed session t g row) → g.path = f.path) := by
    intro group hgroup hdir
    constructor
    · rintro h g hg hgdir ⟨row', hrow', hkeyed⟩
      obtain ⟨i, hi⟩ := mem_iff_getElem?.1 hrow'
      exact h ⟨g.path, i⟩ ((mem_positions_of_mem_groups hgroup).2
        ⟨g, hg, hgdir.trans hdir, rfl, row', hi, hkeyed⟩)
    · intro h loc hloc
      obtain ⟨g, hg, hgdir, hpath, row', hrow', hkeyed⟩ := (mem_positions_of_mem_groups hgroup).1 hloc
      exact hpath ▸ h g hg (hgdir.trans hdir.symm) ⟨row', mem_of_getElem? hrow', hkeyed⟩
  constructor
  · rintro ⟨d, hd, hcov, hin⟩
    obtain ⟨group, hgroup, hpositions, -, first, hfirst, hpartition⟩ := mem_writePositionDeletes.1 hd
    rw [hpositions] at hin hcov
    obtain ⟨g, hg, hdir, hpath, row', hrow', hkeyed⟩ := (mem_positions_of_mem_groups hgroup).1 hin
    cases hsame g hg hpath
    cases hrow.symm.trans hrow'
    refine ⟨hkeyed, ?_⟩
    rcases Bool.or_eq_true_iff.1 hcov with hone | heq
    · refine .inl ((hall group hgroup hdir).1 fun loc hloc => ?_)
      exact of_decide_eq_true (all_eq_true.1 hone loc hloc)
    · refine .inr ⟨first, ?_, hpartition ▸ of_decide_eq_true heq⟩
      rw [hdir]
      exact hfirst
  · rintro ⟨hkeyed, hreached⟩
    obtain ⟨group, hgroup, hdir⟩ := hkeyed.exists_group hf
    have hin : (⟨f.path, position⟩ : RowLocation P) ∈ group.2.flatMap (collectPositions session) :=
      (mem_positions_of_mem_groups hgroup).2 ⟨f, hf, hdir.symm, rfl, row, hrow, hkeyed⟩
    obtain ⟨first, hfirst⟩ : ∃ first, t.data.find?
        (fun g => affected session t g && directory session g = group.1) = some first := by
      refine Option.isSome_iff_exists.1 (find?_isSome.2 ⟨f, hf, ?_⟩)
      rw [hkeyed.affected, hdir]
      simp
    refine ⟨(session.partition first.partition.values, group.2.flatMap (collectPositions session)),
      mem_writePositionDeletes.2 ⟨group, hgroup, rfl, ne_nil_of_mem hin, first, hfirst, rfl⟩, ?_, hin⟩
    refine Bool.or_eq_true_iff.2 ?_
    rcases hreached with hone | ⟨first', hfirst', heq⟩
    · refine .inl (all_eq_true.2 fun loc hloc => ?_)
      exact decide_eq_true ((hall group hgroup hdir.symm).2 hone loc hloc)
    · rw [← hdir, hfirst] at hfirst'
      cases hfirst'
      exact .inr (decide_eq_true heq)

/-- A positional delete file that a new vector takes over was read for no file that has no
new vector. -/
theorem path_mem_of_rewritten {vectors : List (RowLocation P)}
    (h : rewritten (reader scope hits) t vectors d = true)
    (hin : (⟨f.path, position⟩ : RowLocation P) ∈ d.entries) :
    f.path ∈ vectors.map RowLocation.path := by
  obtain ⟨g, -, hg⟩ := any_eq_true.1 h
  simp only [Bool.and_eq_true, decide_eq_true_eq, all_eq_true] at hg
  have hpath : f.path = g.path := hg.2 _ hin
  exact hpath ▸ hg.1.1.1.1

omit [DecidableEq Id] [DecidableEq Dir] in
/-- Removing the delete files that were taken over deletes and restores nothing. -/
theorem positionDeleted_removed {vectors : List (RowLocation P)} {t' : Table P (Partition T) R E}
    (hvectors : f.path ∈ vectors.map RowLocation.path → t'.HasVector f) :
    ({ t' with
        equalityDeletes := t'.equalityDeletes.filter (fun d => !replaced session t d)
        positionDeletes := t'.positionDeletes.filter
          (fun d => !rewritten (reader scope hits) t vectors d) } : Table P (Partition T) R E).PositionDeleted
      (reader scope hits) f position ↔ t'.PositionDeleted (reader scope hits) f position := by
  refine or_congr Iff.rfl (and_congr_right fun hno => exists_congr fun d => ?_)
  rw [mem_filter]
  refine ⟨fun h => ⟨h.1.1, h.2⟩, fun h => ⟨⟨h.1, ?_⟩, h.2⟩⟩
  cases hrew : rewritten (reader scope hits) t vectors d with
  | false => rfl
  | true => exact absurd (hvectors (path_mem_of_rewritten hrew h.2.2.2)) hno

variable {targetMode : UpdateType} {totalEqDeletes : Option Nat}

theorem positionDeleted_migrate (ht : t.Ordered)
    (hmode : targetMode ≠ .deletionVector → t.vectors = [])
    (heq : hasEqualityDeletes totalEqDeletes = true) (hf : f ∈ t.data)
    (hrow : f.rows[position]? = some row) :
    (migrate session totalEqDeletes targetMode t).PositionDeleted (reader scope hits) f position ↔
      t.PositionDeleted (reader scope hits) f position ∨
        Keyed session t f row ∧ (targetMode ≠ .deletionVector → Reached session t f) := by
  have hseq : f.sequence ≤ t.lastSequence + 1 := Nat.le_succ_of_le (ht.data f hf)
  unfold migrate
  rw [heq]
  by_cases hnone : (planAffectedDataFiles session t).isEmpty = true
  · rw [if_pos (by simp [hnone])]
    exact (or_iff_left fun h => affected_of_isEmpty hnone hf h.1.affected).symm
  rw [if_neg (by simp [hnone])]
  by_cases hdv : targetMode = .deletionVector
  · have haccepts : t.Accepts (reader scope hits) (writeDeletes session targetMode t) :=
      { fresh := fun _ hg => absurd hg not_mem_nil
        paths := nodup_nil
        vectors := .inl (if_pos hdv)
        covered := fun g _ d hd => by simp [writeDeletes, hdv] at hd }
    have hpos : position < f.rows.length := (List.getElem?_eq_some_iff.1 hrow).1
    have hhas : f.path ∈ (writeDeletes session targetMode t).vectors.map RowLocation.path →
        (t.commit (reader scope hits) (writeDeletes session targetMode t)).HasVector f := fun hvec =>
      ⟨t.newVector (reader scope hits) (writeDeletes session targetMode t) f.path,
        (mem_vectors_commit_of_mem hvec).2 rfl, rfl, hseq⟩
    rw [positionDeleted_removed hhas,
      positionDeleted_commit ht haccepts (mem_data_commit.2 (.inl hf)) hpos]
    refine or_congr Iff.rfl ?_
    have hposition : (writeDeletes session targetMode t).Position ⟨f.path, position⟩ ↔
        (⟨f.path, position⟩ : RowLocation P) ∈ writeDeletionVectors session t := by
      simp [Delta.Position, writeDeletes, hdv]
    rw [hposition, mem_writeDeletionVectors]
    constructor
    · rintro ⟨g, hg, hpath, row', hrow', hkeyed⟩
      cases inj_on_of_nodup_map ht.paths hg hf hpath
      cases hrow.symm.trans hrow'
      exact ⟨hkeyed, fun h => absurd hdv h⟩
    · intro hkeyed
      exact ⟨f, hf, rfl, row, hrow, hkeyed.1⟩
  · have hvec : (writeDeletes session targetMode t).vectors = [] := if_neg hdv
    rw [positionDeleted_removed (by simp [hvec]), positionDeleted_commit_of_files (hmode hdv) hvec hseq]
    refine or_congr Iff.rfl ?_
    rw [writeDeletes, if_neg hdv]
    refine (exists_writePositionDeletes_iff ht hf hrow).trans ?_
    exact and_congr_right fun _ => ⟨fun h _ => h, fun h => h hdv⟩

theorem not_equalityDeleted_migrate (heq : hasEqualityDeletes totalEqDeletes = true)
    (hf : f ∈ t.data) (hrow : row ∈ f.rows) :
    ¬ (migrate session totalEqDeletes targetMode t).EqualityDeleted (reader scope hits) f row := by
  rw [equalityDeleted_iff_pairs session.planner _ hrow]
  rintro ⟨d, hd, hpairs, -⟩
  have hreplaced : d ∈ t.equalityDeletes → replaced session t d = true := fun _ =>
    any_eq_true.2 ⟨f, hf, hpairs⟩
  unfold migrate at hd
  rw [heq] at hd
  split at hd
  · next hnone =>
    exact affected_of_isEmpty (by simpa using hnone) hf (any_eq_true.2 ⟨d, hd, hpairs⟩)
  · rw [mem_filter] at hd
    have hold : d ∈ t.equalityDeletes := by simpa [Iceberg.Table.commit, writeDeletes] using hd.1
    simp [hreplaced hold] at hd

theorem data_migrate : (migrate session totalEqDeletes targetMode t).data = t.data := by
  unfold migrate
  split
  · rfl
  · simp [Iceberg.Table.commit, writeDeletes]

/-- The equality deletes remove the rows that the migrator finds: those with an identifier
among the keys it reads, in files that the delete files it writes are read for. -/
def DeletesByKey (session : Session (reader scope hits : Reader P (Partition T) R E) Id Dir)
    (targetMode : UpdateType) (t : Table P (Partition T) R E) : Prop :=
  ∀ f ∈ t.data, ∀ (position : Nat) (row : R), f.rows[position]? = some row →
    ¬ t.PositionDeleted (reader scope hits) f position →
      (t.EqualityDeleted (reader scope hits) f row ↔
        Keyed session t f row ∧ (targetMode ≠ .deletionVector → Reached session t f))

omit [DecidableEq P] [DecidableEq T] in
theorem vectors_eq_nil
    (hversion : validateOrUpgradeFormatVersion version targetMode = some version')
    (hvectors : version < 3 → t.vectors = []) (hdv : targetMode ≠ .deletionVector) : t.vectors = [] := by
  refine hvectors (Nat.lt_of_not_le fun hle => ?_)
  unfold validateOrUpgradeFormatVersion at hversion
  rw [if_neg hdv, if_neg (by omega), if_pos ⟨hdv, hle⟩] at hversion
  cases hversion

/-- The migration leaves the rows of the table as they are exactly if the equality deletes
remove the rows that it finds.  A table below format version 3 has no vectors. -/
theorem live_migrate_iff (session : Session (reader scope hits : Reader P (Partition T) R E) Id Dir)
    (ht : t.Ordered) {version version' : Nat} {targetMode : UpdateType}
    (hversion : validateOrUpgradeFormatVersion version targetMode = some version')
    (hvectors : version < 3 → t.vectors = []) (totalEqDeletes : Option Nat) :
    (∀ loc row, (migrate session totalEqDeletes targetMode t).Live (reader scope hits) loc row ↔
      t.Live (reader scope hits) loc row) ↔
    (hasEqualityDeletes totalEqDeletes = true → DeletesByKey session targetMode t) := by
  cases heq : hasEqualityDeletes totalEqDeletes with
  | false =>
    have hsame : migrate session totalEqDeletes targetMode t = t := by simp [migrate, heq]
    simp [hsame]
  | true =>
    have hmode := vectors_eq_nil hversion hvectors
    have hlive : ∀ {f}, f ∈ t.data → ∀ {position row}, f.rows[position]? = some row →
        ((migrate session totalEqDeletes targetMode t).Live (reader scope hits) ⟨f.path, position⟩ row ↔
          ¬ (t.PositionDeleted (reader scope hits) f position ∨
            Keyed session t f row ∧ (targetMode ≠ .deletionVector → Reached session t f))) := by
      intro f hf position row hrow
      rw [← positionDeleted_migrate ht hmode heq hf hrow]
      constructor
      · rintro ⟨g, hg, hpath, -, -, hdel⟩
        rw [data_migrate] at hg
        rwa [inj_on_of_nodup_map ht.paths hg hf hpath] at hdel
      · intro hdel
        have hf' : f ∈ (migrate session totalEqDeletes targetMode t).data := by
          rw [data_migrate]
          exact hf
        exact ⟨f, hf', rfl, hrow,
          not_equalityDeleted_migrate heq hf (mem_of_getElem? hrow), hdel⟩
    constructor
    · intro h _ f hf position row hrow hpos
      have hiff := h ⟨f.path, position⟩ row
      rw [hlive hf hrow, live_iff_of_mem ht hf hrow] at hiff
      tauto
    · intro h loc row
      by_cases hat : ∃ f ∈ t.data, f.path = loc.path ∧ f.rows[loc.position]? = some row
      · obtain ⟨f, hf, hpath, hrow⟩ := hat
        have hkeys := h rfl f hf loc.position row hrow
        have hloc : loc = ⟨f.path, loc.position⟩ := RowLocation.ext hpath.symm rfl
        rw [hloc, hlive hf hrow, live_iff_of_mem ht hf hrow]
        tauto
      · refine iff_of_false ?_ ?_
        · rintro ⟨f, hf, hpath, hrow, -⟩
          rw [data_migrate] at hf
          exact hat ⟨f, hf, hpath, hrow⟩
        · rintro ⟨f, hf, hpath, hrow, -⟩
          exact hat ⟨f, hf, hpath, hrow⟩

end Migration

/-- A table of identifiers in partitions by a text, which may be null. -/
abbrev TextReader : Reader Nat (Partition (Option String)) Nat (List Nat) :=
  reader Eq (fun keys row => row ∈ keys)

instance (k k' : Partition (Option String)) : Decidable (TextReader.scope k k') :=
  inferInstanceAs (Decidable (k = k'))

/-- Directories are named as Iceberg names them, with null printed as a word. -/
def textSession : Session TextReader Nat String where
  planner := Planner.all TextReader
  readKeys keys := keys
  identifier row := some row
  partitionToPath value := "p=" ++ value.getD "null"
  spec := 0
  unpartitioned := none

/-- Two rows, one in the partition of null and one in that of another text, and equality
deletes for both. -/
def nullTable (text : String) : Table Nat (Partition (Option String)) Nat (List Nat) where
  data := [⟨0, ⟨0, none⟩, 1, [7]⟩, ⟨1, ⟨0, some text⟩, 1, [8, 9]⟩]
  equalityDeletes := [⟨⟨0, none⟩, 2, [7]⟩, ⟨⟨0, some text⟩, 2, [8]⟩]
  positionDeletes := []
  vectors := []
  lastSequence := 2

/-- The session of a table without partitions. -/
def flatSession : Session TextReader Nat String :=
  { textSession with partitionToPath := fun _ => "", unpartitioned := some none }

/-- The rows of both files are in the only partition. -/
def flatTable : Table Nat (Partition (Option String)) Nat (List Nat) where
  data := [⟨0, ⟨0, none⟩, 1, [7]⟩, ⟨1, ⟨0, none⟩, 1, [8, 9]⟩]
  equalityDeletes := [⟨⟨0, none⟩, 2, [7, 8]⟩]
  positionDeletes := []
  vectors := []
  lastSequence := 2

/-- Where keys are read and compared as they are, only reaching the files matters. -/
theorem deletesByKey_of_reached {session : Session TextReader Nat String}
    (hkeys : session.readKeys = id) (hid : session.identifier = some)
    (hreached : targetMode ≠ .deletionVector → ∀ f ∈ t.data, Reached session t f) :
    DeletesByKey session targetMode t := by
  intro f hf position row hrow _
  have hkeyed : Keyed session t f row ↔
      ∃ d ∈ t.equalityDeletes, session.planner.pairs d f ∧ row ∈ d.content := by
    simp [Keyed, hkeys, hid]
  rw [hkeyed, and_iff_left fun hmode => hreached hmode f hf]
  exact equalityDeleted_iff_pairs session.planner _ (mem_of_getElem? hrow) |>.trans (by simp [reader])

/-- Positional delete files in two partitions and in a table without partitions, and vectors
where both partitions have one directory. -/
theorem live_migrate_iff_texts : (nullTable "a").Ordered ∧
    (∀ loc row, (migrate textSession (some 2) .position (nullTable "a")).Live TextReader loc row ↔
      (nullTable "a").Live TextReader loc row) ∧
    (∀ loc row, (migrate flatSession (some 1) .position flatTable).Live TextReader loc row ↔
      flatTable.Live TextReader loc row) ∧
    ∀ loc row, (migrate textSession (some 2) .deletionVector (nullTable "null")).Live TextReader loc row ↔
      (nullTable "null").Live TextReader loc row := by
  have ht : (nullTable "a").Ordered := by constructor <;> decide
  have hnull : (nullTable "null").Ordered := by constructor <;> decide
  have hflat : flatTable.Ordered := by constructor <;> decide
  have hversion : validateOrUpgradeFormatVersion 2 .position = some 2 := rfl
  have hupgrade : validateOrUpgradeFormatVersion 2 .deletionVector = some 3 := rfl
  refine ⟨ht, (live_migrate_iff textSession ht hversion (fun _ => rfl) (some 2)).2 fun _ => ?_,
    (live_migrate_iff flatSession hflat hversion (fun _ => rfl) (some 1)).2 fun _ => ?_,
    (live_migrate_iff textSession hnull hupgrade (fun _ => rfl) (some 2)).2 fun _ => ?_⟩
  · refine deletesByKey_of_reached rfl rfl fun _ f hf => .inr ⟨f, ?_⟩
    revert f
    decide +kernel
  · refine deletesByKey_of_reached rfl rfl fun _ f hf => .inr ⟨⟨0, ⟨0, none⟩, 1, [7]⟩, ?_⟩
    revert f
    decide +kernel
  · exact deletesByKey_of_reached rfl rfl fun hmode => absurd rfl hmode

/-- The text that null is printed as gets the directory of null.  The delete file of the
directory is in the partition of null, and the row of the other partition is back. -/
theorem row_comes_back :
    ¬ (nullTable "null").Live TextReader ⟨1, 0⟩ 8 ∧
      (migrate textSession (some 2) .position (nullTable "null")).Live TextReader ⟨1, 0⟩ 8 := by
  decide +kernel

end Olake.Migrator
