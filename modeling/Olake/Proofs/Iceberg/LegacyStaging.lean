/-
What the legacy writer has staged: the rows of its data files, finished or not, and the
positions it deletes, each in a partition.

Opening, rolling and finishing files leave the staged rows and deletes alone.  One
record adds its row, and deletes the location Go sent along as well as the row of its id
that the batch has written before (`write_placed`).
-/
import Olake.Model.Iceberg.LegacyWriter

namespace Olake.Legacy

open Iceberg IcebergWriter Rolling List Function Lane

variable {P Id K V D : Type}

def lane (o : IcebergTableOperator P Id K V D) : Lane V P V (Record Id K V D) where
  created := o.filesToCommit.flatMap Prod.snd ++ o.completedDataFiles
  opened := o.dataWriters

def Deletes (o : IcebergTableOperator P Id K V D) (values : V) (loc : RowLocation P) : Prop :=
  Groups.Has (o.filesToCommit.flatMap Prod.fst ++ o.deleteSink) values loc

/-- The rows of a partition are in its files. -/
structure Sorted (l : Lane V P V (Record Id K V D)) : Prop where
  opened : ∀ values f, l.opened values = some f → f.partitionValues = values
  rows : ∀ values row, l.HasItem values row → row.values = values

variable [DecidableEq V] {alloc : Nat → P} {o : IcebergTableOperator P Id K V D}
  {files : Lane V P V (Record Id K V D)}

theorem Sorted.start (h : Sorted files) (hnone : files.opened values = none) (path : P) :
    Sorted (files.start values path values) := by
  refine ⟨fun v f hf => ?_, fun v row hrow => h.rows v row ((hasItem_start hnone).1 hrow)⟩
  rw [opened_start] at hf
  split at hf
  · next heq =>
    cases hf
    exact heq.symm
  · exact h.opened v f hf

theorem Sorted.finish (h : Sorted files) : Sorted (files.finish values) := by
  refine ⟨fun v f hf => ?_, fun v row hrow => h.rows v row (hasItem_finish.1 hrow)⟩
  rw [opened_finish] at hf
  split at hf
  · cases hf
  · exact h.opened v f hf

theorem Sorted.push (h : Sorted files) (hw : files.opened row.values = some writer) :
    Sorted (files.push row.values [row]) := by
  refine ⟨fun v f hf => ?_, fun v y hy => ?_⟩
  · rw [opened_push] at hf
    split at hf
    · next heq =>
      rw [hw] at hf
      cases hf
      rw [heq]
      exact h.opened _ writer hw
    · exact h.opened v f hf
  · rcases (hasItem_push hw).1 hy with hy | ⟨hv, hy⟩
    · exact h.rows v y hy
    · rw [mem_singleton.1 hy, ← hv, h.opened _ _ hw]

theorem deletes_sinkDelete :
    Deletes (sinkDelete o loc values) v l ↔ Deletes o v l ∨ v = values ∧ l = loc := by
  simp only [Deletes, sinkDelete, Groups.has_append, Groups.has_extend, mem_singleton, or_assoc]

theorem deletes_sinkPrevious :
    Deletes (sinkPrevious o previous) v l ↔
      Deletes o v l ∨ ∃ p, previous = some p ∧ v = p.partition ∧ l = ⟨p.path, p.position⟩ := by
  unfold sinkPrevious
  split
  · rw [deletes_sinkDelete]
    simp
  · simp

/-! ### Rows -/

/-- The second state of the operator stages what the first one does. -/
structure Same (alloc : Nat → P) (o o' : IcebergTableOperator P Id K V D) : Prop extends
    Rolled alloc (lane o) o.allocated (lane o') o'.allocated where
  deletes : ∀ values loc, Deletes o' values loc ↔ Deletes o values loc
  upsert : o'.upsert = o.upsert
  keepDeletes : o'.keepDeletes = o.keepDeletes
  sorted : Sorted (lane o) → Sorted (lane o')

omit [DecidableEq V] in
theorem Same.refl : Same alloc o o where
  toRolled := .refl _ (Nat.le_refl _)
  deletes _ _ := Iff.rfl
  upsert := rfl
  keepDeletes := rfl
  sorted h := h

omit [DecidableEq V] in
theorem Same.trans (h : Same alloc o₁ o₂) (h' : Same alloc o₂ o₃) : Same alloc o₁ o₃ where
  toRolled := h.toRolled.trans h'.toRolled
  deletes values loc := (h'.deletes values loc).trans (h.deletes values loc)
  upsert := h'.upsert.trans h.upsert
  keepDeletes := h'.keepDeletes.trans h.keepDeletes
  sorted hs := h'.sorted (h.sorted hs)

variable (o) in
/-- The partition has an open file afterwards, and nothing else changes. -/
theorem dataWriterFor_spec (halloc : Function.Injective alloc) (values : V) :
    Same alloc o (dataWriterFor alloc o values).1 ∧
      (dataWriterFor alloc o values).1.dataWriters values = some (dataWriterFor alloc o values).2 ∧
      (dataWriterFor alloc o values).1.insertedRows = o.insertedRows := by
  unfold dataWriterFor
  split
  · next writer h => exact ⟨.refl, h, rfl⟩
  · next h =>
    have hnone : (lane o).opened values = none := h
    exact ⟨⟨.start halloc hnone _ _, fun _ _ => Iff.rfl, rfl, rfl, fun hs => hs.start hnone _⟩, by simp, rfl⟩

/-! ### Finishing files -/

theorem lane_closeWriter : lane (closeWriter o values) = (lane o).finish values := by
  cases h : o.dataWriters values with
  | none =>
    simp only [closeWriter, h, lane, finish, mk.injEq, true_and]
    exact (update_eq_self_iff.2 h.symm).symm
  | some writer =>
    simp only [closeWriter, h, lane, finish, keep, mk.injEq, and_true]
    split
    · rfl
    · exact (append_assoc _ _ _).symm

theorem same_closeWriter : Same alloc o (closeWriter o values) := by
  have hframe : (∀ v l, Deletes (closeWriter o values) v l ↔ Deletes o v l) ∧
      (closeWriter o values).upsert = o.upsert ∧ (closeWriter o values).keepDeletes = o.keepDeletes ∧
      (closeWriter o values).allocated = o.allocated := by
    unfold closeWriter
    split <;> exact ⟨fun _ _ => Iff.rfl, rfl, rfl, rfl⟩
  obtain ⟨hdeletes, hupsert, hkeep, hallocated⟩ := hframe
  refine ⟨?_, hdeletes, hupsert, hkeep, fun hs => ?_⟩
  · rw [lane_closeWriter, hallocated]
    exact .finish
  · rw [lane_closeWriter]
    exact hs.finish

theorem same_closeWriters (order : List V) : Same alloc o (order.foldl closeWriter o) := by
  induction order generalizing o with
  | nil => exact .refl
  | cons v rest ih => exact same_closeWriter.trans ih

/-- The partitions that were walked have no open file. -/
theorem dataWriters_closeWriters {order : List V}
    (h : v ∈ order ∨ o.dataWriters v = none) : (order.foldl closeWriter o).dataWriters v = none := by
  induction order generalizing o with
  | nil => exact h.resolve_left not_mem_nil
  | cons v₀ rest ih =>
    refine ih ?_
    have hopened : (closeWriter o v₀).dataWriters v = if v = v₀ then none else o.dataWriters v := by
      change (lane (closeWriter o v₀)).opened v = if v = v₀ then none else (lane o).opened v
      rw [lane_closeWriter, opened_finish]
    rcases h with h | h
    · rcases mem_cons.1 h with rfl | h
      · exact .inr (by rw [hopened, if_pos rfl])
      · exact .inl h
    · exact .inr (by rw [hopened, h, ite_self])

variable (alloc o) in
/-- `completeWriter` keeps what is staged, now as files to commit. -/
theorem same_completeWriter (order : List V) : Same alloc o (completeWriter order o) := by
  refine (same_closeWriters order).trans ?_
  generalize hclose : order.foldl closeWriter o = o₁
  have hlane : lane (completeWriter order o) = lane o₁ := by simp [lane, completeWriter, hclose]
  refine ⟨?_, fun v l => ?_, ?_, ?_, fun hs => ?_⟩
  · rw [hlane]
    exact .refl _ (by simp [completeWriter, hclose])
  · simp [Deletes, completeWriter, hclose]
  · simp [completeWriter, hclose]
  · simp [completeWriter, hclose]
  · rw [hlane]
    exact hs

/-- A thread whose writer is complete. -/
structure Closed (o : IcebergTableOperator P Id K V D) : Prop where
  dataWriters : ∀ values, o.dataWriters values = none
  completedDataFiles : o.completedDataFiles = []
  deleteSink : o.deleteSink = []

section Delta

omit [DecidableEq V]

variable (ho : Closed o)

include ho in
theorem Closed.hasFile : (lane o).HasFile f ↔ f ∈ o.filesToCommit.flatMap Prod.snd := by
  simp [Lane.HasFile, lane, ho.completedDataFiles, ho.dataWriters]

include ho in
theorem mem_delta_data :
    f ∈ (delta o).data ↔ ∃ g, (lane o).HasFile g ∧ f = (g.filePath, g.partitionValues, g.rows) := by
  simp only [delta, mem_map, ho.hasFile, eq_comm]

include ho in
theorem delta_holds : (delta o).Holds loc row ↔ (lane o).HasRow loc.path loc.position row := by
  simp only [Delta.Holds, mem_delta_data ho, Lane.HasRow]
  constructor
  · rintro ⟨_, ⟨g, hg, rfl⟩, hpath, hrow⟩
    exact ⟨g, hg, hpath, hrow⟩
  · rintro ⟨g, hg, hpath, hrow⟩
    exact ⟨_, ⟨g, hg, rfl⟩, hpath, hrow⟩

include ho in
theorem deletes_iff_delta :
    Deletes o values loc ↔ ∃ d ∈ (delta o).positionDeletes, d.1 = values ∧ loc ∈ d.2 := by
  rw [Deletes, ho.deleteSink, append_nil]
  rfl

include ho in
theorem delta_position : (delta o).Position loc ↔ ∃ values, Deletes o values loc := by
  simp only [deletes_iff_delta ho, Delta.Position]
  constructor
  · rintro (⟨d, hd, hloc⟩ | hloc)
    · exact ⟨d.1, d, hd, rfl, hloc⟩
    · cases hloc
  · rintro ⟨_, d, hd, -, hloc⟩
    exact .inl ⟨d, hd, hloc⟩

end Delta

theorem closed_completeWriter
    (horder : ∀ v, (o.dataWriters v).isSome → v ∈ order) : Closed (completeWriter order o) := by
  refine ⟨fun v => ?_, rfl, rfl⟩
  refine dataWriters_closeWriters ?_
  cases h : o.dataWriters v with
  | none => exact .inr rfl
  | some f => exact .inl (horder v (by rw [h]; rfl))

/-- What `writeRow` adds to the files. -/
structure RowPlaced (alloc : Nat → P) (l : Lane V P V (Record Id K V D)) (n : Nat)
    (l' : Lane V P V (Record Id K V D)) (n' : Nat) (loc : RowLocation P) (row : Record Id K V D) :
    Prop extends Pushed alloc l n l' n' loc.path loc.position row where
  sorted : Sorted l → Sorted l'

theorem lane_writeRow (alloc : Nat → P)
    (h : o.dataWriters values = some writer) (row : Record Id K V D) (full : Bool) :
    lane (writeRow alloc o writer values row full) =
      if full then (((lane o).push values [row]).finish values).start values (alloc o.allocated)
        writer.partitionValues else (lane o).push values [row] := by
  cases full with
  | false => simp [writeRow, lane, push, h]
  | true => simp [writeRow, lane, push, finish, start, keep, h]

/-- A row goes to the end of the open file of its partition. -/
theorem writeRow_spec (halloc : Function.Injective alloc)
    (h : o.dataWriters row.values = some writer) (full : Bool) :
    RowPlaced alloc (lane o) o.allocated (lane (writeRow alloc o writer row.values row full))
      (writeRow alloc o writer row.values row full).allocated ⟨writer.filePath, writer.rows.length⟩ row := by
  have hopened : (lane o).opened row.values = some writer := h
  have hlane := lane_writeRow alloc h row full
  have hpush : Pushed alloc (lane o) o.allocated _ o.allocated writer.filePath _ row := .push hopened row
  cases full with
  | false =>
    rw [hlane]
    exact ⟨hpush, fun hs => hs.push hopened⟩
  | true =>
    have hnone : (((lane o).push row.values [row]).finish row.values).opened row.values = none := by
      rw [opened_finish, if_pos rfl]
    rw [hlane]
    refine ⟨hpush.rolled (Rolled.finish.trans (.start halloc hnone _ _)), fun hs => ?_⟩
    rw [hs.opened _ _ hopened]
    exact (hs.push hopened).finish.start hnone _

variable (alloc o) in
theorem writeRow_frame (writer : RollingFileWriter P Id K V D) (values : V)
    (row : Record Id K V D) (full : Bool) :
    (writeRow alloc o writer values row full).insertedRows = o.insertedRows ∧
      (∀ v l, Deletes (writeRow alloc o writer values row full) v l ↔ Deletes o v l) ∧
      (writeRow alloc o writer values row full).upsert = o.upsert ∧
      (writeRow alloc o writer values row full).keepDeletes = o.keepDeletes := by
  unfold writeRow
  split <;> exact ⟨rfl, fun _ _ => Iff.rfl, rfl, rfl⟩

theorem dataWriterFor_of_open (alloc : Nat → P)
    (h : o.dataWriters values = some writer) : dataWriterFor alloc o values = (o, writer) := by
  rw [dataWriterFor, h]

/-! ### One record -/

variable [DecidableEq Id]

/-- What a record adds to what is staged. -/
structure Placed (alloc : Nat → P) (o o' : IcebergTableOperator P Id K V D)
    (record : RecordWrapper P Id K V D) (loc : RowLocation P) : Prop
    extends RowPlaced alloc (lane o) o.allocated (lane o') o'.allocated loc record.row where
  deletes : ∀ v l, Deletes o' v l ↔ Deletes o v l ∨ o.upsert = true ∧
    (record.delete = some l ∧ v = record.row.values ∨
      ∃ p, o.insertedRows record.row.id = some p ∧ v = p.partition ∧ l = ⟨p.path, p.position⟩)
  inserted : o.upsert = true → o'.insertedRows =
    Function.update o.insertedRows record.row.id (some ⟨record.row.values, loc.path, loc.position⟩)
  upsert : o'.upsert = o.upsert
  keepDeletes : o'.keepDeletes = o.keepDeletes

variable (o) in
omit [DecidableEq Id] in
theorem sinkPrevious_frame (previous : Option (PathOffset P V)) :
    sinkPrevious o previous = { o with deleteSink := (sinkPrevious o previous).deleteSink } := by
  cases previous <;> rfl

omit [DecidableEq Id] in
theorem deletes_sinkGiven :
    Deletes (sinkGiven o record) v l ↔
      Deletes o v l ∨ record.delete = some l ∧ v = record.row.values := by
  unfold sinkGiven
  split
  · next loc h => rw [deletes_sinkDelete, h, Option.some.injEq, and_comm, eq_comm (a := l)]
  · next h => simp [h]

variable (o) in
omit [DecidableEq Id] in
theorem sinkGiven_frame (record : RecordWrapper P Id K V D) :
    sinkGiven o record = { o with deleteSink := (sinkGiven o record).deleteSink } := by
  unfold sinkGiven
  split <;> rfl

/-- `write` of the delta writer, if the partition has an open file. -/
theorem writeDelta_placed (halloc : Function.Injective alloc) (hkeep : o.keepDeletes = true)
    (hupsert : o.upsert = true) (hw : o.dataWriters record.row.values = some writer) (full : Bool) :
    Placed alloc o (writeDelta alloc o record full) record ⟨writer.filePath, writer.rows.length⟩ := by
  have hgiven := sinkGiven_frame o record
  generalize hsink : (sinkGiven o record).deleteSink = sink at hgiven
  have hopen : ({ o with deleteSink := sink } : IcebergTableOperator P Id K V D).dataWriters
      record.row.values = some writer := hw
  have hrow := writeRow_spec halloc hopen full
  obtain ⟨hinserted, hdeletes, hupsert', hkeep'⟩ :=
    writeRow_frame alloc { o with deleteSink := sink } writer record.row.values record.row full
  have heq : writeDelta alloc o record full = sinkPrevious
      { writeRow alloc { o with deleteSink := sink } writer record.row.values record.row full with
        insertedRows := update o.insertedRows record.row.id
          (some ⟨record.row.values, writer.filePath, writer.rows.length⟩) }
      (o.insertedRows record.row.id) := by
    have hwill : willWrite { o with deleteSink := sink } record = true := by simp [willWrite, hkeep]
    rw [writeDelta, hgiven]
    rw [if_pos hwill, dataWriterFor_of_open alloc hopen]
    dsimp only
    rw [hinserted]
  generalize writeRow alloc { o with deleteSink := sink } writer record.row.values record.row full = o₂
    at hrow hinserted hdeletes hupsert' hkeep' heq
  have hframe := sinkPrevious_frame { o₂ with
    insertedRows := update o.insertedRows record.row.id
      (some ⟨record.row.values, writer.filePath, writer.rows.length⟩) } (o.insertedRows record.row.id)
  rw [← heq] at hframe
  refine ⟨?_, fun v l => ?_, fun _ => ?_, ?_, ?_⟩
  · rw [hframe]
    exact hrow
  · have hsinks : Deletes { o with deleteSink := sink } v l ↔ Deletes (sinkGiven o record) v l := by
      rw [hgiven]
    rw [heq, deletes_sinkPrevious]
    refine (or_congr ((hdeletes v l).trans (hsinks.trans deletes_sinkGiven)) Iff.rfl).trans ?_
    rw [or_assoc]
    simp only [hupsert, true_and]
  · rw [hframe]
  · rw [hframe]
    exact hupsert'
  · rw [hframe]
    exact hkeep'

/-- `write` after the partition's file was opened. -/
theorem write_placed (halloc : Function.Injective alloc) (hkeep : o.keepDeletes = true)
    (record : RecordWrapper P Id K V D) (full : Bool) :
    Placed alloc o (write alloc (dataWriterFor alloc o record.row.values).1 record full) record
      ⟨(dataWriterFor alloc o record.row.values).2.filePath,
        (dataWriterFor alloc o record.row.values).2.rows.length⟩ := by
  obtain ⟨hsame, hopen, hinserted⟩ := dataWriterFor_spec o halloc record.row.values
  generalize dataWriterFor alloc o record.row.values = got at hsame hopen hinserted
  obtain ⟨o₁, writer⟩ := got
  suffices h : Placed alloc o₁ (write alloc o₁ record full) record ⟨writer.filePath, writer.rows.length⟩ by
    refine ⟨⟨hsame.toRolled.pushed h.toPushed, fun hs => h.sorted (hsame.sorted hs)⟩,
      ?_, ?_, h.upsert.trans hsame.upsert, h.keepDeletes.trans hsame.keepDeletes⟩
    · intro v l
      rw [h.deletes, hsame.deletes, hsame.upsert, hinserted]
    · intro hupsert
      rw [h.inserted (hsame.upsert.trans hupsert), hinserted]
  unfold write
  split
  · next hupsert => exact writeDelta_placed halloc (hsame.keepDeletes.trans hkeep) hupsert hopen full
  · next hupsert =>
    have hrow := writeRow_spec halloc hopen full
    obtain ⟨-, hdeletes, hupsert', hkeep'⟩ :=
      writeRow_frame alloc o₁ writer record.row.values record.row full
    rw [writeAppend, dataWriterFor_of_open alloc hopen]
    exact ⟨hrow, fun v l => by simp [hdeletes, hupsert], fun h => absurd h hupsert, hupsert', hkeep'⟩

end Olake.Legacy
