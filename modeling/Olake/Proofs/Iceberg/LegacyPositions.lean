/-
Where the rows of the legacy writer end up, and what its index knows.

Rows stay where they landed, so the locations that are deleted are those of rows
(`Logged.located`).  After a batch the index has the rows of an id in the file that came up
last; that is the last row of the batch exactly if no file that came up after the file of
the last row has one of the id (`batch_index_iff`).
-/
import Mathlib.Data.Fintype.Sets
import Olake.Proofs.Iceberg.LegacyBatches
import Olake.Proofs.Iceberg.Positions

namespace Olake.Legacy

open Iceberg IcebergWriter Rolling Staging TableIndex Versions List Groups

variable {P Id K V D : Type} [DecidableEq Id] {hasData : D → Bool}

/-! ### The records that are sent -/

theorem resolve_spec (w : LegacyWriter P Id) (seen : List Id) (record : Record Id K V D) :
    (resolve w seen record).row.id = record.id ∧ (resolve w seen record).row.values = record.values ∧
      (resolve w seen record).delete =
        if record.op ≠ .r ∧ record.op ≠ .c then w.indexThread.Lookup record.id else none := by
  unfold resolve
  by_cases h : record.op ≠ .r ∧ record.op ≠ .c
  · simp [h]
  · rw [if_neg (by simpa using h), if_neg h]
    exact ⟨rfl, rfl, rfl⟩

/-- The location that is sent along is the one in the index. -/
theorem lookup_of_mem_protoRecords {r : RecordWrapper P Id K V D × Bool}
    (hr : r ∈ protoRecords hasData w seen records) (hl : r.1.delete = some l) :
    w.indexThread.Lookup r.1.row.id = some l := by
  induction records generalizing seen with
  | nil => cases hr
  | cons head rest ih =>
    obtain ⟨record, full⟩ := head
    rw [protoRecords] at hr
    split at hr
    · rcases mem_cons.1 hr with rfl | hr
      · obtain ⟨hid, -, hdelete⟩ := resolve_spec w seen record
        rw [hdelete] at hl
        split at hl
        · rw [hid]
          exact hl
        · cases hl
      · exact ih hr
    · exact ih hr

variable [DecidableEq V]

/-! ### The open thread -/

/-- The rows of an open thread are those that were written, its changes name them, and it
deletes rows that were written. -/
structure Logged (alloc : Nat → P) (base : Nat) (index : StreamIndex P Id)
    (old : Landings P Id K V D) (t : Thread P Id K V D) : Prop where
  keepDeletes : t.operator.keepDeletes = true
  inserted : t.operator.insertedRows = fun _ => none
  base_le : base ≤ t.operator.allocated
  named : (lane t.operator).Named alloc base t.operator.allocated
  sorted : Sorted (lane t.operator)
  rows : ∀ path i y, (lane t.operator).HasRow path i y ↔ (⟨path, i⟩, y) ∈ t.written
  ascending : (toldOf t.written).Pairwise Ordered
  located : ∀ v loc, Deletes t.operator v loc → ∃ id, (loc, id) ∈ toldOf (old ++ t.written)
  index : t.writer.indexThread.index = index
  tops : Tops t.writer.indexThread.changes (toldOf t.written)

section Thread

variable {alloc : Nat → P} {base : Nat} {table : IdTable P Id K V D} {index : StreamIndex P Id}
  {old : Landings P Id K V D} {t : Thread P Id K V D}

omit [DecidableEq Id] in
theorem Logged.complete (hl : Logged alloc base index old t) (order : List V) :
    Logged alloc base index old { t with operator := completeWriter order t.operator } := by
  have hsame := same_completeWriter alloc t.operator order
  exact {
    keepDeletes := hsame.keepDeletes.trans hl.keepDeletes
    inserted := rfl
    base_le := Nat.le_trans hl.base_le hsame.allocated
    named := hsame.named _ hl.base_le hl.named
    sorted := hsame.sorted hl.sorted
    rows := fun path i y => (hsame.rows path i y).trans (hl.rows path i y)
    ascending := hl.ascending
    located := fun v loc hv => hl.located v loc ((hsame.deletes v loc).1 hv)
    index := hl.index
    tops := hl.tops }

omit [DecidableEq Id] [DecidableEq V] in
theorem logged_new (upsert resolveUpsertOp : Bool) (n : Nat) :
    Logged alloc n index old ⟨⟨.new index, resolveUpsertOp⟩, .new upsert n, []⟩ where
  keepDeletes := rfl
  inserted := rfl
  base_le := Nat.le_refl _
  named := by constructor <;> simp [lane, IcebergTableOperator.new]
  sorted := by
    refine ⟨by simp [lane, IcebergTableOperator.new], ?_⟩
    rintro v y ⟨f, hf | ⟨k, hf⟩, -⟩ <;> simp [lane, IcebergTableOperator.new] at hf
  rows path i y := by
    refine ⟨?_, fun h => absurd h not_mem_nil⟩
    rintro ⟨f, hf | ⟨k, hf⟩, -⟩ <;> simp [lane, IcebergTableOperator.new] at hf
  ascending := List.Pairwise.nil
  located v loc h := by
    obtain ⟨d, hd, -⟩ := h
    simp [IcebergTableOperator.new] at hd
  index := rfl
  tops := Tops.nil

omit [DecidableEq Id] [DecidableEq V] in
theorem Logged.commits (hl : Logged alloc base index old t) (ho : Closed t.operator) :
    Commits (lane t.operator) (fun loc => ∃ v, Deletes t.operator v loc) (delta t.operator) where
  files f hf := by
    obtain ⟨g, hg, rfl⟩ := (mem_delta_data ho).1 hf
    exact ⟨g, hg, rfl⟩
  paths := by
    have hnodup := hl.named.nodup
    rw [lane, ho.completedDataFiles, append_nil] at hnodup
    rw [delta, map_map]
    exact hnodup
  holds _ _ := delta_holds ho
  position _ := delta_position ho

variable [DecidableEq P]

theorem Logged.mid (halloc : Function.Injective alloc) (hl : Logged alloc base index old t)
    (events : List (RecordWrapper P Id K V D × Bool)) :
    Mid alloc base t.operator (addRecords alloc t.operator [] none 0 events).1
      (events.map Prod.fst) (landings alloc t.operator events) :=
  (Mid.start hl.inserted hl.keepDeletes hl.base_le hl.named hl.sorted).addRecords halloc [] none 0 events

/-- A batch goes into the index file by file. -/
theorem Logged.write (halloc : Function.Injective alloc) (hr : Recorded alloc base table index old)
    (hl : Logged alloc base index old t) (records : List (Record Id K V D × Bool)) :
    Logged alloc base index old (t.write alloc hasData records) := by
  unfold Thread.write Write
  dsimp only
  split
  · next hempty =>
    rw [isEmpty_iff.1 hempty, landings, append_nil]
    exact hl
  · have hm := hl.mid halloc (protoRecords hasData t.writer [] records)
    have ht := (Tracked.start ((protoRecords hasData t.writer [] records).map Prod.fst)).addRecords alloc
      t.operator (protoRecords hasData t.writer [] records) rfl
    rw [nil_append] at ht
    -- the index is told the rows in another order, but those of a file in theirs
    have hcross : ∀ e ∈ toldOf t.written,
        ∀ e' ∈ puts (landings alloc t.operator (protoRecords hasData t.writer [] records)), Ordered e e' := by
      intro e he e' he' hpath
      obtain ⟨⟨l, y⟩, hold, rfl⟩ := mem_map.1 he
      obtain ⟨⟨l', y'⟩, hnew, rfl⟩ := mem_map.1 he'
      exact (hm.free _ hnew).1 _ y ((hl.rows _ _ _).2 (hpath ▸ hold))
    have hnew : (puts (landings alloc t.operator (protoRecords hasData t.writer [] records))).Pairwise
        Ordered := by
      rw [puts, pairwise_map]
      exact hm.ascending
    have htops := hl.tops.puts
      (items (sort (fun e => e.1.path)
        (puts (landings alloc t.operator (protoRecords hasData t.writer [] records)))))
      (pairwise_append.2 ⟨hl.ascending, pairwise_items_sort hnew,
        fun e he e' he' => hcross e he e' (mem_items_sort.1 he')⟩)
    rw [← ht.maps, ← putMaps_eq] at htops
    exact {
      keepDeletes := hm.keepDeletes
      inserted := rfl
      base_le := hm.allocated
      named := hm.named
      sorted := hm.sorted
      rows := by
        intro path i y
        rw [mem_append, ← hl.rows]
        exact hm.rows path i y
      ascending := by
        rw [toldOf, map_append]
        exact pairwise_append.2 ⟨hl.ascending, hnew, hcross⟩
      located := by
        intro v loc hv
        rw [← append_assoc, toldOf, map_append]
        simp only [mem_append, exists_or]
        rcases (hm.deletes v loc).1 hv with hv | ⟨-, ⟨r, hsent, hdelete, -⟩ | ⟨y, hsup, -⟩⟩
        · exact .inl (hl.located v loc hv)
        · obtain ⟨r', hr', rfl⟩ := mem_map.1 hsent
          have hlookup := lookup_of_mem_protoRecords hr' hdelete
          rw [StreamIndexThread.lookup_eq, hl.index] at hlookup
          exact .inl ⟨_, hr.told hl.tops hlookup⟩
        · exact .inr ⟨y.id, mem_map_of_mem hsup.1⟩
      index := by rw [putMaps_eq, StreamIndexThread.index_foldl_put, hl.index]
      tops := by
        refine htops.congr fun e => ?_
        rw [toldOf, map_append, mem_append, mem_append, ht.maps, mem_items_sort]
        rfl }

end Thread

/-! ### The life of the table -/

/-- The rows are where they landed. -/
structure Found (alloc : Nat → P) (s : System P Id K V D) : Prop where
  recorded : Recorded alloc s.allocated s.table s.index s.written
  thread : ∀ t, s.thread = some t → Logged alloc s.allocated s.index s.written t

/-- What is assumed of an event: a thread that closes finishes all its files. -/
def Finishes (e : Event Id K V D) (s : System P Id K V D) : Prop :=
  match e, s.thread with
  | .close order, some t => ∀ v, (t.operator.dataWriters v).isSome → v ∈ order
  | _, _ => True

instance [Fintype V] (e : Event Id K V D) (s : System P Id K V D) : Decidable (Finishes e s) := by
  unfold Finishes
  split <;> infer_instance

section Steps

variable [DecidableEq P] {alloc : Nat → P} {s : System P Id K V D} {t : Thread P Id K V D}
  {covers : FileMatch P Id K V D}

omit [DecidableEq Id] [DecidableEq V] [DecidableEq P] in
theorem Found.start : Found alloc (System.start : System P Id K V D) := ⟨Recorded.empty, nofun⟩

variable (covers) in
theorem Found.close_cases (hs : Found alloc s) (hthread : s.thread = some t)
    (horder : ∀ v, (t.operator.dataWriters v).isSome → v ∈ order) :
    t.written = [] ∧ close covers order s t = { s with
        thread := none
        allocated := (completeWriter order t.operator).allocated
        written := s.written ++ [] } ∨
      close covers order s t =
        ⟨s.table.commit (idReader covers) (delta (completeWriter order t.operator)),
          t.writer.indexThread.Commit s.index, s.written ++ t.written,
          (completeWriter order t.operator).allocated, none⟩ := by
  have hl := (hs.thread t hthread).complete order
  unfold close
  dsimp only
  split
  · next heq =>
    have hnil : t.written = [] := eq_nil_of_commits (hl.commits (closed_completeWriter horder)) hl.rows
      (commitThread_eq_none.1 heq).1
    rw [hnil]
    exact .inl ⟨rfl, rfl⟩
  · next table heq =>
    rw [commitThread_eq_some heq]
    exact .inr rfl

theorem Found.step (halloc : Function.Injective alloc) (e : Event Id K V D) (hs : Found alloc s)
    (he : Finishes e s) : Found alloc (Legacy.step alloc hasData covers e s) := by
  fun_cases Legacy.step alloc hasData covers e s with
  | case1 =>
    -- a new thread
    refine ⟨hs.recorded, fun _ h => ?_⟩
    cases h
    exact logged_new _ _ _
  | case2 records t hthread =>
    -- a batch
    refine ⟨hs.recorded, fun _ h => ?_⟩
    cases h
    exact (hs.thread _ hthread).write halloc hs.recorded records
  | case3 order t hthread =>
    -- the files are finished
    refine ⟨hs.recorded, fun _ h => ?_⟩
    cases h
    exact (hs.thread _ hthread).complete order
  | case4 order t hthread =>
    -- the thread closes
    simp only [Finishes, hthread] at he
    have hl := (hs.thread _ hthread).complete order
    rcases hs.close_cases covers hthread he with ⟨-, heq⟩ | heq
    · rw [heq, append_nil]
      exact ⟨hs.recorded.mono hl.base_le, nofun⟩
    · rw [heq]
      refine ⟨hs.recorded.commit halloc hl.base_le hl.named (hl.commits (closed_completeWriter he)) hl.rows
        (fun loc ⟨v, hv⟩ => hl.located v loc hv) (fun id loc hid => ?_) _, nofun⟩
      exact hs.recorded.told hl.tops ((StreamIndexThread.commit_eq _ _ _).symm.trans hid)
  | case5 t hthread => exact ⟨hs.recorded.mono (hs.thread _ hthread).base_le, nofun⟩
  | case6 => exact hs

/-- In every state that is reached, the rows of a batch are where they landed, and the index
then has the last row of every id of the batch exactly if no file that came up after the file
of an id's last row has a row of the id. -/
theorem batch_index_iff (halloc : Function.Injective alloc) (events : List (Event Id K V D))
    (hevents : Machine.Along (Legacy.step alloc hasData covers) Finishes events System.start)
    (hthread : (Machine.run (Legacy.step alloc hasData covers) events System.start).thread = some t)
    (records : List (Record Id K V D × Bool)) :
    let landed := landings alloc t.operator (protoRecords hasData t.writer [] records)
    let t' := t.write alloc hasData records
    (∀ e ∈ landed, (lane t'.operator).HasRow e.1.path e.1.position e.2) ∧
      ((∀ e ∈ landed, t'.writer.indexThread.Lookup e.2.id =
        (last Record.id landed e.2.id).map Prod.fst) ↔ InOrder landed) := by
  intro landed t'
  have hs : Found alloc (Machine.run (Legacy.step alloc hasData covers) events System.start) :=
    Machine.run_inv (fun e s hs he => hs.step halloc e he) Found.start hevents
  refine ⟨fun e he => ?_, ?_⟩
  · exact (((hs.thread t hthread).write halloc hs.recorded records).rows _ _ _).2
      (mem_append_right _ he)
  · unfold t' Thread.write Write landed
    dsimp only
    split
    · next hempty => simp [isEmpty_iff.1 hempty, landings, InOrder]
    · exact lookup_putMaps_iff t.writer _

end Steps

def firstThread : Thread Nat Nat Unit Bool Nat := ⟨⟨.new (fun _ => none), true⟩, .new true 0, []⟩

/-- A row that is inserted and moves on to a partition that came up later. -/
theorem batch_index_iff_moved :
    let records : List (Record Nat Unit Bool Nat × Bool) :=
      [(⟨.c, 1, (), false, 10⟩, false), (⟨.u, 1, (), true, 11⟩, false)]
    let landed := landings id firstThread.operator (protoRecords (fun _ => true) firstThread.writer [] records)
    InOrder landed ∧ ∀ e ∈ landed,
      (firstThread.write id (fun _ => true) records).writer.indexThread.Lookup e.2.id =
        (last Record.id landed e.2.id).map Prod.fst := by
  have hevents : Machine.Along (Legacy.step id (fun _ => true) fun _ _ => true) Finishes [.new true true]
    (System.start : System Nat Nat Unit Bool Nat) := by decide +kernel
  exact ⟨by decide +kernel,
    (batch_index_iff Function.injective_id _ hevents rfl _).2.2 (by decide +kernel)⟩

/-- A row that is inserted in one partition and moves to another, whose file came up before:
the index keeps the superseded row. -/
theorem superseded_row_indexed :
    let records : List (Record Nat Unit Bool Nat × Bool) :=
      [(⟨.c, 2, (), false, 20⟩, false), (⟨.c, 1, (), true, 10⟩, false), (⟨.u, 1, (), false, 11⟩, false)]
    let landed := landings id firstThread.operator (protoRecords (fun _ => true) firstThread.writer [] records)
    last Record.id landed 1 = some (⟨0, 1⟩, ⟨.u, 1, (), false, 11⟩) ∧
      (firstThread.write id (fun _ => true) records).writer.indexThread.Lookup 1 = some ⟨1, 0⟩ := by
  decide +kernel

end Olake.Legacy
