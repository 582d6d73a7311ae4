/-
After every commit of the legacy writer with positional deletes the table shows the
last row of every id.

As for the arrow writer, the table together with what the thread has staged shows the
rows written so far, and here that is so after every batch (`Coherent`).  A batch keeps
it if it supersedes the current rows of its ids: some record of the id has to look the
row up, so it is no plain insert, and it has to go to the partition the row is in,
because that is where Java writes the delete.  A positional delete file need not be read
for files of other partitions (`hcovers`).  The next batch relies on the index, so the
index has to know the last rows of this one (`InOrder`).
-/
import Olake.Proofs.Iceberg.LegacyPositions

namespace Olake.Legacy

open Iceberg IcebergWriter Rolling Staging TableIndex Versions List

variable {P Id K V D : Type} [DecidableEq P] [DecidableEq Id] [DecidableEq V]

/-! ### The records that are sent -/

variable (hasData : D → Bool)

/-- The records of a batch that are written. -/
def present (records : List (Record Id K V D × Bool)) : List (Record Id K V D) :=
  (records.map Prod.fst).filter (fun record => hasData record.data)

variable {hasData}

omit [DecidableEq P] [DecidableEq V] in
theorem ids_protoRecords (w : LegacyWriter P Id) (seen : List Id)
    (records : List (Record Id K V D × Bool)) :
    (protoRecords hasData w seen records).map (fun r => r.1.row.id) =
      (present hasData records).map Record.id := by
  induction records generalizing seen with
  | nil => rfl
  | cons head rest ih =>
    obtain ⟨record, full⟩ := head
    unfold present at ih ⊢
    rw [protoRecords]
    split
    · next h => simp [h, ih, (resolve_spec w seen record).1]
    · next h => simp [h, ih]

omit [DecidableEq P] [DecidableEq V] in
/-- A record that is no plain insert looks its row up. -/
theorem exists_mem_protoRecords (w : LegacyWriter P Id) (seen : List Id)
    (hrecord : record ∈ present hasData records) (hop : record.op ≠ .r ∧ record.op ≠ .c) :
    ∃ r ∈ protoRecords hasData w seen records, r.1.row.values = record.values ∧
      r.1.delete = w.indexThread.Lookup record.id := by
  induction records generalizing seen with
  | nil => cases hrecord
  | cons head rest ih =>
    obtain ⟨record', full⟩ := head
    rw [protoRecords]
    unfold present at hrecord ih
    rw [map_cons, filter_cons] at hrecord
    split
    · next h =>
      rw [if_pos h] at hrecord
      rcases mem_cons.1 hrecord with rfl | hrecord
      · obtain ⟨-, hvalues, hdelete⟩ := resolve_spec w seen record
        exact ⟨_, mem_cons_self, hvalues, by rw [hdelete, if_pos hop]⟩
      · obtain ⟨r, hr, hspec⟩ := ih (record'.id :: seen) hrecord
        exact ⟨r, mem_cons_of_mem _ hr, hspec⟩
    · next h =>
      rw [if_neg h] at hrecord
      exact ih seen hrecord

/-! ### Conditions on batches -/

/-- The current row of an id, and where it is. -/
def current (s : System P Id K V D) (t : Thread P Id K V D) (id : Id) :
    Option (RowLocation P × Record Id K V D) :=
  last Record.id (s.written ++ t.written) id

/-- The batch supersedes the current rows of its ids: a record of the id goes to the
partition of the row, and it is no plain insert. -/
abbrev Follows (s : System P Id K V D) (t : Thread P Id K V D) (records : List (Record Id K V D)) :
    Prop :=
  ∀ record ∈ records, ∀ e ∈ current s t record.id, ∃ record' ∈ records,
    record'.id = record.id ∧ (record'.op ≠ .r ∧ record'.op ≠ .c) ∧ record'.values = e.2.values

/-- A backfill writes ids that have no row, and each one once. -/
abbrev Fresh (s : System P Id K V D) (t : Thread P Id K V D) (records : List (Record Id K V D)) :
    Prop :=
  (∀ record ∈ records, current s t record.id = none) ∧ (records.map Record.id).Nodup

/-- What is assumed of a batch. -/
structure Batch (alloc : Nat → P) (hasData : D → Bool) (s : System P Id K V D)
    (t : Thread P Id K V D) (records : List (Record Id K V D × Bool)) : Prop where
  follows : if t.operator.upsert then Follows s t (present hasData records)
    else Fresh s t (present hasData records)
  order : InOrder (landings alloc t.operator (protoRecords hasData t.writer [] records))

instance (alloc : Nat → P) (hasData : D → Bool) (s : System P Id K V D) (t : Thread P Id K V D)
    (records : List (Record Id K V D × Bool)) : Decidable (Batch alloc hasData s t records) :=
  decidable_of_iff (_ ∧ _) ⟨fun h => ⟨h.1, h.2⟩, fun h => ⟨h.follows, h.order⟩⟩

/-! ### What a commit would show -/

section Coherence

variable (covers : FileMatch P Id K V D)

/-- The row would be live if the thread committed now. -/
def WouldLive (t : IdTable P Id K V D) (o : IcebergTableOperator P Id K V D) (loc : RowLocation P)
    (row : Record Id K V D) : Prop :=
  (t.Live (idReader covers) loc row ∨ (lane o).HasRow loc.path loc.position row) ∧
    ∀ values, ¬ Deletes o values loc

/-- The state of an open thread between batches. -/
structure Coherent (s : System P Id K V D) (t : Thread P Id K V D) : Prop where
  shows : Shows Record.id (WouldLive covers s.table t.operator) (s.written ++ t.written)
  /-- A row that is deleted is deleted in its partition. -/
  covered : ∀ values loc, Deletes t.operator values loc →
    ∃ row, Stored s.table (lane t.operator) loc row ∧ Deletes t.operator row.values loc
  /-- The index knows the current row. -/
  index : ∀ id, t.writer.indexThread.Lookup id = (current s t id).map Prod.fst

end Coherence

section Thread

variable {covers : FileMatch P Id K V D} {alloc : Nat → P}
  {s : System P Id K V D} {t : Thread P Id K V D}

omit [DecidableEq P] [DecidableEq V]

theorem WouldLive.stored (h : WouldLive covers table o loc row) :
    Stored table (lane o) loc row := by
  obtain ⟨⟨f, hf, hpath, hrow, -⟩ | hrow, -⟩ := h
  · exact .inl ⟨f, hf, hpath, hrow⟩
  · exact .inr hrow

omit [DecidableEq Id] in
theorem Logged.apart (hl : Logged alloc s.allocated s.index s.written t)
    (hr : Recorded alloc s.allocated s.table s.index s.written) :
    Apart alloc s.allocated t.operator.allocated s.table (lane t.operator) :=
  ⟨hr.toFiled, hl.base_le, hl.named⟩

/-! ### One batch -/

variable {records : List (Record Id K V D × Bool)}

theorem Mid.ids
    (hm : Mid alloc s.allocated t.operator o ((protoRecords hasData w [] records).map Prod.fst) landed) :
    landed.map (fun e => e.2.id) = (present hasData records).map Record.id := by
  rw [← ids_protoRecords w [] records]
  have h := congrArg (map Record.id) hm.records
  simp only [map_map] at h
  exact h.trans (map_congr_left fun r _ => (normalise_spec r.1).1)

theorem Mid.exists_record
    (hm : Mid alloc s.allocated t.operator o ((protoRecords hasData w [] records).map Prod.fst) landed)
    (he : e ∈ landed) : ∃ record ∈ present hasData records, record.id = e.2.id := by
  have hmem : e.2.id ∈ (present hasData records).map Record.id := by
    rw [← hm.ids]
    exact mem_map.2 ⟨e, he, rfl⟩
  exact mem_map.1 hmem

theorem Mid.exists_landed (hm : Mid alloc s.allocated t.operator o sent landed) (hr : r ∈ sent) :
    ∃ e ∈ landed, e.2.id = r.row.id := by
  have hmem : (normalise r).row ∈ landed.map Prod.snd := by
    rw [hm.records]
    exact mem_map.2 ⟨r, hr, rfl⟩
  obtain ⟨e, he, hrow⟩ := mem_map.1 hmem
  exact ⟨e, he, by rw [hrow, (normalise_spec r).1]⟩

theorem Coherent.current_of_delete (hc : Coherent covers s t)
    (hr : r ∈ protoRecords hasData t.writer [] records)
    (hl : r.1.delete = some l) : ∃ y, current s t r.1.row.id = some (l, y) := by
  have hlookup := lookup_of_mem_protoRecords hr hl
  rw [hc.index, Option.map_eq_some_iff] at hlookup
  obtain ⟨⟨l', y⟩, hcur, rfl⟩ := hlookup
  exact ⟨y, hcur⟩

theorem Coherent.stored_of_current (hc : Coherent covers s t) {id : Id}
    (hcur : current s t id = some (l, y)) : WouldLive covers s.table t.operator l y := by
  have hid := (mem_of_last hcur).2
  exact (hc.shows l y).2 (by rw [hid]; exact hcur)

section Batch

variable {o : IcebergTableOperator P Id K V D}
  {landed : Landings P Id K V D} (hc : Coherent covers s t)
  (ha : Apart alloc s.allocated t.operator.allocated s.table (lane t.operator))
  (hm : Mid alloc s.allocated t.operator o ((protoRecords hasData t.writer [] records).map Prod.fst) landed)

include ha hm in
theorem not_stored_of_landed (he : e ∈ landed)
    (y : Record Id K V D) : ¬ Stored s.table (lane t.operator) e.1 y := by
  obtain ⟨hends, hpath⟩ := hm.free e he
  exact ha.not_stored hends hpath y

include hc hm in
theorem deletes_current (hupsert : t.operator.upsert = true)
    (hfol : Follows s t (present hasData records))
    (he : e ∈ landed) (hcur : current s t e.2.id = some (l, y)) : Deletes o y.values l := by
  obtain ⟨record, hrecord, hid⟩ := hm.exists_record he
  obtain ⟨record', hrecord', hid', hop, hvalues⟩ := hfol record hrecord (l, y) (hid ▸ hcur)
  obtain ⟨r, hr, hrvalues, hdelete⟩ := exists_mem_protoRecords t.writer [] hrecord' hop
  rw [hc.index, hid', hid, hcur] at hdelete
  exact (hm.deletes _ _).2 (.inr ⟨hupsert, .inl ⟨r.1, mem_map_of_mem hr, hdelete,
    (hrvalues.trans hvalues).symm⟩⟩)

include hc hm in
/-- A batch of upserts deletes current rows of its ids, and rows of its own. -/
theorem deletes_cases (hv : Deletes o v l) : Deletes t.operator v l ∨ t.operator.upsert = true ∧
    ((∃ e ∈ landed, ∃ y, current s t e.2.id = some (l, y)) ∨
      ∃ y, Superseded Record.id landed l y ∧ v = y.values) := by
  refine ((hm.deletes v l).1 hv).imp_right fun ⟨hupsert, h⟩ => ⟨hupsert, h.imp_left ?_⟩
  rintro ⟨r, hr, hdelete, -⟩
  obtain ⟨r', hr', rfl⟩ := mem_map.1 hr
  obtain ⟨y, hcur⟩ := hc.current_of_delete hr' hdelete
  obtain ⟨e, he, hid⟩ := hm.exists_landed hr
  exact ⟨e, he, y, hid ▸ hcur⟩

include hc ha hm in
/-- What a commit would show after a batch.  A backfill has nothing to supersede. -/
theorem wouldLive_of_batch (hfol : if t.operator.upsert then Follows s t (present hasData records)
      else Fresh s t (present hasData records)) (l : RowLocation P) (y : Record Id K V D) :
    WouldLive covers s.table o l y ↔
      WouldLive covers s.table t.operator l y ∧ last Record.id landed y.id = none ∨
        last Record.id landed y.id = some (l, y) := by
  have hown : ∀ l y, Superseded Record.id landed l y → ∃ v, Deletes o v l := by
    intro l y hsup
    split at hfol
    · next hupsert => exact ⟨_, (hm.deletes _ _).2 (.inr ⟨hupsert, .inr ⟨y, hsup, rfl⟩⟩)⟩
    · have hids : (landed.map (fun e => e.2.id)).Nodup := hm.ids ▸ hfol.2
      exact absurd (last_of_nodup hids hsup.1) hsup.2
  have hold : ∀ e ∈ landed, ∀ l y, current s t e.2.id = some (l, y) → ∃ v, Deletes o v l := by
    intro e he l y hcur
    split at hfol
    · next hupsert => exact ⟨_, deletes_current hc hm hupsert hfol he hcur⟩
    · obtain ⟨record, hrecord, hid⟩ := hm.exists_record he
      rw [← hid, hfol.1 record hrecord] at hcur
      cases hcur
  constructor
  · rintro ⟨hrow, hdel⟩
    by_cases hl : (l, y) ∈ landed
    · right
      by_contra hlast
      obtain ⟨v, hv⟩ := hown l y ⟨hl, hlast⟩
      exact hdel v hv
    · left
      have hlive : WouldLive covers s.table t.operator l y := by
        refine ⟨hrow.imp_right fun h => ((hm.rows _ _ _).1 h).resolve_right hl, fun v hv => ?_⟩
        exact hdel v ((hm.deletes _ _).2 (.inl hv))
      refine ⟨hlive, last_eq_none.2 fun e he hid => ?_⟩
      obtain ⟨v, hv⟩ := hold e he l y (hid ▸ (hc.shows l y).1 hlive)
      exact hdel v hv
  · rintro (⟨hlive, hlast⟩ | hlast)
    · refine ⟨hlive.1.imp_right fun h => (hm.rows _ _ _).2 (.inl h), fun v hv => ?_⟩
      rcases deletes_cases hc hm hv with hv | ⟨-, ⟨e, he, y', hcur⟩ | ⟨y', hsup, -⟩⟩
      · exact hlive.2 v hv
      · -- the deleted row is one of an id of the batch
        obtain rfl := ha.unique (hc.stored_of_current hcur).stored hlive.stored
        exact last_eq_none.1 hlast e he (mem_of_last hcur).2.symm
      · exact not_stored_of_landed ha hm hsup.1 y hlive.stored
    · have hmem := (mem_of_last hlast).1
      refine ⟨.inr ((hm.rows _ _ _).2 (.inr hmem)), fun v hv => ?_⟩
      rcases deletes_cases hc hm hv with hv | ⟨-, ⟨e, he, y', hcur⟩ | ⟨y', hsup, -⟩⟩
      · obtain ⟨row, hstored, -⟩ := hc.covered v l hv
        exact not_stored_of_landed ha hm hmem row hstored
      · exact not_stored_of_landed ha hm hmem y' (hc.stored_of_current hcur).stored
      · obtain rfl : y' = y := congrArg Prod.snd (inj_on_of_nodup_map hm.places hsup.1 hmem rfl)
        exact hsup.2 hlast

include hc hm in
/-- What the batch deletes is deleted in its partition. -/
theorem covered_of_batch (hfol : if t.operator.upsert then Follows s t (present hasData records)
      else Fresh s t (present hasData records)) (v : V) (l : RowLocation P) (hv : Deletes o v l) :
    ∃ row, Stored s.table (lane o) l row ∧ Deletes o row.values l := by
  have hkeep : ∀ row, Stored s.table (lane t.operator) l row → Stored s.table (lane o) l row :=
    fun row h => h.imp_right fun h => (hm.rows _ _ _).2 (.inl h)
  rcases deletes_cases hc hm hv with hv | ⟨hupsert, ⟨e, he, y, hcur⟩ | ⟨y, hsup, rfl⟩⟩
  · obtain ⟨row, hstored, hrow⟩ := hc.covered v l hv
    exact ⟨row, hkeep row hstored, (hm.deletes _ _).2 (.inl hrow)⟩
  · rw [if_pos hupsert] at hfol
    exact ⟨y, hkeep y (hc.stored_of_current hcur).stored, deletes_current hc hm hupsert hfol he hcur⟩
  · exact ⟨y, .inr ((hm.rows _ _ _).2 (.inr hsup.1)), hv⟩

end Batch

theorem Coherent.write [DecidableEq P] [DecidableEq V] (halloc : Function.Injective alloc)
    (hr : Recorded alloc s.allocated s.table s.index s.written)
    (hl : Logged alloc s.allocated s.index s.written t) (hc : Coherent covers s t)
    (hbatch : Batch alloc hasData s t records) : Coherent covers s (t.write alloc hasData records) := by
  unfold Thread.write Write
  dsimp only
  split
  · next hempty =>
    rw [isEmpty_iff.1 hempty, landings, append_nil]
    exact hc
  · have hm := hl.mid halloc (protoRecords hasData t.writer [] records)
    have hlive := wouldLive_of_batch hc (hl.apart hr) hm hbatch.follows
    have hcovered := covered_of_batch hc hm hbatch.follows
    refine ⟨?_, hcovered, fun id => ?_⟩
    · rw [← append_assoc]
      exact hc.shows.append hlive
    · rw [lookup_putMaps t.writer hbatch.order, hc.index, ← Option.map_or, current, current,
        ← append_assoc, @last_append _ _ _ _ _ (s.written ++ t.written)]

theorem Coherent.complete [DecidableEq V] (alloc : Nat → P) (hc : Coherent covers s t) (order : List V) :
    Coherent covers s { t with operator := completeWriter order t.operator } := by
  have hsame := same_completeWriter alloc t.operator order
  refine ⟨hc.shows.congr fun l y => ?_, fun v l hv => ?_, hc.index⟩
  · simp only [WouldLive, hsame.rows, hsame.deletes]
  · simp only [Stored, hsame.rows, hsame.deletes] at hv ⊢
    exact hc.covered v l hv

end Thread

/-! ### The life of the table -/

/-- The table has the rows of its writers. -/
structure Sound (covers : FileMatch P Id K V D)
    (alloc : Nat → P) (s : System P Id K V D) : Prop extends Found alloc s where
  sorted : ∀ f ∈ s.table.data, ∀ row ∈ f.rows, row.values = f.partition
  shows : Shows Record.id (s.table.Live (idReader covers)) s.written
  index : ∀ id, s.index id = (last Record.id s.written id).map Prod.fst
  vectors : s.table.vectors = []
  coherent : ∀ t, s.thread = some t → Coherent covers s t

section Steps

variable {covers : FileMatch P Id K V D} {alloc : Nat → P}
  {s : System P Id K V D} {t : Thread P Id K V D}

omit [DecidableEq P] [DecidableEq V] in
theorem Sound.start : Sound covers alloc (System.start : System P Id K V D) where
  toFound := Found.start
  sorted := by simp [System.start, Table.empty]
  shows l y := by simp [System.start, Table.empty, Table.Live]
  index _ := rfl
  vectors := rfl
  coherent _ h := by cases h

omit [DecidableEq P] [DecidableEq V] in
theorem coherent_new (hs : Sound covers alloc s) (upsert resolveUpsertOp : Bool) :
    Coherent covers s ⟨⟨.new s.index, resolveUpsertOp⟩, .new upsert s.allocated, []⟩ := by
  have hfile : ∀ f, ¬ (lane (.new upsert s.allocated : IcebergTableOperator P Id K V D)).HasFile f := by
    rintro f (hf | ⟨k, hf⟩) <;> simp [lane, IcebergTableOperator.new] at hf
  have hdel : ∀ v l, ¬ Deletes (.new upsert s.allocated : IcebergTableOperator P Id K V D) v l := by
    rintro v l ⟨d, hd, -⟩
    simp [IcebergTableOperator.new] at hd
  refine ⟨fun l y => ?_, fun v l h => absurd h (hdel v l), fun id => ?_⟩
  · rw [append_nil, ← hs.shows l y]
    simp [WouldLive, Lane.HasRow, hfile, hdel]
  · rw [current, append_nil]
    exact hs.index id

section Commit

variable (hs : Sound covers alloc s) (hl : Logged alloc s.allocated s.index s.written t)
  (hc : Coherent covers s t) (ho : Closed t.operator)

include hs hl ho

omit [DecidableEq V]

/-- A file of the table after the commit that has the path of a row is in the partition of
the row. -/
theorem Sound.partition
    (hf : f ∈ (s.table.commit (idReader covers) (delta t.operator)).data) (loc : RowLocation P)
    (hpath : loc.path = f.path)
    (hrow : Stored s.table (lane t.operator) loc row) : row.values = f.partition := by
  have ha := hl.apart hs.recorded
  rcases Table.mem_data_commit.1 hf with hf | ⟨g, hg, rfl⟩ <;>
    rcases hrow with ⟨f', hf', hpath', hrow⟩ | ⟨g', hg', hpath', hrow⟩
  · obtain rfl : f' = f := inj_on_of_nodup_map ha.ordered.paths hf' hf (hpath'.trans hpath)
    exact hs.sorted f' hf' row (mem_of_getElem? hrow)
  · exact absurd (hpath'.trans hpath).symm ((ha.unmentioned hg').data f hf)
  · obtain ⟨h, hh, rfl⟩ := (mem_delta_data ho).1 hg
    exact absurd (hpath'.trans hpath) ((ha.unmentioned hh).data f' hf')
  · obtain ⟨h, hh, rfl⟩ := (mem_delta_data ho).1 hg
    obtain rfl := hl.named.eq_of_filePath hg' hh (hpath'.trans hpath)
    exact hl.sorted.rows _ row ⟨g', hg', rfl, mem_of_getElem? hrow⟩

include hc

/-- A delete is read for the file of its row. -/
theorem Sound.accepts (hcovers : ∀ d f, d.partition = f.partition → covers d f = true) :
    s.table.Accepts (idReader covers) (delta t.operator) := by
  have ha := hl.apart hs.recorded
  refine ⟨ha.fresh_files (hl.commits ho), (hl.commits ho).paths, .inr ⟨hs.vectors, rfl⟩, ?_⟩
  intro f hf d hd loc hloc hpath
  obtain ⟨row, hstored, hrow⟩ := hc.covered d.1 loc ((deletes_iff_delta ho).2 ⟨d, hd, rfl, hloc⟩)
  obtain ⟨d', hd', hvalues, hloc'⟩ := (deletes_iff_delta ho).1 hrow
  exact ⟨d', hd', hloc', hcovers _ _ (hvalues.trans (hs.partition hl ho hf loc hpath hstored))⟩

theorem Sound.commit (hcovers : ∀ d f, d.partition = f.partition → covers d f = true)
    (hfound : Found alloc ⟨s.table.commit (idReader covers) (delta t.operator),
      t.writer.indexThread.Commit s.index, s.written ++ t.written, t.operator.allocated, none⟩) :
    Sound covers alloc
      ⟨s.table.commit (idReader covers) (delta t.operator), t.writer.indexThread.Commit s.index,
        s.written ++ t.written, t.operator.allocated, none⟩ where
  toFound := hfound
  sorted f hf row hrow := by
    obtain ⟨i, hi⟩ := mem_iff_getElem?.1 hrow
    refine hs.partition hl ho hf ⟨f.path, i⟩ rfl ?_
    rcases Table.mem_data_commit.1 hf with hf | ⟨g, hg, rfl⟩
    · exact .inl ⟨f, hf, rfl, hi⟩
    · obtain ⟨h, hh, rfl⟩ := (mem_delta_data ho).1 hg
      exact .inr ⟨h, hh, rfl, hi⟩
  shows := by
    refine hc.shows.congr fun l y => ?_
    rw [Table.live_commit hs.recorded.ordered (hs.accepts hl hc ho hcovers), delta_holds ho,
      delta_position ho, not_exists]
    simp [WouldLive, Table.Live, Delta.Equality, delta]
  index id := by
    rw [← hl.index]
    exact hc.index id
  vectors := by simp [Iceberg.Table.commit, delta, hs.vectors]
  coherent _ h := by cases h

end Commit

/-- What is assumed of an event: batches are as above, and a thread that closes finishes
all its files. -/
def Allowed (alloc : Nat → P) (hasData : D → Bool) (e : Event Id K V D) (s : System P Id K V D) :
    Prop :=
  match e, s.thread with
  | .write records, some t => Batch alloc hasData s t records
  | .close order, some t => ∀ v, (t.operator.dataWriters v).isSome → v ∈ order
  | _, _ => True

instance [Fintype V] (alloc : Nat → P) (hasData : D → Bool) (e : Event Id K V D)
    (s : System P Id K V D) : Decidable (Allowed alloc hasData e s) := by
  unfold Allowed
  exact match e, s.thread with
  | .new .., _ | .abort, _ | .complete _, _ | .write _, none | .close _, none => inferInstance
  | .write _, some _ | .close _, some _ => inferInstance

theorem Allowed.finishes (he : Allowed alloc hasData e s) : Finishes e s := by
  cases e <;> cases hthread : s.thread <;> simp_all [Allowed, Finishes]

omit [DecidableEq P] [DecidableEq V] in
/-- The thread of a sound table is replaced by a coherent one, or ends. -/
theorem Sound.replace (hs : Sound covers alloc s)
    (hfound : Found alloc { s with allocated := n, thread := thread })
    (hc : ∀ t, thread = some t → Coherent covers s t) :
    Sound covers alloc { s with allocated := n, thread := thread } :=
  ⟨hfound, hs.sorted, hs.shows, hs.index, hs.vectors, fun t h => ⟨(hc t h).1, (hc t h).2, (hc t h).3⟩⟩

theorem Sound.step (hcovers : ∀ d f, d.partition = f.partition → covers d f = true)
    (halloc : Function.Injective alloc) (e : Event Id K V D) (hs : Sound covers alloc s)
    (he : Allowed alloc hasData e s) : Sound covers alloc (Legacy.step alloc hasData covers e s) := by
  have hfound : Found alloc (Legacy.step alloc hasData covers e s) :=
    hs.toFound.step halloc e he.finishes
  revert hfound
  fun_cases Legacy.step alloc hasData covers e s with
  | case1 upsert resolveUpsertOp =>
    refine fun hfound => hs.replace hfound ?_
    rintro _ ⟨⟩
    exact coherent_new hs upsert resolveUpsertOp
  | case2 records t hthread =>
    simp only [Allowed, hthread] at he
    refine fun hfound => hs.replace hfound ?_
    rintro _ ⟨⟩
    exact (hs.coherent _ hthread).write halloc hs.recorded (hs.thread _ hthread) he
  | case3 order t hthread =>
    refine fun hfound => hs.replace hfound ?_
    rintro _ ⟨⟩
    exact (hs.coherent _ hthread).complete alloc order
  | case4 order t hthread =>
    intro hfound
    -- the thread closes
    simp only [Allowed, hthread] at he
    rcases hs.close_cases covers hthread he with ⟨-, heq⟩ | heq
    · rw [heq, append_nil] at hfound ⊢
      exact hs.replace hfound fun _ h => by cases h
    · rw [heq] at hfound ⊢
      exact hs.commit ((hs.thread _ hthread).complete order) ((hs.coherent _ hthread).complete alloc order)
        (closed_completeWriter he) hcovers hfound
  | case5 => exact fun hfound => hs.replace hfound fun _ h => by cases h
  | case6 => exact fun _ => hs

/-- In every run of writer threads whose batches supersede the current rows of their ids
where these are, what can be read is the last row written for each id. -/
theorem live_iff_last_written_legacy
    (hcovers : ∀ d f, d.partition = f.partition → covers d f = true) (halloc : Function.Injective alloc)
    (events : List (Event Id K V D))
    (hevents : Machine.Along (Legacy.step alloc hasData covers) (Allowed alloc hasData) events System.start)
    (loc : RowLocation P) (row : Record Id K V D) :
    let s := Machine.run (Legacy.step alloc hasData covers) events System.start
    s.table.Live (idReader covers) loc row ↔ last Record.id s.written row.id = some (loc, row) := by
  have hsound : Sound covers alloc
      (Machine.run (Legacy.step alloc hasData covers) events System.start) :=
    Machine.run_inv (fun e s hs he => hs.step hcovers halloc e he) Sound.start hevents
  exact hsound.shows loc row

end Steps

def sync (batches : List (List (Record Nat Unit Bool Nat))) : List (Event Nat Unit Bool Nat) :=
  .new true true :: batches.map (fun records => .write (records.map (fun record => (record, false)))) ++
    [.close [false, true]]

/-- A row is updated twice in a batch, and moves to another partition; the batch tells its
old partition as well. -/
theorem live_iff_last_written_legacy_moved :
    let events := sync [[⟨.c, 1, (), false, 10⟩]] ++
      sync [[⟨.u, 1, (), false, 11⟩, ⟨.u, 1, (), true, 12⟩], [⟨.d, 1, (), true, 13⟩]]
    let s := Machine.run (Legacy.step id (fun _ => true) readsFor) events System.start
    ∃ loc, s.table.Live (idReader readsFor) loc (⟨.d, 1, (), true, 13⟩ : Record Nat Unit Bool Nat) ∧
      last Record.id s.written 1 = some (loc, ⟨.d, 1, (), true, 13⟩) := by
  refine ⟨⟨2, 1⟩, ?_, by decide +kernel⟩
  exact (live_iff_last_written_legacy (fun d f h => by simp [readsFor, h]) Function.injective_id _
    (by decide +kernel) _ _).2 (by decide +kernel)

abbrev TwoLive (s : System Nat Nat Unit Bool Nat) : Prop :=
  ∃ e ∈ s.written, ∃ e' ∈ s.written, e.1 ≠ e'.1 ∧ e.2.id = e'.2.id ∧
    s.table.Live (idReader readsFor) e.1 e.2 ∧ s.table.Live (idReader readsFor) e'.1 e'.2

/-- A row that moves to a partition where another row is updated stays where it was; so
does the tombstone of a row that is inserted again; and a row that leaves its partition
and comes back in one batch is not found by the next one. -/
theorem two_rows_live_legacy :
    List.Forall (fun events =>
      TwoLive (Machine.run (Legacy.step id (fun _ => true) readsFor) events System.start)) [
      sync [[⟨.c, 1, (), false, 10⟩, ⟨.c, 2, (), true, 20⟩]] ++
        sync [[⟨.u, 1, (), true, 11⟩, ⟨.u, 2, (), true, 21⟩]],
      sync [[⟨.c, 1, (), false, 10⟩]] ++ sync [[⟨.d, 1, (), false, 11⟩]] ++ sync [[⟨.c, 1, (), false, 12⟩]],
      sync [[⟨.c, 2, (), false, 20⟩, ⟨.c, 1, (), true, 10⟩, ⟨.u, 1, (), false, 11⟩]] ++
        sync [[⟨.u, 1, (), false, 12⟩]]] := by
  decide +kernel

end Olake.Legacy
