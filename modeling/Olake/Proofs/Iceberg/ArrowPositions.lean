/-
Where the rows of the arrow writer end up.

`extract` tells where a record lands from the rows of the open file and those that are still
in the buffer.  Files are rolled, finished and opened in between, but a row stays where it
was told to be (`Logged.rows`), so the index and the positional deletes name rows that are
in the files of the table (`positions_hold`).
-/
import Mathlib.Data.Fintype.Sets
import Olake.Proofs.Iceberg.ArrowFlushing
import Olake.Proofs.Iceberg.Positions

namespace Olake.Arrow

open Iceberg IcebergWriter Staging TableIndex List

variable {P Id K V D : Type}

/-- The map of partitions is walked as a whole. -/
def Walks (w : ArrowWriter P Id K V D) (order : List K) : Prop :=
  ∀ k, (w.writers k).isSome → k ∈ order

theorem Walks.mem_or_none (h : Walks w order) (k : K) : k ∈ order ∨ w.writers k = none := by
  cases hk : w.writers k with
  | none => exact .inr rfl
  | some writer => exact .inl (h k (by rw [hk]; rfl))

variable [DecidableEq Id] [DecidableEq K]

/-! ### The open thread -/

/-- The row was written, and a row of its id after it. -/
def Replaced (written : Landings P Id K V D) (loc : RowLocation P) : Prop :=
  ∃ row e, [(loc, row), e].Sublist written ∧ e.2.id = row.id

variable (alloc : Nat → P)

/-- The rows of an open thread are those that were written, its changes name them, and it
deletes rows that are replaced. -/
structure Logged (base : Nat) (index : StreamIndex P Id)
    (old : Landings P Id K V D) (w : ArrowWriter P Id K V D)
    (written : Landings P Id K V D) : Prop where
  ready : Ready w
  base_le : base ≤ w.allocated
  named : (dataLane w).Named alloc base w.allocated
  rows : ∀ path i y, (dataLane w).HasRow path i y ↔ (⟨path, i⟩, y) ∈ written
  positions : ∀ loc, Position w loc → Replaced (old ++ written) loc
  /-- A partition remembers rows that the thread has written. -/
  remembered : ∀ k id loc, idPosition w k id = some loc → (loc, id) ∈ toldOf written
  index : ∀ thread, w.indexThread = some thread →
    thread.index = index ∧ Tops thread.changes (toldOf written)

section Thread

variable {alloc : Nat → P} {base : Nat} {t : IdTable P Id K V D} {index : StreamIndex P Id}
  {w w' : ArrowWriter P Id K V D} {old written : Landings P Id K V D}

omit [DecidableEq Id] [DecidableEq K] in
theorem Replaced.told (h : Replaced written loc) : ∃ id, (loc, id) ∈ toldOf written := by
  obtain ⟨row, e, hsub, -⟩ := h
  exact ⟨row.id, mem_map_of_mem (hsub.subset mem_cons_self)⟩

omit [DecidableEq Id] [DecidableEq K] in
theorem Logged.same (hl : Logged alloc base index old w written) (h : Same alloc w w') :
    Logged alloc base index old w' written where
  ready := h.ready hl.ready
  base_le := Nat.le_trans hl.base_le h.allocated
  named := h.named _ hl.base_le hl.named
  rows path i y := (h.rows path i y).trans (hl.rows path i y)
  positions loc hloc := hl.positions loc ((h.positions loc).1 hloc)
  remembered k id loc hid := hl.remembered k id loc ((h.idPosition k id).symm.trans hid)
  index thread hthread := hl.index thread (h.index ▸ hthread)

variable {rec row : Record Id K V D} {loc : RowLocation P}

omit [DecidableEq Id] [DecidableEq K] in
/-- What a record deletes by position is a row of its id. -/
theorem Logged.told_of_mem (hr : Recorded alloc base t index old) (hl : Logged alloc base index old w written)
    (hloc : loc ∈ positionDeletes w rec) : (loc, rec.id) ∈ toldOf (old ++ written) := by
  unfold positionDeletes at hloc
  split at hloc
  · next thread hthread =>
    obtain ⟨hindex, htops⟩ := hl.index thread hthread
    unfold indexDeletes at hloc
    split at hloc
    · rw [Option.mem_toList, StreamIndexThread.lookup_eq, hindex] at hloc
      exact hr.told htops hloc
    · cases hloc
  · split at hloc
    · rw [toldOf, map_append]
      exact mem_append_right _ (hl.remembered _ _ _ (Option.mem_toList.1 hloc))
    · cases hloc

theorem Logged.placed (hr : Recorded alloc base t index old) (hl : Logged alloc base index old w written)
    (hp : Placed alloc w w' rec loc row) : Logged alloc base index old w' (written ++ [(loc, row)]) := by
  obtain ⟨hnamed, hends, -⟩ := hp.named base hl.base_le hl.named
  have htold : toldOf (written ++ [(loc, row)]) = toldOf written ++ [(loc, rec.id)] := by
    rw [toldOf, map_append, map_singleton, hp.row_id]
  exact {
    ready := hp.ready
    base_le := Nat.le_trans hl.base_le hp.allocated
    named := hnamed
    rows := by
      intro path i y
      rw [hp.rows, hl.rows, mem_append, mem_singleton, Prod.mk.injEq, RowLocation.mk.injEq, and_assoc]
    positions := by
      intro l hpos
      rw [← append_assoc]
      rcases (hp.positions l).1 hpos with hpos | hmem
      · obtain ⟨y, e, hsub, hid⟩ := hl.positions l hpos
        exact ⟨y, e, hsub.trans (sublist_append_left _ _), hid⟩
      · obtain ⟨⟨_, y⟩, he, heq⟩ := mem_map.1 (hl.told_of_mem hr hmem)
        obtain ⟨rfl, hid⟩ := Prod.mk.inj heq
        exact ⟨y, (loc, row), (singleton_sublist.2 he).append (List.Sublist.refl _),
          hp.row_id.trans hid.symm⟩
    remembered := by
      intro k id l hid
      rw [htold, mem_append, mem_singleton]
      rw [hp.idPosition] at hid
      split at hid
      · next h =>
        cases hid
        exact .inr (by rw [h.2.2])
      · exact .inl (hl.remembered k id l hid)
    index := by
      intro thread' h
      rw [hp.index, Option.map_eq_some_iff] at h
      obtain ⟨thread, hthread, rfl⟩ := h
      obtain ⟨hindex, htops⟩ := hl.index thread hthread
      rw [htold]
      refine ⟨hindex, htops.put (e := (loc, rec.id)) fun e he hpath => ?_⟩
      obtain ⟨⟨l, y⟩, hwritten, rfl⟩ := mem_map.1 he
      exact hends _ y ((hl.rows _ _ _).2 (hpath ▸ hwritten)) }

theorem Logged.extract (halloc : Function.Injective alloc) (hr : Recorded alloc base t index old)
    (hl : Logged alloc base index old w written) (records : List (Record Id K V D)) :
    Logged alloc base index old (Arrow.extract alloc w records) (written ++ landings alloc w records) ∧
      (Arrow.extract alloc w records).deleteMode = w.deleteMode := by
  induction records generalizing w written with
  | nil => exact ⟨by simpa [Arrow.extract, landings] using hl, rfl⟩
  | cons rec rest ih =>
    obtain ⟨loc, row, hland, hp⟩ := extractRecord_placed halloc hl.ready rec
    rw [landings, ← append_assoc, ← hp.deleteMode]
    refine ih ?_
    rw [hland]
    exact hl.placed hr hp

omit [DecidableEq K] [DecidableEq Id] in
theorem logged_new (upsertMode resolveUpsertOp : Bool) (deleteMode : UpdateType) (n : Nat) :
    Logged alloc n index old (New upsertMode resolveUpsertOp deleteMode index n) [] where
  ready := by
    refine ⟨?_, by simp [New], by simp [New], by simp [New]⟩
    cases deleteMode <;> simp [New, UpdateType.NeedsTableIndex]
  base_le := Nat.le_refl _
  named := by constructor <;> simp [New, dataLane]
  rows path i y := by
    refine ⟨?_, fun h => absurd h not_mem_nil⟩
    rintro ⟨f, hf | ⟨k, hf⟩, -⟩ <;> simp [dataLane, New] at hf
  positions loc := by
    rintro (⟨values, f, hf | ⟨k, hf⟩, -⟩ | ⟨k, writer, hk, -⟩ | ⟨v, hv, -⟩ | hv)
    all_goals simp_all [posLane, New]
  remembered k id loc h := by simp [New, idPosition] at h
  index thread h := by
    rw [New] at h
    split at h
    · cases h
      exact ⟨rfl, Tops.nil⟩
    · cases h

omit [DecidableEq K] [DecidableEq Id] in
/-- With its files finished, the thread has staged what it commits. -/
theorem Logged.commits (hl : Logged alloc base index old w written) (hclear : ∀ k, Clear w k)
    (hclosed : ∀ k, Closed w k) : Commits (dataLane w) (Position w) (delta (sendPendingVectors w)) where
  files f hf := by
    obtain ⟨g, hg, rfl⟩ := mem_map.1 hf
    exact ⟨g, .inl hg, rfl⟩
  paths := by
    rw [delta, map_map]
    exact hl.named.nodup
  holds _ _ := delta_holds hclosed
  position _ := delta_position hl.ready hclear hclosed

end Thread

/-! ### The life of the table -/

/-- The rows are where they were told to be. -/
structure Found (deleteMode : UpdateType) (s : System P Id K V D) : Prop where
  recorded : Recorded alloc s.allocated s.table s.index s.written
  lists : ∀ loc, s.table.Lists loc → Replaced s.written loc
  thread : ∀ w written, s.thread = some (w, written) → w.deleteMode = deleteMode ∧
    Logged alloc s.allocated s.index s.written w written ∧ ∀ k, Clear w k

/-- What is assumed of an event: every partition is walked. -/
def Walked (e : Event Id K V D) (s : System P Id K V D) : Prop :=
  match e, s.thread with
  | .write order _ records, some (w, _) => Walks (Arrow.extract alloc w records) order
  | .close order, some (w, _) => Walks w order
  | _, _ => True

instance [Fintype K] (e : Event Id K V D) (s : System P Id K V D) :
    Decidable (Walked alloc e s) := by
  unfold Walked Walks
  split <;> infer_instance

section Steps

variable {alloc : Nat → P} {deleteMode : UpdateType} {s : System P Id K V D}
  {w : ArrowWriter P Id K V D} {written : Landings P Id K V D}

omit [DecidableEq Id] [DecidableEq K] in
theorem Found.start : Found alloc deleteMode (System.start : System P Id K V D) :=
  ⟨Recorded.empty, by simp [System.start, Table.Lists, Table.empty], nofun⟩

variable [DecidableEq P] {covers : FileMatch P Id K V D}

theorem Found.write (halloc : Function.Injective alloc) (hs : Found alloc deleteMode s)
    (hthread : s.thread = some (w, written)) (full : K → Full)
    (hwalk : Walks (Arrow.extract alloc w records) order) :
    Same alloc (Arrow.extract alloc w records) (Write alloc order full w records) ∧
      (Write alloc order full w records).deleteMode = deleteMode ∧
      Logged alloc s.allocated s.index s.written (Write alloc order full w records)
        (written ++ landings alloc w records) ∧ ∀ k, Clear (Write alloc order full w records) k := by
  obtain ⟨hmode, hl, -⟩ := hs.thread w written hthread
  obtain ⟨hl', hmode'⟩ := hl.extract halloc hs.recorded records
  obtain ⟨hsame, hwriters⟩ := same_writePartitions halloc full order hl'.ready
  refine ⟨hsame, hsame.deleteMode.trans (hmode'.trans hmode), hl'.same hsame, fun k => (hwriters k).2 ?_⟩
  exact (hwalk.mem_or_none k).imp_right fun hk writer h => by rw [hk] at h; cases h

variable (covers) in
/-- A thread that closes finishes its files.  If there are none, nothing was written. -/
theorem Found.close_cases (hs : Found alloc deleteMode s) (hthread : s.thread = some (w, written))
    (hwalk : Walks w order) :
    ∃ w', Same alloc w w' ∧ (∀ k, Clear w' k) ∧ (∀ k, Closed w' k) ∧
      (written = [] ∧ close covers order s w written =
          { s with thread := none, allocated := w'.allocated, written := s.written ++ [] } ∨
        close covers order s w written =
          ⟨s.table.commit (idReader covers) (delta (sendPendingVectors w')),
            match w'.indexThread with
              | some thread => thread.Commit s.index
              | none => s.index,
            s.written ++ written, w'.allocated, none⟩) := by
  obtain ⟨-, hl, hclear⟩ := hs.thread w written hthread
  obtain ⟨hsame, hwriters⟩ := same_completeWriters alloc order hl.ready hclear
  have hclear' := fun k => (hwriters k).1
  have hclosed : ∀ k, Closed (completeWriters order w) k := fun k => (hwriters k).2
    ((hwalk.mem_or_none k).imp_right fun hk writer h => by rw [hk] at h; cases h)
  refine ⟨_, hsame, hclear', hclosed, ?_⟩
  unfold close
  dsimp only
  split
  · next heq =>
    obtain rfl := eq_nil_of_commits ((hl.same hsame).commits hclear' hclosed) (hl.same hsame).rows
      (commitThread_eq_none.1 heq).1
    exact .inl ⟨rfl, rfl⟩
  · next table heq =>
    rw [commitThread_eq_some heq]
    exact .inr rfl

theorem Found.step (halloc : Function.Injective alloc) (e : Event Id K V D)
    (hs : Found alloc deleteMode s) (he : Walked alloc e s) :
    Found alloc deleteMode (Arrow.step alloc covers deleteMode e s) := by
  fun_cases Arrow.step alloc covers deleteMode e s with
  | case1 =>
    -- a new thread
    refine ⟨hs.recorded, hs.lists, fun _ _ h => ?_⟩
    cases h
    exact ⟨rfl, logged_new _ _ _ _, nofun⟩
  | case2 order full records w written hthread =>
    -- a batch
    simp only [Walked, hthread] at he
    refine ⟨hs.recorded, hs.lists, fun _ _ h => ?_⟩
    cases h
    exact (hs.write halloc hthread full he).2
  | case3 order w written hthread =>
    -- the schema evolves
    obtain ⟨hmode, hl, hclear⟩ := hs.thread _ _ hthread
    obtain ⟨hsame, hwriters⟩ := same_completeWriters alloc order hl.ready hclear
    refine ⟨hs.recorded, hs.lists, fun _ _ h => ?_⟩
    cases h
    exact ⟨hsame.deleteMode.trans hmode, hl.same hsame, fun k => (hwriters k).1⟩
  | case4 order w written hthread =>
    -- the thread closes
    simp only [Walked, hthread] at he
    have hl := (hs.thread _ _ hthread).2.1
    obtain ⟨w', hsame, hclear, hclosed, ⟨rfl, heq⟩ | heq⟩ := hs.close_cases covers hthread he
    · rw [heq, append_nil]
      exact ⟨hs.recorded.mono (hl.same hsame).base_le, hs.lists, nofun⟩
    · have hl' := hl.same hsame
      have hδ := hl'.commits hclear hclosed
      rw [heq]
      refine ⟨hs.recorded.commit halloc hl'.base_le hl'.named hδ hl'.rows
        (fun loc hloc => (hl'.positions loc hloc).told) (fun id loc hid => ?_) _, fun loc hloc => ?_,
        nofun⟩
      · cases hindex : w'.indexThread with
        | some thread =>
          simp only [hindex, StreamIndexThread.commit_eq] at hid
          exact hs.recorded.told (hl'.index thread hindex).2 hid
        | none =>
          simp only [hindex] at hid
          rw [toldOf, map_append]
          exact mem_append_left _ (hs.recorded.index id loc hid)
      · rcases Table.lists_commit hloc with hloc | hloc
        · obtain ⟨row, e, hsub, hid⟩ := hs.lists loc hloc
          exact ⟨row, e, hsub.trans (sublist_append_left _ _), hid⟩
        · exact hl'.positions loc ((hδ.position loc).1 hloc)
  | case5 w written hthread =>
    exact ⟨hs.recorded.mono (hs.thread _ _ hthread).2.1.base_le, hs.lists, nofun⟩
  | case6 => exact hs

/-- In every run of writer threads, a row that was told to land somewhere is in the data file
with that path and at that position once its thread has committed; the index names a row of
each of its ids; and the positional deletes name rows after which their ids were written
again. -/
theorem positions_hold (halloc : Function.Injective alloc) (deleteMode : UpdateType)
    (events : List (Event Id K V D))
    (hevents : Machine.Along (Arrow.step alloc covers deleteMode) (Walked alloc) events System.start) :
    let s := Machine.run (Arrow.step alloc covers deleteMode) events System.start
    (∀ loc row, (loc, row) ∈ s.written → s.table.Holds loc row) ∧
      (∀ id loc, s.index id = some loc → ∃ row, row.id = id ∧ s.table.Holds loc row) ∧
      ∀ loc, s.table.Lists loc → Replaced s.written loc ∧ ∃ row, s.table.Holds loc row := by
  intro s
  have hs : Found alloc deleteMode s :=
    Machine.run_inv (fun e s hs he => hs.step halloc e he) Found.start hevents
  refine ⟨fun loc row h => hs.recorded.held _ h, fun id loc hid => ?_, fun loc hloc => ?_⟩
  · obtain ⟨⟨_, row⟩, he, heq⟩ := mem_map.1 (hs.recorded.index id loc hid)
    obtain ⟨rfl, rfl⟩ := Prod.mk.inj heq
    exact ⟨row, rfl, hs.recorded.held _ he⟩
  · obtain ⟨row, e, hsub, hid⟩ := hs.lists loc hloc
    exact ⟨⟨row, e, hsub, hid⟩, row, hs.recorded.held _ (hsub.subset mem_cons_self)⟩

end Steps

/-- A row is written to a file that is rolled, and written again after the schema has
evolved. -/
theorem positions_hold_evolved :
    let events : List (Event Nat Bool Bool Nat) := [.new true true,
      .write [false, true] (fun _ => ⟨true, false, false⟩) [⟨.c, 1, false, false, 10⟩, ⟨.c, 2, true, true, 20⟩],
      .evolve [false, true],
      .write [true, false] (fun _ => ⟨false, false, false⟩) [⟨.u, 3, false, false, 30⟩, ⟨.u, 1, false, false, 11⟩],
      .close [false, true]]
    let s := Machine.run (Arrow.step id (fun _ _ => true) .position) events System.start
    (s.index 1 = some ⟨6, 1⟩ ∧ ∃ row, row.id = 1 ∧ s.table.Holds ⟨6, 1⟩ row) ∧
      s.table.Lists ⟨0, 0⟩ ∧ Replaced s.written ⟨0, 0⟩ := by
  intro events s
  have h := @positions_hold Nat Nat Bool Bool Nat _ _ id _ (fun _ _ => true) Function.injective_id .position
    events (by decide +kernel)
  have hlists : s.table.Lists ⟨0, 0⟩ := .inl (by decide +kernel)
  exact ⟨⟨by decide +kernel, h.2.1 1 _ (by decide +kernel)⟩, hlists, (h.2.2 _ hlists).1⟩

end Olake.Arrow
