/-
The index that the writers maintain, and the one that a scan of the table gives.

A scan takes the row of an id that is youngest by sequence number, path and position.
The files of a commit have one sequence number, so among the rows that a commit has for
an id it takes the one in the file with the greatest path.  A writer puts the rows of a
file into the index in their order, so the index names the last row of the id in one of
the files (`Tops`).  Both are the same if that file is the one with the greatest path
(`Ascending`); nothing else is needed (`Agrees.commit`), and in particular not that the
superseded rows were deleted.
-/
import Olake.Proofs.Iceberg.ArrowUpserts
import Olake.Proofs.Iceberg.IndexScan
import Olake.Proofs.Iceberg.LegacyUpserts

namespace Olake.TableIndex

open Iceberg IcebergWriter Versions List Option

variable {P Id K V D : Type}

/-! ### One commit -/

def olakeId (row : Record Id K V D) : Option Id := some row.id

theorem rowOf_olakeId {id : Id} :
    RowOf olakeId f position id ↔ ∃ row, f.rows[position]? = some row ∧ row.id = id := by
  simp [RowOf, olakeId]

/-- The changes name rows in files that come last by path, of the files that have rows of
the id. -/
abbrev Ascending [LE P] (changes : StreamIndex P Id) (written : Landings P Id K V D) : Prop :=
  ∀ e ∈ written, ∀ loc ∈ changes e.2.id, e.1.path ≤ loc.path

variable [LinearOrder P]

/-- The index has the youngest row of every id. -/
def Agrees (t : IdTable P Id K V D) (index : StreamIndex P Id) : Prop :=
  ∀ id loc, index id = some loc ↔ Newest olakeId t.data id loc

section Commit

variable {rd : Reader P V (Record Id K V D) (List Id)} {t : IdTable P Id K V D}
  {δ : IdDelta P Id K V D} {index changes : StreamIndex P Id}
  {written : Landings P Id K V D}

theorem age_lt_new (hf : f.sequence ≤ t.lastSequence) (g : P × V × List (Record Id K V D)) :
    age f < age (⟨g.1, g.2.1, t.lastSequence + 1, g.2.2⟩ : DataFile P V (Record Id K V D)) :=
  Prod.Lex.toLex_lt_toLex.2 (.inl (Nat.lt_succ_of_le hf))

/-- The row that the changes name is the youngest one. -/
theorem newest_of_change (hdata : ∀ f ∈ t.data, f.sequence ≤ t.lastSequence)
    (hnodup : (δ.data.map Prod.fst).Nodup)
    (hholds : ∀ loc row, δ.Holds loc row ↔ (loc, row) ∈ written) (htops : Tops changes (toldOf written))
    (hascending : Ascending changes written) {id : Id}
    (hid : changes id = some loc) : Newest olakeId (t.commit rd δ).data id loc := by
  obtain ⟨hin, hmax⟩ := htops.named id loc hid
  obtain ⟨⟨l, row⟩, hwritten, heq⟩ := mem_map.1 hin
  obtain ⟨rfl, rfl⟩ := Prod.mk.inj heq
  obtain ⟨f, hf, hpath, hrow⟩ := (hholds _ _).2 hwritten
  refine ⟨_, Table.mem_data_commit.2 (.inr ⟨f, hf, rfl⟩), hpath, rowOf_olakeId.2 ⟨row, hrow, rfl⟩, ?_⟩
  intro g hg position hrow'
  obtain ⟨row', hrow', hid'⟩ := rowOf_olakeId.1 hrow'
  rcases Table.mem_data_commit.1 hg with hg | ⟨g', hg', rfl⟩
  · exact .inl (age_lt_new (hdata g hg) f)
  · have hwritten' : ((⟨g'.1, position⟩, row') : RowLocation P × Record Id K V D) ∈ written :=
      (hholds _ _).1 ⟨g', hg', rfl, hrow'⟩
    have hle : g'.1 ≤ f.1 := hpath ▸ hascending _ hwritten' l (hid' ▸ hid)
    rcases hle.lt_or_eq with hlt | heq
    · exact .inl (Prod.Lex.toLex_lt_toLex.2 (.inr ⟨rfl, hlt⟩))
    · obtain rfl := inj_on_of_nodup_map hnodup hg' hf heq
      exact .inr ⟨rfl, hmax _ (mem_map_of_mem hwritten') hid' hpath⟩

/-- The youngest row of an id that the commit does not have stays the youngest. -/
theorem newest_of_no_change (hholds : ∀ loc row, δ.Holds loc row ↔ (loc, row) ∈ written)
    (htops : Tops changes (toldOf written)) {id : Id} (hid : changes id = none) :
    Newest olakeId (t.commit rd δ).data id loc ↔ Newest olakeId t.data id loc := by
  have hnot : ∀ g ∈ δ.data, ∀ position, ¬ RowOf olakeId (⟨g.1, g.2.1, t.lastSequence + 1, g.2.2⟩ :
      DataFile P V (Record Id K V D)) position id := by
    intro g hg position hrow
    obtain ⟨row, hrow, hrowid⟩ := rowOf_olakeId.1 hrow
    have hwritten := (hholds ⟨g.1, position⟩ row).1 ⟨g, hg, rfl, hrow⟩
    exact htops.missing id hid _ (mem_map_of_mem hwritten) hrowid
  constructor
  · rintro ⟨f, hf, hpath, hrow, hmax⟩
    rcases Table.mem_data_commit.1 hf with hf | ⟨g, hg, rfl⟩
    · exact ⟨f, hf, hpath, hrow, fun g hg => hmax g (Table.mem_data_commit.2 (.inl hg))⟩
    · exact absurd hrow (hnot g hg _)
  · rintro ⟨f, hf, hpath, hrow, hmax⟩
    refine ⟨f, Table.mem_data_commit.2 (.inl hf), hpath, hrow, fun g hg position hrow' => ?_⟩
    rcases Table.mem_data_commit.1 hg with hg | ⟨g', hg', rfl⟩
    · exact hmax g hg position hrow'
    · exact absurd hrow' (hnot g' hg' _)

theorem Agrees.commit {thread : StreamIndexThread P Id} (h : Agrees t index)
    (hdata : ∀ f ∈ t.data, f.sequence ≤ t.lastSequence) (hnodup : (δ.data.map Prod.fst).Nodup)
    (hholds : ∀ loc row, δ.Holds loc row ↔ (loc, row) ∈ written)
    (htops : Tops thread.changes (toldOf written)) (hascending : Ascending thread.changes written) :
    Agrees (t.commit rd δ) (thread.Commit index) := by
  intro id loc
  rw [StreamIndexThread.commit_eq]
  cases hid : thread.changes id with
  | none => rw [none_or, h id loc, newest_of_no_change hholds htops hid]
  | some l =>
    have hnewest : Newest olakeId (t.commit rd δ).data id l :=
      newest_of_change hdata hnodup hholds htops hascending hid
    rw [some_or, some.injEq]
    exact ⟨fun heq => heq ▸ hnewest, fun h' => hnewest.eq h'⟩

end Commit

theorem Agrees.empty : Agrees (Table.empty : IdTable P Id K V D) (fun _ => none) := by
  intro id loc
  simp [Newest, Table.empty]

end Olake.TableIndex

/-! ### The arrow writer -/

namespace Olake.Arrow

open Iceberg IcebergWriter TableIndex

variable {P Id K V D : Type} [DecidableEq Id] [DecidableEq K] [LinearOrder P] {alloc : Nat → P}
  {deleteMode : UpdateType} {s : System P Id K V D}
  {covers : FileMatch P Id K V D}

/-- The index has the youngest rows of the table. -/
structure Kept (alloc : Nat → P) (deleteMode : UpdateType) (s : System P Id K V D) : Prop
    extends Found alloc deleteMode s where
  agrees : Agrees s.table s.index

omit [DecidableEq Id] [DecidableEq K] in
/-- What is assumed of an event: every partition is walked, and when a thread closes, its
index changes are in the files that come last by path. -/
def Ascends (alloc : Nat → P) (e : Event Id K V D) (s : System P Id K V D) : Prop :=
  match e, s.thread with
  | .write order _ records, some (w, _) => Walks (Arrow.extract alloc w records) order
  | .close order, some (w, written) => Walks w order ∧
      ∀ thread ∈ w.indexThread, Ascending thread.changes written
  | _, _ => True

instance [Fintype K] (alloc : Nat → P) (e : Event Id K V D) (s : System P Id K V D) :
    Decidable (Ascends alloc e s) := by
  unfold Ascends Walks
  exact match e, s.thread with
  | .new .., _ | .abort, _ | .write .., none | .evolve _, none | .close _, none => inferInstance
  | .write .., some _ | .evolve _, some _ | .close _, some _ => inferInstance

theorem Ascends.walked (he : Ascends alloc e s) : Walked alloc e s := by
  cases e <;> cases hthread : s.thread <;> simp_all [Ascends, Walked]

theorem Kept.step (halloc : Function.Injective alloc) (hindexed : deleteMode.NeedsTableIndex = true)
    (e : Event Id K V D) (hs : Kept alloc deleteMode s) (he : Ascends alloc e s) :
    Kept alloc deleteMode (Arrow.step alloc covers deleteMode e s) := by
  refine ⟨hs.toFound.step halloc e he.walked, ?_⟩
  fun_cases Arrow.step alloc covers deleteMode e s with
  | case1 | case2 | case3 | case5 | case6 => exact hs.agrees
  | case4 order w written hthread =>
    -- the thread closes
    simp only [Ascends, hthread] at he
    obtain ⟨hmode, hl, -⟩ := hs.thread _ _ hthread
    obtain ⟨w', hsame, hclear, hclosed, ⟨-, heq⟩ | heq⟩ := hs.close_cases covers hthread he.1
    · rw [heq]
      exact hs.agrees
    · have hl' := hl.same hsame
      have hδ := hl'.commits hclear hclosed
      obtain ⟨thread, hthread'⟩ : ∃ thread, w'.indexThread = some thread := by
        rw [← Option.isSome_iff_exists, hl'.ready.index, hsame.deleteMode, hmode]
        exact hindexed
      rw [heq]
      simp only [hthread']
      exact hs.agrees.commit hs.recorded.ordered.data hδ.paths
        (fun loc row => (hδ.holds loc row).trans (hl'.rows _ _ _)) (hl'.index thread hthread').2
        (he.2 thread (hsame.index ▸ hthread'))

end Olake.Arrow

/-! ### The legacy writer -/

namespace Olake.Legacy

open Iceberg IcebergWriter TableIndex

variable {P Id K V D : Type} [DecidableEq Id] [DecidableEq V] [LinearOrder P] {alloc : Nat → P}
  {s : System P Id K V D} {hasData : D → Bool}
  {covers : FileMatch P Id K V D}

/-- The index has the youngest rows of the table. -/
structure Kept (alloc : Nat → P) (s : System P Id K V D) : Prop extends Found alloc s where
  agrees : Agrees s.table s.index

omit [DecidableEq Id] [DecidableEq V] in
/-- What is assumed of an event: a thread that closes finishes all its files, and its index
changes are in the files that come last by path. -/
def Ascends (e : Event Id K V D) (s : System P Id K V D) : Prop :=
  match e, s.thread with
  | .close order, some t => (∀ v, (t.operator.dataWriters v).isSome → v ∈ order) ∧
      Ascending t.writer.indexThread.changes t.written
  | _, _ => True

instance [Fintype V] (e : Event Id K V D) (s : System P Id K V D) : Decidable (Ascends e s) := by
  unfold Ascends
  exact match e, s.thread with
  | .new .., _ | .abort, _ | .complete _, _ | .write _, none | .close _, none => inferInstance
  | .write _, some _ | .close _, some _ => inferInstance

omit [DecidableEq Id] [DecidableEq V] in
theorem Ascends.finishes (he : Ascends e s) : Finishes e s := by
  cases e <;> cases hthread : s.thread <;> simp_all [Ascends, Finishes]

theorem Kept.step (halloc : Function.Injective alloc) (e : Event Id K V D) (hs : Kept alloc s)
    (he : Ascends e s) : Kept alloc (Legacy.step alloc hasData covers e s) := by
  refine ⟨hs.toFound.step halloc e he.finishes, ?_⟩
  fun_cases Legacy.step alloc hasData covers e s with
  | case1 | case2 | case3 | case5 | case6 => exact hs.agrees
  | case4 order t hthread =>
    -- the thread closes
    simp only [Ascends, hthread] at he
    have hl := (hs.thread _ hthread).complete order
    have hδ := hl.commits (closed_completeWriter he.1)
    rcases hs.close_cases covers hthread he.1 with ⟨-, heq⟩ | heq
    · rw [heq]
      exact hs.agrees
    · rw [heq]
      exact hs.agrees.commit hs.recorded.ordered.data hδ.paths
        (fun loc row => (hδ.holds loc row).trans (hl.rows _ _ _)) hl.tops he.2

end Olake.Legacy

/-! ### Runs -/

namespace Olake.TableIndex

open Iceberg IcebergWriter

section Runs

variable {P Id K V D : Type} [LinearOrder P] [DecidableEq Id] {alloc : Nat → P}

theorem Agrees.eq_rebuild (h : Agrees t rows) (ht : t.Ordered) (snapshotId : Nat)
    (index : Index P Id) (id : Id) : rows id = (rebuild olakeId snapshotId t index).rows id := by
  ext loc
  exact (h id loc).trans (rebuild_rows snapshotId index ht.paths).symm

variable [DecidableEq K] [DecidableEq V]

/-- In every run of writer threads of either writer whose index changes are in the files
that come last by path, the maintained index and a rebuilt one agree on every id. -/
theorem index_eq_rebuild (halloc : Function.Injective alloc) (covers : FileMatch P Id K V D) :
    (∀ deleteMode : UpdateType, deleteMode.NeedsTableIndex = true → ∀ events,
      Machine.Along (Arrow.step alloc covers deleteMode) (Arrow.Ascends alloc) events Arrow.System.start →
      let s := Machine.run (Arrow.step alloc covers deleteMode) events Arrow.System.start
      ∀ snapshotId index id, s.index id = (rebuild olakeId snapshotId s.table index).rows id) ∧
    ∀ (hasData : D → Bool) (events : List (Legacy.Event Id K V D)),
      Machine.Along (Legacy.step alloc hasData covers) Legacy.Ascends events Legacy.System.start →
      let s := Machine.run (Legacy.step alloc hasData covers) events Legacy.System.start
      ∀ snapshotId index id, s.index id = (rebuild olakeId snapshotId s.table index).rows id := by
  constructor
  · intro deleteMode hindexed events hevents s snapshotId index id
    have hkept : Arrow.Kept alloc deleteMode s :=
      Machine.run_inv (fun e s hs he => hs.step halloc hindexed e he) ⟨Arrow.Found.start, Agrees.empty⟩ hevents
    exact hkept.agrees.eq_rebuild hkept.recorded.ordered snapshotId index id
  · intro hasData events hevents s snapshotId index id
    have hkept : Legacy.Kept alloc s :=
      Machine.run_inv (fun e s hs he => hs.step halloc e he) ⟨Legacy.Found.start, Agrees.empty⟩ hevents
    exact hkept.agrees.eq_rebuild hkept.recorded.ordered snapshotId index id

end Runs

/-- A row that is inserted and moves to another partition in one commit, with the files of
the partitions named in the order in which they are written. -/
theorem index_eq_rebuild_moved :
    (let s := Machine.run (Arrow.step id Arrow.byPath .position)
        (Arrow.sync [⟨.c, 1, false, false, 10⟩, ⟨.u, 1, true, true, 11⟩]) Arrow.System.start;
      s.index 1 = some ⟨2, 0⟩ ∧ s.index 1 = (rebuild olakeId 7 s.table ⟨fun _ => none, 0⟩).rows 1) ∧
    let s := Machine.run (Legacy.step id (fun _ => true) readsFor)
      (Legacy.sync [[⟨.c, 1, (), false, 10⟩, ⟨.u, 1, (), true, 11⟩]]) Legacy.System.start;
    s.index 1 = some ⟨1, 0⟩ ∧ s.index 1 = (rebuild olakeId 7 s.table ⟨fun _ => none, 0⟩).rows 1 := by
  refine ⟨⟨by decide +kernel, ?_⟩, by decide +kernel, ?_⟩
  · exact (index_eq_rebuild Function.injective_id Arrow.byPath).1 .position rfl _ (by decide +kernel) 7 _ 1
  · exact (index_eq_rebuild Function.injective_id readsFor).2 _ _ (by decide +kernel) 7 _ 1

/-- The same run where the partition that the row leaves has the greater path: the scan takes
the superseded row, and the index has the live one. -/
theorem rebuild_superseded :
    (let s := Machine.run (Arrow.step (Equiv.swap 0 2) Arrow.byPath .position)
        (Arrow.sync [⟨.c, 1, false, false, 10⟩, ⟨.u, 1, true, true, 11⟩]) Arrow.System.start;
      s.table.Live (idReader Arrow.byPath) ⟨0, 0⟩ (⟨.u, 1, true, true, 11⟩ : Record Nat Bool Bool Nat) ∧
        s.index 1 = some ⟨0, 0⟩ ∧ (rebuild olakeId 7 s.table ⟨fun _ => none, 0⟩).rows 1 = some ⟨2, 0⟩) ∧
    let s := Machine.run (Legacy.step (Equiv.swap 0 1) (fun _ => true) readsFor)
      (Legacy.sync [[⟨.c, 1, (), false, 10⟩, ⟨.u, 1, (), true, 11⟩]]) Legacy.System.start;
    s.table.Live (idReader readsFor) ⟨0, 0⟩ (⟨.u, 1, (), true, 11⟩ : Record Nat Unit Bool Nat) ∧
      s.index 1 = some ⟨0, 0⟩ ∧ (rebuild olakeId 7 s.table ⟨fun _ => none, 0⟩).rows 1 = some ⟨1, 0⟩ := by
  decide +kernel

end Olake.TableIndex
