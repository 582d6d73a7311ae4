/-
What a scan of data files leaves in the index.

Whatever batches the entries come in, the index ends up with the last entry of every id
(`drain_eq`), and what is written before the end is a part of the entries in order
(`Drained`).  The last entry of an id is its row in the youngest file, by sequence number
and then by path, and there the row with the highest position (`last_emitFiles`).
-/
import Olake.Model.Iceberg.TableIndex

namespace Olake.TableIndex

open Iceberg IcebergWriter Versions List Option Prod

variable {P K R E Id : Type}

/-! ### Batches -/

/-- The entries that an emitter has taken. -/
def BatchEmitter.taken (e : BatchEmitter P Id) : List (Entry P Id) :=
  e.sent.flatMap ScanBatch.entries ++ e.batch

variable (snapshotId : Nat)

def BatchEmitter.Tells (e : BatchEmitter P Id) : Prop :=
  e.snapshotId = snapshotId ∧ ∀ b ∈ e.sent, b.snapshotId = snapshotId

theorem BatchEmitter.send_spec (e : BatchEmitter P Id) (he : e.Tells snapshotId) :
    e.send.taken = e.taken ∧ e.send.Tells snapshotId ∧ e.send.batch = [] ∧ e.send.sent ≠ [] := by
  refine ⟨by simp [send, taken], ⟨he.1, fun b hb => ?_⟩, rfl, by simp [send]⟩
  rcases mem_append.1 hb with hb | hb
  · exact he.2 b hb
  · rw [mem_singleton.1 hb]
    exact he.1

theorem BatchEmitter.accept_spec (e : BatchEmitter P Id) (entry : Entry P Id) {snapshotId : Nat}
    (he : e.Tells snapshotId) :
    (e.accept entry).taken = e.taken ++ [entry] ∧ (e.accept entry).Tells snapshotId := by
  have hadd : ({ e with batch := e.batch ++ [entry] } : BatchEmitter P Id).taken = e.taken ++ [entry] := by
    simp [taken]
  unfold accept
  dsimp only
  split
  · obtain ⟨htaken, htells, -⟩ := send_spec snapshotId { e with batch := e.batch ++ [entry] } he
    exact ⟨htaken.trans hadd, htells⟩
  · exact ⟨hadd, he⟩

theorem BatchEmitter.foldl_accept_spec (entries : List (Entry P Id))
    (e : BatchEmitter P Id) (he : e.Tells snapshotId) :
    (entries.foldl accept e).taken = e.taken ++ entries ∧ (entries.foldl accept e).Tells snapshotId := by
  induction entries generalizing e with
  | nil => simpa using he
  | cons entry rest ih =>
    obtain ⟨htaken, htells⟩ := accept_spec e entry he
    obtain ⟨htaken', htells'⟩ := ih (e.accept entry) htells
    exact ⟨by rw [foldl_cons, htaken', htaken, append_assoc]; rfl, htells'⟩

/-- The batches of a scan have its entries, and there is at least one. -/
theorem batches_spec (entries : List (Entry P Id)) :
    (batches snapshotId entries).flatMap ScanBatch.entries = entries ∧
      (∀ b ∈ batches snapshotId entries, b.snapshotId = snapshotId) ∧ batches snapshotId entries ≠ [] := by
  obtain ⟨htaken, htells⟩ := BatchEmitter.foldl_accept_spec snapshotId entries
    (.start snapshotId) ⟨rfl, by simp [BatchEmitter.start]⟩
  rw [show (BatchEmitter.start snapshotId : BatchEmitter P Id).taken = [] from rfl, nil_append] at htaken
  unfold batches BatchEmitter.finish
  generalize entries.foldl BatchEmitter.accept (.start snapshotId) = e at htaken htells
  split
  · obtain ⟨htaken', htells', hbatch, hsent⟩ := BatchEmitter.send_spec snapshotId e htells
    rw [BatchEmitter.taken, hbatch, append_nil, htaken] at htaken'
    exact ⟨htaken', htells'.2, hsent⟩
  · next h =>
    simp only [Bool.or_eq_true, Bool.not_eq_eq_eq_not, Bool.not_true, not_or, Bool.not_eq_false,
      List.isEmpty_iff] at h
    rw [BatchEmitter.taken, h.1, List.append_nil] at htaken
    exact ⟨htaken, htells.2, h.2⟩

/-! ### Draining -/

/-- The rows of an index with entries put over them. -/
def overlay [DecidableEq Id] (rows : StreamIndex P Id) (entries : List (Entry P Id)) : StreamIndex P Id :=
  fun id => ((last (fun x => x) entries id).map Prod.fst).or (rows id)

section Drain

variable [DecidableEq Id]

theorem overlay_append (rows : StreamIndex P Id) (entries entries' : List (Entry P Id)) :
    overlay rows (entries ++ entries') = overlay (overlay rows entries) entries' := by
  funext id
  rw [overlay, last_append, overlay, overlay, Option.map_or, Option.or_assoc]

/-- The state after some entries: a part of them is written, the rest is pending. -/
def Drained (index : Index P Id) (entries : List (Entry P Id)) (d : Draining P Id) : Prop :=
  ∃ written rest, entries = written ++ rest ∧ d.index = ⟨overlay index.rows written, index.snapshot⟩ ∧
    ∀ id, d.pending.changes id = (last (fun x => x) rest id).map Prod.fst

theorem Drained.start (index : Index P Id) : Drained index [] (.start index) :=
  ⟨[], [], rfl, rfl, fun _ => rfl⟩

variable {entries : List (Entry P Id)} {index : Index P Id}

theorem commit_pending {thread : StreamIndexThread P Id}
    (h : ∀ id, thread.changes id = (last (fun x => x) entries id).map Prod.fst) :
    thread.Commit index.rows = overlay index.rows entries := by
  funext id
  rw [StreamIndexThread.commit_eq, h, overlay]

variable {d : Draining P Id}

theorem Drained.flush (h : Drained index entries d) : Drained index entries d.flush := by
  unfold Draining.flush
  split
  · exact h
  · obtain ⟨written, rest, hsplit, hindex, hpending⟩ := h
    refine ⟨entries, [], (append_nil _).symm, ?_, fun _ => rfl⟩
    rw [Index.Commit, commit_pending hpending, hindex, ← overlay_append, ← hsplit]
    rfl

theorem Drained.recv (h : Drained index entries d) (batch : ScanBatch P Id) :
    Drained index (entries ++ batch.entries) (d.recv batch) := by
  have hadd : Drained index (entries ++ batch.entries) { d with
      snapshotID := batch.snapshotId
      pending := batch.entries.foldl (fun pending entry => pending.Put entry.2 entry.1) d.pending
      buffered := d.buffered + batch.entries.length } := by
    obtain ⟨written, rest, hsplit, hindex, hpending⟩ := h
    refine ⟨written, rest ++ batch.entries, by rw [hsplit, append_assoc], hindex, fun id => ?_⟩
    rw [StreamIndexThread.changes_foldl_put, hpending, last_append, map_or]
  unfold Draining.recv
  dsimp only
  split
  · exact hadd.flush
  · exact hadd

theorem Drained.foldl_recv (h : Drained index entries d) (stream : List (ScanBatch P Id)) :
    Drained index (entries ++ stream.flatMap ScanBatch.entries) (stream.foldl Draining.recv d) := by
  induction stream generalizing entries d with
  | nil => simpa using h
  | cons batch rest ih =>
    have hnext := ih (h.recv batch)
    rw [append_assoc] at hnext
    exact hnext

omit [DecidableEq Id] in
theorem snapshotID_flush (d : Draining P Id) : d.flush.snapshotID = d.snapshotID := by
  unfold Draining.flush
  split <;> rfl

theorem snapshotID_recv (d : Draining P Id) (batch : ScanBatch P Id) :
    (d.recv batch).snapshotID = batch.snapshotId := by
  unfold Draining.recv
  dsimp only
  split
  · rw [snapshotID_flush]
  · rfl

variable {snapshotId}

theorem snapshotID_foldl_recv (d : Draining P Id)
    (hd : d.snapshotID = snapshotId ∨ stream ≠ []) (h : ∀ b ∈ stream, b.snapshotId = snapshotId) :
    (stream.foldl Draining.recv d).snapshotID = snapshotId := by
  induction stream generalizing d with
  | nil => exact hd.resolve_right (absurd rfl)
  | cons batch rest ih =>
    refine ih (d.recv batch) (.inl ?_) fun b hb => h b (mem_cons_of_mem _ hb)
    rw [snapshotID_recv]
    exact h batch mem_cons_self

variable (snapshotId)

/-- A scan that comes to its end leaves the last entry of every id, and its snapshot. -/
theorem drain_eq (entries : List (Entry P Id)) (index : Index P Id) :
    drainTableIndexScan (batches snapshotId entries) index = ⟨overlay index.rows entries, snapshotId⟩ := by
  obtain ⟨hentries, hsnapshot, hne⟩ := batches_spec snapshotId entries
  obtain ⟨written, rest, hsplit, hindex, hpending⟩ :=
    (Drained.start index).foldl_recv (batches snapshotId entries)
  rw [hentries, nil_append] at hsplit
  unfold drainTableIndexScan
  rw [Index.Commit, commit_pending hpending, hindex, ← overlay_append, ← hsplit,
    snapshotID_foldl_recv _ (.inr hne) hsnapshot]
  rfl

end Drain

/-! ### The last entry of an id -/

variable {identifier : R → Option Id}

/-- The row at the place has the id. -/
def RowOf (identifier : R → Option Id) (f : DataFile P K R) (position : Nat) (id : Id) : Prop :=
  ∃ row, f.rows[position]? = some row ∧ identifier row = some id

theorem mem_emitFile {id : Id} :
    (loc, id) ∈ emitFile identifier f ↔ f.path = loc.path ∧ RowOf identifier f loc.position id := by
  unfold emitFile RowOf
  simp only [mem_filterMap, map_eq_some_iff, Prod.exists, Prod.mk.injEq,
    mem_zipIdx_iff_getElem?]
  constructor
  · rintro ⟨row, position, hrow, _, hid, rfl, rfl⟩
    exact ⟨rfl, row, hrow, hid⟩
  · rintro ⟨hpath, row, hrow, hid⟩
    exact ⟨row, loc.position, hrow, id, hid, RowLocation.ext hpath rfl, rfl⟩

theorem pairwise_emitFile (f : DataFile P K R) :
    (emitFile identifier f).Pairwise (fun e e' => e.1.position < e'.1.position) := by
  unfold emitFile
  rw [pairwise_filterMap]
  have hidx : (f.rows.zipIdx.map snd).Pairwise (· < ·) := by
    rw [zipIdx_map_snd]
    exact pairwise_lt_range'
  rw [pairwise_map] at hidx
  refine hidx.imp fun hlt e he e' he' => ?_
  obtain ⟨_, -, rfl⟩ := map_eq_some_iff.1 he
  obtain ⟨_, -, rfl⟩ := map_eq_some_iff.1 he'
  exact hlt

theorem mem_emitFiles {id : Id} : (loc, id) ∈ emitFiles identifier files ↔
      ∃ f ∈ files, f.path = loc.path ∧ RowOf identifier f loc.position id := by
  simp only [emitFiles, mem_flatMap, mem_emitFile]

section Sorted

variable [LinearOrder P] {files : List (DataFile P K R)}

theorem unique_append (kept : List (DataFile P K R)) (hnodup : ((kept ++ files).map DataFile.path).Nodup) :
    files.foldl (fun kept f => if f.path ∈ kept.map DataFile.path then kept else kept ++ [f]) kept =
      kept ++ files := by
  induction files generalizing kept with
  | nil => rw [append_nil]; rfl
  | cons f rest ih =>
    have hnew : f.path ∉ kept.map DataFile.path := by
      rw [map_append, map_cons] at hnodup
      intro hmem
      exact (nodup_append.1 hnodup).2.2 _ hmem _ mem_cons_self rfl
    rw [foldl_cons, if_neg hnew]
    rw [append_cons kept f rest] at hnodup ⊢
    exact ih (kept ++ [f]) hnodup

theorem unique_of_nodup (hnodup : (files.map DataFile.path).Nodup) : unique files = files :=
  unique_append [] hnodup

/-- The row at the location is the youngest of the id: its file is the youngest, and no row
of the file comes after it. -/
def Newest (identifier : R → Option Id) (files : List (DataFile P K R)) (id : Id) (loc : RowLocation P) :
    Prop :=
  ∃ f ∈ files, f.path = loc.path ∧ RowOf identifier f loc.position id ∧
    ∀ g ∈ files, ∀ position, RowOf identifier g position id →
      age g < age f ∨ g = f ∧ position ≤ loc.position

variable {loc : RowLocation P}

theorem Newest.eq {id : Id} (h : Newest identifier files id loc)
    (h' : Newest identifier files id loc') : loc = loc' := by
  obtain ⟨f, hf, hpath, hrow, hmax⟩ := h
  obtain ⟨f', hf', hpath', hrow', hmax'⟩ := h'
  rcases hmax f' hf' _ hrow' with hlt | ⟨rfl, hle⟩
  · rcases hmax' f hf _ hrow with hlt' | ⟨rfl, -⟩
    · exact absurd hlt' hlt.asymm
    · exact absurd hlt (lt_irrefl _)
  · rcases hmax' f' hf _ hrow with hlt' | ⟨-, hle'⟩
    · exact absurd hlt' (lt_irrefl _)
    · exact RowLocation.ext (hpath.symm.trans hpath') (Nat.le_antisymm hle' hle)

/-- The entry comes before the other one in a scan. -/
def Before (files : List (DataFile P K R)) (e e' : Entry P Id) : Prop :=
  ∃ f ∈ files, ∃ g ∈ files, f.path = e.1.path ∧ g.path = e'.1.path ∧
    (age f < age g ∨ f = g ∧ e.1.position < e'.1.position)

theorem mem_sortedOldestFirst : f ∈ sortedOldestFirst files ↔ f ∈ files := mem_insertionSort _

/-- The entries of a scan come in order. -/
theorem pairwise_emitFiles (hnodup : (files.map DataFile.path).Nodup) :
    (emitFiles identifier (sortedOldestFirst files)).Pairwise (Before files) := by
  have hage : (sortedOldestFirst files).Pairwise (fun f g => age f < age g) := by
    have hle : (sortedOldestFirst files).Pairwise (fun f g => age f ≤ age g) :=
      pairwise_insertionSort _ _
    have hne : (sortedOldestFirst files).Pairwise (fun f g => f.path ≠ g.path) := by
      rw [← pairwise_map]
      exact ((perm_insertionSort _ files).map DataFile.path).nodup_iff.2 hnodup
    refine (hle.and hne).imp fun ⟨hle, hne⟩ => lt_of_le_of_ne hle fun heq => hne ?_
    exact congrArg snd (toLex.injective heq)
  rw [emitFiles, pairwise_flatMap]
  constructor
  · intro f hf
    have hmem := mem_sortedOldestFirst.1 hf
    refine (pairwise_emitFile f).imp_of_mem fun {e e'} he he' hlt => ?_
    exact ⟨f, hmem, f, hmem, (mem_emitFile.1 he).1, (mem_emitFile.1 he').1, .inr ⟨rfl, hlt⟩⟩
  · refine hage.imp_of_mem fun {f g} hf hg hlt e he e' he' => ?_
    exact ⟨f, mem_sortedOldestFirst.1 hf, g, mem_sortedOldestFirst.1 hg, (mem_emitFile.1 he).1,
      (mem_emitFile.1 he').1, .inl hlt⟩

variable [DecidableEq Id]

/-- The last entry of an id is that of its youngest row. -/
theorem last_emitFiles (hnodup : (files.map DataFile.path).Nodup) {id : Id} :
    (last (fun x => x) (emitFiles identifier (sortedOldestFirst files)) id).map Prod.fst = some loc ↔
      Newest identifier files id loc := by
  have hfile : ∀ {f g : DataFile P K R}, f ∈ files → g ∈ files → f.path = g.path → f = g :=
    fun hf hg => inj_on_of_nodup_map hnodup hf hg
  have hmem : ∀ {l : RowLocation P}, (l, id) ∈ emitFiles identifier (sortedOldestFirst files) ↔
      ∃ f ∈ files, f.path = l.path ∧ RowOf identifier f l.position id := by
    intro l
    simp only [mem_emitFiles, mem_sortedOldestFirst]
  constructor
  · intro h
    obtain ⟨⟨l, i⟩, hlast, rfl⟩ := map_eq_some_iff.1 h
    obtain ⟨he, rfl⟩ := mem_of_last hlast
    obtain ⟨f, hf, hpath, hrow⟩ := hmem.1 he
    refine ⟨f, hf, hpath, hrow, fun g hg position hrow' => ?_⟩
    have he' : ((⟨g.path, position⟩, i) : Entry P Id) ∈ emitFiles identifier (sortedOldestFirst files) :=
      hmem.2 ⟨g, hg, rfl, hrow'⟩
    rcases rel_of_last (pairwise_emitFiles hnodup) hlast he' rfl with heq | ⟨g', hg', f', hf', hp, hp', hlt⟩
    · cases heq
      exact .inr ⟨hfile hg hf hpath.symm, Nat.le_refl _⟩
    · obtain rfl := hfile hg' hg hp
      obtain rfl := hfile hf' hf (hp'.trans hpath.symm)
      exact hlt.imp_right fun ⟨heq, hlt⟩ => ⟨heq, hlt.le⟩
  · rintro ⟨f, hf, hpath, hrow, hmax⟩
    rw [map_eq_some_iff]
    refine ⟨(loc, id), ?_, rfl⟩
    refine last_of_rel (pairwise_emitFiles hnodup) (hmem.2 ⟨f, hf, hpath, hrow⟩) rfl ?_
    rintro ⟨l, i⟩ he' rfl ⟨f', hf', g', hg', hp, hp', hlt⟩
    obtain rfl := hfile hf' hf (hp.trans hpath.symm)
    obtain ⟨g, hg, hgpath, hgrow⟩ := hmem.1 he'
    obtain rfl := hfile hg' hg (hp'.trans hgpath.symm)
    rcases hmax g' hg _ hgrow with hlt' | ⟨rfl, hle⟩
    · rcases hlt with hlt | ⟨rfl, -⟩
      · exact absurd hlt hlt'.asymm
      · exact absurd hlt' (lt_irrefl _)
    · rcases hlt with hlt | ⟨-, hlt⟩
      · exact absurd hlt (lt_irrefl _)
      · exact absurd hle (Nat.not_le_of_lt hlt)

theorem rebuild_rows (index : Index P Id) (hnodup : (t.data.map DataFile.path).Nodup) {id : Id} :
    (rebuild identifier snapshotId t index).rows id = some loc ↔ Newest identifier t.data id loc := by
  rw [rebuild, drain_eq, currentDataFiles, unique_of_nodup hnodup]
  change or _ none = some loc ↔ _
  rw [or_none, last_emitFiles hnodup]

end Sorted

end Olake.TableIndex
