/-
A batch of the legacy writer.

`insertedRows` knows the last row of every id in the batch so far, so of the rows of the
batch all but the last of each id are deleted; besides, the locations that Go sent along
are (`Mid`).  The ranges Java answers with say where the records landed, the files in the
order they came up, and what Go puts into the index last is the row of the file that
came up last (`lookup_putMaps`).  That is the last row of the id if no file that came up
after the file of the last row has one of the id (`InOrder`).
-/
import Olake.Proofs.Iceberg.LegacyStaging

namespace Olake.Legacy

open Iceberg IcebergWriter Rolling Versions List Groups Prod

variable {P Id K V D : Type}

theorem normalise_spec (r : RecordWrapper P Id K V D) :
    (normalise r).row.id = r.row.id ∧ (normalise r).row.values = r.row.values ∧
      (normalise r).delete = r.delete := by
  unfold normalise
  split <;> exact ⟨rfl, rfl, rfl⟩

/-! ### Where the records landed -/

def entries (sentRecords : List (RecordWrapper P Id K V D)) (path : P) (r : Range) :
    List (RowLocation P × Id) :=
  (List.range r.count).filterMap (fun i =>
    sentRecords[r.batchStartIdx + i]?.map (fun record => (⟨path, r.startPosition + i⟩, record.row.id)))

/-- The rows of a batch as Go walks them. -/
def expand (sentRecords : List (RecordWrapper P Id K V D)) (maps : FilePositionMaps P) :
    List (P × List (RowLocation P × Id)) :=
  maps.map (fun fileMap => (fileMap.1, fileMap.2.flatMap (entries sentRecords fileMap.1)))

def puts (landed : Landings P Id K V D) : List (RowLocation P × Id) :=
  landed.map (fun e => (e.1, e.2.id))

variable {sentRecords : List (RecordWrapper P Id K V D)} {maps : FilePositionMaps P}
  {landed : Landings P Id K V D} {record : RecordWrapper P Id K V D}

theorem entries_succ (h : sentRecords[start + n]? = some record) :
    entries sentRecords path ⟨start, position, n + 1⟩ =
      entries sentRecords path ⟨start, position, n⟩ ++ [(⟨path, position + n⟩, record.row.id)] := by
  simp [entries, range_succ, h]

theorem paths_puts : (puts landed).map (fun e => e.1.path) = landed.map (fun e => e.1.path) := by
  simp [puts]

section Tracked

variable [DecidableEq P]

/-- The ranges in the middle of a batch say where its records landed. -/
structure Tracked (sentRecords : List (RecordWrapper P Id K V D)) (maps : FilePositionMaps P)
    (run : Option (WriteRun P)) (i : Nat) (landed : Landings P Id K V D) : Prop where
  maps : expand sentRecords (addRange maps run) = Groups.sort (fun e => e.1.path) (puts landed)
  run : ∀ r, run = some r → r.runStartIdx + r.runCount = i

theorem expand_extend : expand sentRecords (Groups.extend maps path [r]) =
      Groups.extend (expand sentRecords maps) path (entries sentRecords path r) := by
  unfold expand
  rw [map_extend (fun path ranges => ranges.flatMap (entries sentRecords path))
    (fun _ _ _ => flatMap_append), flatMap_singleton]

theorem Tracked.track {run : Option (WriteRun P)}
    (ht : Tracked sentRecords maps run i landed) (hrecord : sentRecords[i]? = some record)
    (loc : RowLocation P) (hid : row.id = record.row.id) :
    Tracked sentRecords (Legacy.track maps run i loc).1 (Legacy.track maps run i loc).2 (i + 1)
      (landed ++ [(loc, row)]) := by
  have hsort : sort (fun e => e.1.path) (puts (landed ++ [(loc, row)])) =
      extend (expand sentRecords (addRange maps run)) loc.path [(loc, record.row.id)] := by
    rw [ht.maps, puts, map_append, map_singleton, sort_append_singleton, hid]
    rfl
  have hnew : Tracked sentRecords (addRange maps run) (some ⟨loc.path, i, loc.position, 1⟩) (i + 1)
      (landed ++ [(loc, row)]) := by
    refine ⟨?_, by rintro _ ⟨⟩; rfl⟩
    rw [addRange, expand_extend, hsort, entries_succ hrecord]
    rfl
  unfold Legacy.track
  split
  · next r =>
    split
    · next h =>
      have hend := ht.run r rfl
      obtain rfl : loc = ⟨r.currentPath, r.runStartPos + r.runCount⟩ := RowLocation.ext h.1.symm h.2
      refine ⟨?_, ?_⟩
      · rw [hsort, addRange, addRange, expand_extend, expand_extend, extend_extend,
          entries_succ (by rw [hend]; exact hrecord)]
      · rintro _ ⟨⟩
        exact congrArg (· + 1) hend
    · exact hnew
  · exact hnew

theorem Tracked.start (sentRecords : List (RecordWrapper P Id K V D)) :
    Tracked sentRecords [] none 0 [] :=
  ⟨rfl, by rintro _ ⟨⟩⟩

end Tracked

/-! ### Rows and deletes -/

variable [DecidableEq Id]

/-- The state in the middle of a batch that began in `o₀`: the records so far, and where
they landed. -/
structure Mid (alloc : Nat → P) (base : Nat) (o₀ o : IcebergTableOperator P Id K V D)
    (sent : List (RecordWrapper P Id K V D)) (landed : Landings P Id K V D) : Prop where
  rows : ∀ path i y, (lane o).HasRow path i y ↔ (lane o₀).HasRow path i y ∨ (⟨path, i⟩, y) ∈ landed
  deletes : ∀ v l, Deletes o v l ↔ Deletes o₀ v l ∨ o₀.upsert = true ∧
    ((∃ r ∈ sent, r.delete = some l ∧ v = r.row.values) ∨
      ∃ y, Superseded Record.id landed l y ∧ v = y.values)
  inserted : o₀.upsert = true → ∀ id, o.insertedRows id =
    (last Record.id landed id).map (fun e => ⟨e.2.values, e.1.path, e.1.position⟩)
  free : ∀ e ∈ landed, (lane o₀).Ends e.1.path e.1.position ∧ ∃ m, base ≤ m ∧ e.1.path = alloc m
  ascending : landed.Pairwise (fun e e' => e.1.path = e'.1.path → e.1.position < e'.1.position)
  records : landed.map Prod.snd = sent.map (fun r => (normalise r).row)
  upsert : o.upsert = o₀.upsert
  keepDeletes : o.keepDeletes = true
  allocated : base ≤ o.allocated
  named : (lane o).Named alloc base o.allocated
  sorted : Sorted (lane o)

variable {alloc : Nat → P} {base : Nat} {o₀ o : IcebergTableOperator P Id K V D}
  {sent : List (RecordWrapper P Id K V D)}

theorem Mid.placed
    (hm : Mid alloc base o₀ o sent landed) (hp : Placed alloc o o' (normalise r) loc) :
    Mid alloc base o₀ o' (sent ++ [r]) (landed ++ [(loc, (normalise r).row)]) := by
  obtain ⟨hid, hvalues, hdelete⟩ := normalise_spec r
  obtain ⟨hnamed, hends, hpath⟩ := hp.named base hm.allocated hm.named
  have hplace : loc ∉ landed.map fst := by
    intro hmem
    obtain ⟨⟨l, y⟩, he, rfl⟩ := mem_map.1 hmem
    exact absurd (hends _ y ((hm.rows _ _ _).2 (.inr he))) (Nat.lt_irrefl _)
  exact {
    rows := by
      intro path i y
      rw [hp.rows, hm.rows, mem_append, mem_singleton, mk.injEq, RowLocation.mk.injEq,
        or_assoc, and_assoc]
    deletes := by
      intro v l
      rw [hp.deletes, hm.deletes, hm.upsert, hdelete, hvalues]
      by_cases hupsert : o₀.upsert = true
      · simp only [superseded_append_singleton hplace, hm.inserted hupsert, hupsert, true_and,
          mem_append, mem_singleton, or_and_right, exists_or, exists_eq_left]
        have hprevious : (∃ p, (last Record.id landed (normalise r).row.id).map
              (fun e => (⟨e.2.values, e.1.path, e.1.position⟩ : PathOffset P V)) = some p ∧
              v = p.partition ∧ l = ⟨p.path, p.position⟩) ↔
            ∃ y, last Record.id landed (normalise r).row.id = some (l, y) ∧ v = y.values := by
          simp only [Option.map_eq_some_iff]
          constructor
          · rintro ⟨_, ⟨⟨l', y⟩, hlast, rfl⟩, rfl, rfl⟩
            exact ⟨y, hlast, rfl⟩
          · rintro ⟨y, hlast, rfl⟩
            exact ⟨_, ⟨(l, y), hlast, rfl⟩, rfl, rfl⟩
        rw [hprevious, or_assoc, or_or_or_comm]
      · simp only [hupsert, false_and, or_false, Bool.false_eq_true]
    inserted := by
      intro hupsert id
      rw [hp.inserted (hm.upsert.trans hupsert), last_append_singleton, Function.update_apply,
        hm.inserted hupsert]
      by_cases h : id = (normalise r).row.id
      · simp [h]
      · simp [h, Ne.symm h]
    free := by
      intro e he
      rcases mem_append.1 he with he | he
      · exact hm.free e he
      · rw [mem_singleton.1 he]
        exact ⟨fun i y hy => hends i y ((hm.rows _ _ _).2 (.inl hy)), hpath⟩
    ascending := by
      refine pairwise_append.2 ⟨hm.ascending, pairwise_singleton _ _, fun e he e' he' hsame => ?_⟩
      rw [mem_singleton.1 he'] at hsame ⊢
      exact hends _ e.2 ((hm.rows _ _ _).2 (.inr (hsame ▸ he)))
    records := by
      rw [map_append, map_append, hm.records]
      rfl
    upsert := hp.upsert.trans hm.upsert
    keepDeletes := hp.keepDeletes.trans hm.keepDeletes
    allocated := Nat.le_trans hm.allocated hp.allocated
    named := hnamed
    sorted := hp.sorted hm.sorted }

theorem Mid.places (hm : Mid alloc base o₀ o sent landed) : (landed.map Prod.fst).Nodup := by
  rw [List.Nodup, pairwise_map]
  refine hm.ascending.imp fun {e e'} hlt heq => ?_
  have hpos := hlt (congrArg RowLocation.path heq)
  rw [heq] at hpos
  exact absurd hpos (Nat.lt_irrefl _)

theorem Mid.start (hinserted : o.insertedRows = fun _ => none) (hkeep : o.keepDeletes = true)
    (hbase : base ≤ o.allocated) (hnamed : (lane o).Named alloc base o.allocated) (hsorted : Sorted (lane o)) :
    Mid alloc base o o [] [] where
  rows := by simp
  deletes := by simp [Superseded]
  inserted := by simp [hinserted]
  free := by simp
  ascending := List.Pairwise.nil
  records := rfl
  upsert := rfl
  keepDeletes := hkeep
  allocated := hbase
  named := hnamed
  sorted := hsorted

/-! ### The index -/

theorem putRange_eq (sentRecords : List (RecordWrapper P Id K V D)) (path : P)
    (thread : StreamIndexThread P Id) (r : Range) :
    putRange sentRecords path thread r =
      (entries sentRecords path r).foldl (fun thread e => thread.Put e.2 e.1) thread := by
  unfold putRange entries
  rw [foldl_filterMap]
  congr 1
  funext thread i
  cases sentRecords[r.batchStartIdx + i]? <;> rfl

theorem putMaps_eq (sentRecords : List (RecordWrapper P Id K V D)) (thread : StreamIndexThread P Id)
    (maps : FilePositionMaps P) :
    putMaps sentRecords thread maps =
      (Groups.items (expand sentRecords maps)).foldl (fun thread e => thread.Put e.2 e.1) thread := by
  unfold putMaps items expand
  rw [foldl_flatMap, foldl_map]
  congr 1
  funext thread fileMap
  rw [foldl_flatMap]
  congr 1
  funext thread r
  exact putRange_eq sentRecords fileMap.1 thread r

theorem lookup_foldl_put (es : List (RowLocation P × Id)) (thread : StreamIndexThread P Id) (id : Id) :
    (es.foldl (fun thread e => thread.Put e.2 e.1) thread).Lookup id =
      ((last (fun x => x) es id).map Prod.fst).or (thread.Lookup id) := by
  rw [StreamIndexThread.lookup_eq, StreamIndexThread.lookup_eq, StreamIndexThread.changes_foldl_put,
    StreamIndexThread.index_foldl_put, Option.or_assoc]

/-! ### A batch -/

variable [DecidableEq V] [DecidableEq P]

theorem Mid.addRecords (halloc : Function.Injective alloc) (maps : FilePositionMaps P)
    (run : Option (WriteRun P)) (i : Nat) (events : List (RecordWrapper P Id K V D × Bool))
    (hm : Mid alloc base o₀ o sent landed) :
    Mid alloc base o₀ (Legacy.addRecords alloc o maps run i events).1 (sent ++ events.map Prod.fst)
      (landed ++ landings alloc o events) := by
  induction events generalizing o maps run i sent landed with
  | nil => simpa [Legacy.addRecords, landings] using hm
  | cons event rest ih =>
    obtain ⟨r, full⟩ := event
    have hp := write_placed halloc hm.keepDeletes (normalise r) full
    have hrest := ih (track maps run i
      ⟨(dataWriterFor alloc o (normalise r).row.values).2.filePath,
        (dataWriterFor alloc o (normalise r).row.values).2.rows.length⟩).1
      (track maps run i ⟨(dataWriterFor alloc o (normalise r).row.values).2.filePath,
        (dataWriterFor alloc o (normalise r).row.values).2.rows.length⟩).2 (i + 1) (hm.placed hp)
    rw [append_assoc, append_assoc] at hrest
    exact hrest

theorem Tracked.addRecords {run : Option (WriteRun P)}
    (ht : Tracked sentRecords maps run i landed) (alloc : Nat → P)
    (o : IcebergTableOperator P Id K V D) (events : List (RecordWrapper P Id K V D × Bool))
    (hevents : sentRecords.drop i = events.map Prod.fst) :
    Tracked sentRecords (Legacy.addRecords alloc o maps run i events).2.1
      (Legacy.addRecords alloc o maps run i events).2.2 (i + events.length)
      (landed ++ landings alloc o events) := by
  induction events generalizing o maps run i landed with
  | nil => simpa [Legacy.addRecords, landings] using ht
  | cons event rest ih =>
    obtain ⟨r, full⟩ := event
    have hr : sentRecords[i]? = some r := by
      have h := congrArg head? hevents
      simpa using h
    have hrest : sentRecords.drop (i + 1) = rest.map fst := by
      have h := congrArg tail hevents
      simpa using h
    have hnext := ih (ht.track hr ⟨(dataWriterFor alloc o (normalise r).row.values).2.filePath,
        (dataWriterFor alloc o (normalise r).row.values).2.rows.length⟩ (normalise_spec r).1)
      (write alloc (dataWriterFor alloc o (normalise r).row.values).1 (normalise r) full) hrest
    rw [append_assoc, Nat.add_right_comm] at hnext
    exact hnext

/-- The rows of an id in a batch: no file that came up after the file of the last one has
any. -/
abbrev InOrder (landed : Landings P Id K V D) : Prop :=
  ∀ e ∈ landed, ∀ e' ∈ last Record.id landed e.2.id,
    (landed.map (fun e => e.1.path)).idxOf e.1.path ≤ (landed.map (fun e => e.1.path)).idxOf e'.1.path

variable (w : LegacyWriter P Id)

theorem lookup_putMaps_sorted (events : List (RecordWrapper P Id K V D × Bool)) (id : Id) :
    (putMaps (events.map Prod.fst) w.indexThread (addToTablePerSchema alloc o events).2).Lookup id =
      ((last (fun x => x) (Groups.items (Groups.sort (fun e => e.1.path) (puts (landings alloc o events))))
        id).map Prod.fst).or (w.indexThread.Lookup id) := by
  have ht := (Tracked.start (events.map fst)).addRecords alloc o events rfl
  rw [nil_append] at ht
  rw [putMaps_eq, addToTablePerSchema]
  rw [ht.maps, lookup_foldl_put]

theorem lookup_putMaps (horder : InOrder (landings alloc o events)) (id : Id) :
    (putMaps (events.map Prod.fst) w.indexThread (addToTablePerSchema alloc o events).2).Lookup id =
      ((last Record.id (landings alloc o events) id).map Prod.fst).or (w.indexThread.Lookup id) := by
  rw [lookup_putMaps_sorted]
  generalize landings alloc o events = landed at horder
  have hlast : last (fun x => x) (items (sort (fun e => e.1.path) (puts landed))) id =
      last (fun x => x) (puts landed) id := by
    refine getLast?_items_sort _ fun a ha hpa b hb => ?_
    obtain ⟨e, he, rfl⟩ := mem_map.1 ha
    have hid : e.2.id = id := of_decide_eq_true hpa
    change last (fun x => x) (puts landed) id = some b at hb
    rw [puts, last_map_key, Option.map_eq_some_iff] at hb
    obtain ⟨e', he', rfl⟩ := hb
    rw [paths_puts]
    exact horder e he e' (hid ▸ he')
  rw [hlast, puts, last_map_key, Option.map_map]
  rfl

/-- The index knows the last rows of a batch only if they are in the files that came up
last. -/
theorem lookup_putMaps_iff (events : List (RecordWrapper P Id K V D × Bool)) :
    (∀ e ∈ landings alloc o events,
      (putMaps (events.map Prod.fst) w.indexThread (addToTablePerSchema alloc o events).2).Lookup e.2.id =
        (last Record.id (landings alloc o events) e.2.id).map Prod.fst) ↔
      InOrder (landings alloc o events) := by
  constructor
  · intro h e he e' he'
    have hput := h e he
    rw [lookup_putMaps_sorted, Option.mem_def.1 he'] at hput
    generalize landings alloc o events = landed at he he' hput
    have hmem : (e.1, e.2.id) ∈ puts landed := mem_map_of_mem he
    cases hlast : last (fun x => x) (items (sort (fun e => e.1.path) (puts landed))) e.2.id with
    | none => exact absurd rfl (last_eq_none.1 hlast _ (mem_items_sort.2 hmem))
    | some b =>
      have hle := idxOf_le_of_getLast? hmem (by simp) hlast
      rw [hlast, Option.map_some, Option.some_or, Option.map_some, Option.some.injEq] at hput
      rwa [paths_puts, hput] at hle
  · intro horder e he
    obtain ⟨e', he'⟩ : ∃ e', last Record.id (landings alloc o events) e.2.id = some e' :=
      Option.ne_none_iff_exists'.1 fun hnone => last_eq_none.1 hnone e he rfl
    rw [lookup_putMaps w horder, he']
    rfl

end Olake.Legacy
