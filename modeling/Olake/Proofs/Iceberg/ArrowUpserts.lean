/-
After every commit of the arrow writer the table shows the last row of every id.

While a thread is open, the table together with what the thread has staged already
shows the rows written so far (`Coherent.shows`): a commit would make it so.  A record
keeps that if it supersedes the current row of its id.  With a row index it does,
because the index knows the row, unless the record is a plain insert.  Without an index
the row is found by its id in the partition the record goes to, so it has to be there.
-/
import Olake.Proofs.Iceberg.ArrowPositions

namespace Olake.Arrow

open Iceberg IcebergWriter Rolling Staging TableIndex Versions List

variable {P Id K V D : Type} [DecidableEq Id]

/-- Positional deletes are matched by their path and position alone. -/
def byPath : FileMatch P Id K V D := fun _ _ => true

/-! ### Conditions on records -/

variable (s : System P Id K V D)

/-- The current row of an id, and where it is. -/
def current (written : Landings P Id K V D) (id : Id) : Option (RowLocation P × Record Id K V D) :=
  last Record.id (s.written ++ written) id

variable (w : ArrowWriter P Id K V D)

/-- A thread with upserts is no backfill, and a backfill writes ids that have no row. -/
abbrev Expected (written : Landings P Id K V D) (rec : Record Id K V D) : Prop :=
  if w.upsertMode then rec.op ≠ .r else current s written rec.id = none

/-- The record comes after the current row of its id in a way the writer notices: with
an index, it is no plain insert if there is such a row; without one, it goes to the
partition the row is in. -/
def Follows (written : Landings P Id K V D) (rec : Record Id K V D) : Prop :=
  match current s written rec.id with
  | none => True
  | some (loc, row) =>
    match w.indexThread with
    | some _ => rec.op ≠ .c
    | none => row.pKey = rec.pKey ∧ ∀ f ∈ s.table.data, f.path = loc.path → f.partition = label w rec

instance [DecidableEq K] [DecidableEq P] [DecidableEq V] (written : Landings P Id K V D)
    (rec : Record Id K V D) : Decidable (Follows s w written rec) := by
  unfold Follows
  repeat' split
  all_goals infer_instance

/-! ### What a commit would show -/

/-- The row would be live if the thread committed now. -/
def WouldLive (t : IdTable P Id K V D) (w : ArrowWriter P Id K V D) (loc : RowLocation P)
    (row : Record Id K V D) : Prop :=
  ((∃ f ∈ t.data, f.path = loc.path ∧ f.rows[loc.position]? = some row ∧
      ¬ t.EqualityDeleted (idReader byPath) f row ∧
      ¬ t.PositionDeleted (idReader byPath) f loc.position ∧ ¬ (eqLane w).HasItem f.partition row.id) ∨
    (dataLane w).HasRow loc.path loc.position row) ∧ ¬ Position w loc

/-- The state of an open thread. -/
structure Coherent (written : Landings P Id K V D) : Prop where
  shows : Shows Record.id (WouldLive s.table w) (s.written ++ written)
  /-- A partition remembers the current row, if the thread has written it there. -/
  remembers : w.indexThread = none → w.upsertMode = true → ∀ id loc row,
    current s written id = some (loc, row) → (dataLane w).HasRow loc.path loc.position row →
      idPosition w row.pKey id = some loc
  /-- The index knows the current row. -/
  index : ∀ thread, w.indexThread = some thread → ∀ id,
    thread.Lookup id = (current s written id).map Prod.fst

section Thread

variable {alloc : Nat → P} {s : System P Id K V D} {w w' : ArrowWriter P Id K V D}
  {written : Landings P Id K V D}

theorem Coherent.same (hc : Coherent s w written) (h : Same alloc w w') : Coherent s w' written where
  shows := hc.shows.congr fun _ _ => by simp only [WouldLive, h.ids, h.rows, h.positions]
  remembers hindex hmode id loc row hcur hrow := by
    rw [h.idPosition]
    rw [h.rows] at hrow
    exact hc.remembers (h.index ▸ hindex) (h.upsertMode ▸ hmode) id loc row hcur hrow
  index thread hthread := hc.index thread (h.index ▸ hthread)

theorem WouldLive.stored (h : WouldLive t w loc row) : Stored t (dataLane w) loc row := by
  obtain ⟨⟨f, hf, hpath, hrow, -⟩ | hrow, -⟩ := h
  · exact .inl ⟨f, hf, hpath, hrow⟩
  · exact .inr hrow

/-! ### One record -/

section Record

variable {rec row y : Record Id K V D} {loc l : RowLocation P}
  (hr : Recorded alloc s.allocated s.table s.index s.written)
  (hl : Logged alloc s.allocated s.index s.written w written) (hc : Coherent s w written)
  (hexp : Expected s w written rec) (hfol : Follows s w written rec)

omit [DecidableEq Id] in
theorem eq_of_mem_idDeletes {id : Id} (h : id ∈ idDeletes w rec) : id = rec.id := by
  unfold idDeletes at h
  split at h
  · exact mem_singleton.1 h
  · cases h

include hl hc hexp hfol in
/-- The record deletes the current row of its id. -/
theorem Logged.deletes_current (hcur : current s written rec.id = some (l, y)) :
    l ∈ positionDeletes w rec ∨ rec.id ∈ idDeletes w rec ∧
      ¬ (dataLane w).HasRow l.path l.position y ∧
      ∀ f ∈ s.table.data, f.path = l.path → f.partition = label w rec := by
  have hmode : w.upsertMode = true := by
    by_contra hmode
    rw [Expected, if_neg hmode, hcur] at hexp
    cases hexp
  rw [Expected, if_pos hmode] at hexp
  rw [Follows, hcur] at hfol
  cases hthread : w.indexThread with
  | some thread =>
    rw [hthread] at hfol
    refine .inl ?_
    simp [positionDeletes, hthread, indexDeletes, hmode, hexp, show rec.op ≠ .c from hfol,
      hc.index thread hthread, hcur]
  | none =>
    rw [hthread] at hfol
    have hd : Dedups w rec := ⟨hthread, hmode, hexp⟩
    cases hpos : idPosition w rec.pKey rec.id with
    | none =>
      refine .inr ⟨by simp [idDeletes, hd, hpos], fun hrow => ?_, hfol.2⟩
      have hremember := hc.remembers hthread hmode rec.id l y hcur hrow
      rw [hfol.1, hpos] at hremember
      cases hremember
    | some p =>
      -- the partition remembers a row of the thread, so the current one is the thread's too
      obtain ⟨e, he, heq⟩ := mem_map.1 (hl.remembered _ _ _ hpos)
      have hsome : last Record.id written rec.id ≠ none := fun hnone =>
        last_eq_none.1 hnone e he (congrArg Prod.snd heq)
      obtain ⟨e', he'⟩ := Option.ne_none_iff_exists'.1 hsome
      rw [current, last_append, he', Option.some_or] at hcur
      cases hcur
      have hremember := hc.remembers hthread hmode rec.id l y (by rw [current, last_append, he']; rfl)
        ((hl.rows _ _ _).2 (mem_of_last he').1)
      rw [hfol.1] at hremember
      exact .inl (by simp [positionDeletes, hthread, hd, hremember])

include hr hl

omit [DecidableEq Id] in
theorem Logged.apart : Apart alloc s.allocated w.allocated s.table (dataLane w) :=
  ⟨hr.toFiled, hl.base_le, hl.named⟩

variable [DecidableEq K] (hp : Placed alloc w w' rec loc row)

include hp

theorem Logged.not_stored (y : Record Id K V D) : ¬ Stored s.table (dataLane w) loc y := by
  obtain ⟨-, hends, hpath⟩ := hp.named _ hl.base_le hl.named
  exact (hl.apart hr).not_stored hends hpath y

include hc

theorem Logged.deleted (hexp : Expected s w written rec) (hfol : Follows s w written rec)
    (hlive : WouldLive s.table w l y) (hid : y.id = rec.id) : ¬ WouldLive s.table w' l y := by
  have hcur : current s written rec.id = some (l, y) := hid ▸ (hc.shows l y).1 hlive
  rintro ⟨hrow, hpos⟩
  rcases hl.deletes_current hc hexp hfol hcur with hmem | ⟨hmem, hstaged, hfile⟩
  · exact hpos ((hp.positions l).2 (.inr hmem))
  · rcases hrow with ⟨f, hf, hpath, -, -, -, hnot⟩ | hrow
    · exact hnot ((hp.ids _ _).2 (.inr ⟨hfile f hf hpath, hid ▸ hmem⟩))
    · rcases (hp.rows _ _ _).1 hrow with hrow | ⟨hpath, hposition, -⟩
      · exact hstaged hrow
      · obtain rfl : l = loc := RowLocation.ext hpath hposition
        exact hl.not_stored hr hp y hlive.stored

omit hc in
theorem Logged.kept (hlive : WouldLive s.table w l y) (hid : y.id ≠ rec.id) :
    WouldLive s.table w' l y := by
  obtain ⟨hrow, hpos⟩ := id hlive
  refine ⟨?_, fun hpos' => ?_⟩
  · rcases hrow with ⟨f, hf, hpath, hrow, heq, hdel, hnot⟩ | hrow
    · refine .inl ⟨f, hf, hpath, hrow, heq, hdel, fun hitem => ?_⟩
      rcases (hp.ids _ _).1 hitem with hitem | ⟨-, hmem⟩
      · exact hnot hitem
      · exact hid (eq_of_mem_idDeletes hmem)
    · exact .inr ((hp.rows _ _ _).2 (.inl hrow))
  · rcases (hp.positions l).1 hpos' with hpos' | hmem
    · exact hpos hpos'
    · obtain ⟨y', hid', hstored⟩ := hr.stored hl.rows (hl.told_of_mem hr hmem)
      rw [(hl.apart hr).unique hstored hlive.stored] at hid'
      exact hid hid'

omit hc in
theorem Logged.shown : WouldLive s.table w' loc row := by
  refine ⟨.inr ((hp.rows _ _ _).2 (.inr ⟨rfl, rfl, rfl⟩)), fun hpos => ?_⟩
  obtain ⟨id, hid⟩ : ∃ id, (loc, id) ∈ toldOf (s.written ++ written) := by
    rcases (hp.positions loc).1 hpos with hpos | hmem
    · exact (hl.positions loc hpos).told
    · exact ⟨rec.id, hl.told_of_mem hr hmem⟩
  obtain ⟨y, -, hstored⟩ := hr.stored hl.rows hid
  exact hl.not_stored hr hp y hstored

include hexp hfol

theorem Logged.wouldLive (l : RowLocation P) (y : Record Id K V D) :
    WouldLive s.table w' l y ↔ WouldLive s.table w l y ∧ y.id ≠ row.id ∨ l = loc ∧ y = row := by
  rw [hp.row_id]
  constructor
  · intro hlive
    have hold : WouldLive s.table w l y ∨ l = loc ∧ y = row := by
      obtain ⟨hrow, hpos⟩ := id hlive
      have hpos' : ¬ Position w l := fun h => hpos ((hp.positions l).2 (.inl h))
      rcases hrow with ⟨f, hf, hpath, hrow, heq, hdel, hnot⟩ | hrow
      · exact .inl ⟨.inl ⟨f, hf, hpath, hrow, heq, hdel,
          fun h => hnot ((hp.ids _ _).2 (.inl h))⟩, hpos'⟩
      · rcases (hp.rows _ _ _).1 hrow with hrow | ⟨hpath, hposition, hy⟩
        · exact .inl ⟨.inr hrow, hpos'⟩
        · exact .inr ⟨RowLocation.ext hpath hposition, hy⟩
    exact hold.imp_left fun h => ⟨h, fun hid => hl.deleted hr hc hp hexp hfol h hid hlive⟩
  · rintro (⟨hlive, hid⟩ | ⟨rfl, rfl⟩)
    · exact hl.kept hr hp hlive hid
    · exact hl.shown hr hp

theorem Logged.coherent_placed : Coherent s w' (written ++ [(loc, row)]) := by
  have hcur : ∀ id, current s (written ++ [(loc, row)]) id =
      if rec.id = id then some (loc, row) else current s written id := by
    intro id
    rw [current, ← append_assoc, last_append_singleton, ← hp.row_id]
    rfl
  refine ⟨?_, ?_, ?_⟩
  · rw [← append_assoc]
    exact hc.shows.write (hl.wouldLive hr hc hexp hfol hp)
  · intro hindex hmode id l y hlast hrow
    have hthread : w.indexThread = none := by
      rw [hp.index] at hindex
      exact Option.map_eq_none_iff.1 hindex
    rw [hp.upsertMode] at hmode
    rw [hcur] at hlast
    rw [hp.idPosition]
    split at hlast
    · next hid =>
      cases hlast
      rw [Expected, if_pos hmode] at hexp
      rw [if_pos ⟨⟨hthread, hmode, hexp⟩, hp.row_pKey, hid.symm⟩]
    · next hid =>
      rw [if_neg fun h => hid h.2.2.symm]
      refine hc.remembers hthread hmode id l y hlast ?_
      rcases (hp.rows _ _ _).1 hrow with hrow | ⟨-, -, rfl⟩
      · exact hrow
      · exact absurd (hp.row_id.symm.trans (mem_of_last hlast).2) hid
  · intro thread' hthread' id
    rw [hp.index, Option.map_eq_some_iff] at hthread'
    obtain ⟨thread, hthread, rfl⟩ := hthread'
    rw [StreamIndexThread.lookup_put, hcur, hc.index thread hthread]
    by_cases hid : rec.id = id
    · simp [hid]
    · simp [hid, Ne.symm hid]

end Record

/-! ### A batch -/

variable [DecidableEq K]

/-- Every record of the batch is as expected where it stands. -/
def Batch (alloc : Nat → P) (s : System P Id K V D) (w : ArrowWriter P Id K V D)
    (written : Landings P Id K V D) : List (Record Id K V D) → Prop
  | [] => True
  | rec :: rest => Expected s w written rec ∧ Follows s w written rec ∧
      Batch alloc s (extractRecord alloc w rec) (written ++ (landing alloc w rec).toList) rest

instance decidableBatch [DecidableEq P] [DecidableEq V] (alloc : Nat → P) (s : System P Id K V D) :
    ∀ w written records, Decidable (Batch alloc s w written records)
  | _, _, [] => isTrue trivial
  | w, written, rec :: rest => by
    have hrest := (decidableBatch alloc s (extractRecord alloc w rec) · rest)
    unfold Batch
    infer_instance

theorem Coherent.extract (halloc : Function.Injective alloc)
    (hr : Recorded alloc s.allocated s.table s.index s.written)
    (hl : Logged alloc s.allocated s.index s.written w written) (hc : Coherent s w written)
    (hbatch : Batch alloc s w written records) :
    Coherent s (Arrow.extract alloc w records) (written ++ landings alloc w records) := by
  induction records generalizing w written with
  | nil => simpa [Arrow.extract, landings] using hc
  | cons rec rest ih =>
    obtain ⟨hexp, hfol, hrest⟩ := hbatch
    obtain ⟨loc, row, hland, hp⟩ := extractRecord_placed halloc hl.ready rec
    rw [landings, ← append_assoc]
    rw [hland] at hrest ⊢
    exact ih (hl.placed hr hp) (hl.coherent_placed hr hc hexp hfol hp) hrest

end Thread

/-! ### The life of the table -/

/-- The table has the rows of its writers. -/
structure Sound (alloc : Nat → P) (deleteMode : UpdateType) (s : System P Id K V D) : Prop
    extends Found alloc deleteMode s where
  shows : Shows Record.id (s.table.Live (idReader byPath)) s.written
  index : deleteMode.NeedsTableIndex = true → ∀ id, s.index id = (last Record.id s.written id).map Prod.fst
  vectors : deleteMode ≠ .deletionVector → s.table.vectors = []
  coherent : ∀ w written, s.thread = some (w, written) → Coherent s w written

section Steps

variable {alloc : Nat → P} {deleteMode : UpdateType} {s : System P Id K V D}
  {w : ArrowWriter P Id K V D} {written : Landings P Id K V D}

theorem Sound.start : Sound alloc deleteMode (System.start : System P Id K V D) where
  toFound := Found.start
  shows l y := by simp [System.start, Table.empty, Table.Live]
  index _ _ := rfl
  vectors _ := rfl
  coherent _ _ h := by cases h

theorem coherent_new (hs : Sound alloc deleteMode s) (upsertMode resolveUpsertOp : Bool) :
    Coherent s (New upsertMode resolveUpsertOp deleteMode s.index s.allocated) [] := by
  generalize hw : (New upsertMode resolveUpsertOp deleteMode s.index s.allocated :
    ArrowWriter P Id K V D) = w
  have hrow : ∀ path i y, ¬ (dataLane w).HasRow path i y := by
    rintro path i y ⟨f, hf | ⟨k, hf⟩, -⟩ <;> simp [dataLane, ← hw, New] at hf
  have hitem : ∀ values id, ¬ (eqLane w).HasItem values id := by
    rintro values id ⟨f, hf | ⟨k, hf⟩, -⟩ <;> simp [eqLane, ← hw, New] at hf
  have hpos : ∀ loc, ¬ Position w loc := by
    rintro loc (⟨values, f, hf | ⟨k, hf⟩, -⟩ | ⟨k, writer, hk, -⟩ | ⟨v, hv, -⟩ | hv)
    all_goals simp_all [posLane, ← hw, New]
  refine ⟨fun l y => ?_, fun _ _ _ loc row _ h => absurd h (hrow loc.path loc.position row),
    fun thread hthread id => ?_⟩
  · rw [append_nil, ← hs.shows l y]
    simp [WouldLive, Table.Live, hrow, hitem, hpos]
  · rw [← hw, New] at hthread
    split at hthread
    · next hneeds =>
      cases hthread
      rw [current, append_nil]
      exact hs.index hneeds id
    · cases hthread

/-! ### The commit -/

section Commit

variable [DecidableEq P] (hs : Sound alloc deleteMode s) (hl : Logged alloc s.allocated s.index s.written w written)
  (hmode : w.deleteMode = deleteMode) (hclear : ∀ k, Clear w k) (hclosed : ∀ k, Closed w k)

include hs hl hmode hclear hclosed in
theorem Sound.accepts : s.table.Accepts (idReader byPath) (delta (sendPendingVectors w)) where
  fresh := (hl.apart hs.recorded).fresh_files (hl.commits hclear hclosed)
  paths := (hl.commits hclear hclosed).paths
  vectors := by
    by_cases hdv : deleteMode = .deletionVector
    · left
      rw [delta, map_eq_nil_iff]
      exact hl.ready.noFiles (hmode.trans hdv)
    · obtain ⟨hpending, hvectors⟩ := hl.ready.noVectors (hmode ▸ hdv)
      exact .inr ⟨hs.vectors hdv, by simp [delta, sendPendingVectors, hpending, hvectors]⟩
  covered _ _ d hd loc hloc _ := ⟨d, hd, hloc, rfl⟩

include hs hl hmode hclear hclosed in
theorem Sound.shows_commit (hc : Coherent s w written) : Shows Record.id
    ((s.table.commit (idReader byPath) (delta (sendPendingVectors w))).Live (idReader byPath))
    (s.written ++ written) := by
  have hequality : ∀ values row, (delta (sendPendingVectors w)).Equality (idReader byPath) values row ↔
      (eqLane w).HasItem values row.id := fun _ _ => delta_equality hclosed
  refine hc.shows.congr fun l y => ?_
  rw [Table.live_commit hs.recorded.ordered (hs.accepts hl hmode hclear hclosed),
    (hl.commits hclear hclosed).holds, (hl.commits hclear hclosed).position]
  simp only [WouldLive, hequality]

end Commit

variable [DecidableEq K] [DecidableEq P]

/-- What is assumed of an event: every partition is walked, and the records are as
expected and follow what is there. -/
def Allowed (alloc : Nat → P) (e : Event Id K V D) (s : System P Id K V D) : Prop :=
  match e, s.thread with
  | .write order _ records, some (w, written) =>
    Walks (Arrow.extract alloc w records) order ∧ Batch alloc s w written records
  | .evolve order, some (w, _) => Walks w order
  | .close order, some (w, _) => Walks w order
  | _, _ => True

instance [Fintype K] [DecidableEq V] (e : Event Id K V D) (s : System P Id K V D) :
    Decidable (Allowed alloc e s) := by
  unfold Allowed Walks
  exact match e, s.thread with
  | .new .., _ | .abort, _ | .write .., none | .evolve _, none | .close _, none => inferInstance
  | .write .., some _ | .evolve _, some _ | .close _, some _ => inferInstance

omit [DecidableEq P] in
theorem Allowed.walked (he : Allowed alloc e s) : Walked alloc e s := by
  cases e <;> cases hthread : s.thread <;> simp_all [Allowed, Walked]

theorem Sound.step (halloc : Function.Injective alloc) (e : Event Id K V D)
    (hs : Sound alloc deleteMode s) (he : Allowed alloc e s) :
    Sound alloc deleteMode (Arrow.step alloc byPath deleteMode e s) := by
  have hfound : Found alloc deleteMode (Arrow.step alloc byPath deleteMode e s) :=
    hs.toFound.step halloc e he.walked
  revert hfound
  fun_cases Arrow.step alloc byPath deleteMode e s with
  | case1 upsertMode resolveUpsertOp =>
    intro hfound
    refine ⟨hfound, hs.shows, hs.index, hs.vectors, fun _ _ h => ?_⟩
    cases h
    obtain ⟨hshows, hremembers, hindex⟩ := coherent_new hs upsertMode resolveUpsertOp
    exact ⟨hshows, hremembers, hindex⟩
  | case2 order full records w written hthread =>
    intro hfound
    simp only [Allowed, hthread] at he
    refine ⟨hfound, hs.shows, hs.index, hs.vectors, fun _ _ h => ?_⟩
    cases h
    obtain ⟨hshows, hremembers, hindex⟩ := ((hs.coherent _ _ hthread).extract halloc hs.recorded
      (hs.thread _ _ hthread).2.1 he.2).same (hs.toFound.write halloc hthread full he.1).1
    exact ⟨hshows, hremembers, hindex⟩
  | case3 order w written hthread =>
    intro hfound
    obtain ⟨-, hl, hclear⟩ := hs.thread _ _ hthread
    refine ⟨hfound, hs.shows, hs.index, hs.vectors, fun _ _ h => ?_⟩
    cases h
    obtain ⟨hshows, hremembers, hindex⟩ := (hs.coherent _ _ hthread).same
      (same_completeWriters alloc order hl.ready hclear).1
    exact ⟨hshows, hremembers, hindex⟩
  | case4 order w written hthread =>
    intro hfound
    -- the thread closes
    simp only [Allowed, hthread] at he
    obtain ⟨hmode, hl, -⟩ := hs.thread _ _ hthread
    obtain ⟨w', hsame, hclear, hclosed, ⟨rfl, heq⟩ | heq⟩ := hs.close_cases byPath hthread he
    · rw [heq, append_nil] at hfound ⊢
      exact ⟨hfound, hs.shows, hs.index, hs.vectors, fun _ _ h => by cases h⟩
    · have hl' := hl.same hsame
      have hmode' := hsame.deleteMode.trans hmode
      have hc' := (hs.coherent _ _ hthread).same hsame
      rw [heq] at hfound ⊢
      refine ⟨hfound, hs.shows_commit hl' hmode' hclear hclosed hc', fun hneeds id => ?_, fun hdv => ?_,
        fun _ _ h => by cases h⟩
      · have hindex := hl'.ready.index
        rw [hmode', hneeds] at hindex
        obtain ⟨thread, hthread'⟩ := Option.isSome_iff_exists.1 hindex
        simp only [hthread']
        rw [StreamIndexThread.commit_eq, ← (hl'.index thread hthread').1, ← StreamIndexThread.lookup_eq]
        exact hc'.index thread hthread' id
      · obtain ⟨hpending, hvectors⟩ := hl'.ready.noVectors (hmode' ▸ hdv)
        simp [Iceberg.Table.commit, delta, sendPendingVectors, hpending, hvectors, hs.vectors hdv]
  | case5 => exact fun hfound => ⟨hfound, hs.shows, hs.index, hs.vectors, fun _ _ h => by cases h⟩
  | case6 => exact fun _ => hs

/-- In every run of writer threads whose records are as expected and follow what is
there, what can be read is the last row written for each id: there is one such row, and
no other row of the id is live. -/
theorem live_iff_last_written (halloc : Function.Injective alloc) (deleteMode : UpdateType)
    (events : List (Event Id K V D))
    (hevents : Machine.Along (Arrow.step alloc byPath deleteMode) (Allowed alloc) events System.start)
    (loc : RowLocation P) (row : Record Id K V D) :
    let s := Machine.run (Arrow.step alloc byPath deleteMode) events System.start
    s.table.Live (idReader byPath) loc row ↔ last Record.id s.written row.id = some (loc, row) := by
  have hsound : Sound alloc deleteMode
      (Machine.run (Arrow.step alloc byPath deleteMode) events System.start) :=
    Machine.run_inv (fun e s hs he => hs.step halloc e he) Sound.start hevents
  exact hsound.shows loc row

end Steps

def sync (records : List (Record Nat Bool Bool Nat)) : List (Event Nat Bool Bool Nat) :=
  [.new true true, .write [false, true] (fun _ => ⟨true, false, false⟩) records, .close [false, true]]

/-- A row is updated twice in its partition, with a file rolled in between. -/
theorem live_iff_last_written_updates :
    let events := sync [⟨.c, 1, false, false, 10⟩] ++
      [.new true true, .write [false] (fun _ => ⟨true, true, true⟩) [⟨.u, 1, false, false, 11⟩],
        .evolve [false], .write [false] (fun _ => ⟨false, false, false⟩) [⟨.u, 1, false, false, 12⟩],
        .close [false]]
    let s := Machine.run (Arrow.step id byPath .equality) events System.start
    ∃ loc, s.table.Live (idReader byPath) loc (⟨.u, 1, false, false, 12⟩ : Record Nat Bool Bool Nat) ∧
      last Record.id s.written 1 = some (loc, ⟨.u, 1, false, false, 12⟩) := by
  refine ⟨⟨9, 0⟩, ?_, by decide +kernel⟩
  exact (live_iff_last_written Function.injective_id .equality _ (by decide +kernel) _ _).2
    (by decide +kernel)

/-- Without an index, a row that moves to another partition stays where it was as well.
With one, the tombstone of a row stays when the row is inserted again. -/
theorem two_rows_live :
    (let s := Machine.run (Arrow.step id byPath .equality)
        (sync [⟨.c, 1, false, false, 10⟩] ++ sync [⟨.u, 1, true, true, 11⟩]) System.start
      ∃ loc ∈ s.written.map Prod.fst, ∃ loc' ∈ s.written.map Prod.fst,
        s.table.Live (idReader byPath) loc (⟨.c, 1, false, false, 10⟩ : Record Nat Bool Bool Nat) ∧
        s.table.Live (idReader byPath) loc' ⟨.u, 1, true, true, 11⟩) ∧
    ∀ mode ∈ [UpdateType.position, .deletionVector],
      let s := Machine.run (Arrow.step id byPath mode)
        (sync [⟨.c, 1, false, false, 10⟩] ++ sync [⟨.d, 1, false, false, 11⟩] ++
          sync [⟨.c, 1, false, false, 12⟩]) System.start
      ∃ loc ∈ s.written.map Prod.fst, ∃ loc' ∈ s.written.map Prod.fst,
        s.table.Live (idReader byPath) loc (⟨.d, 1, false, false, 11⟩ : Record Nat Bool Bool Nat) ∧
        s.table.Live (idReader byPath) loc' ⟨.c, 1, false, false, 12⟩ := by
  decide +kernel

end Olake.Arrow
