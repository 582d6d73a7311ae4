/-
A backfill over whole runs.

A chunk has two forms, the one it was split in and the one it is loaded in, and
with them two thread IDs.  While the IDs of different chunks stay apart and none
was in the destination's list when the backfill started, an ID in the list stands
for a chunk this backfill has read (`Inv.ids_read`), so no chunk leaves the state
unread.  If a process only restarts while every committed chunk that is still
pending keeps its ID, the list also names every chunk that has rows at the
destination, so none is written a second time.  A local Parquet destination has no
list; there a thread that has committed must take its chunk out of the state.
-/
import Olake.Lib.Run
import Olake.Proofs.ThreadID

namespace Olake

open List

/-- The chunk as it was split and as it is loaded. -/
def Chunk.forms (c : Chunk) : List Chunk := [c, c.reload]

@[simp] theorem Chunk.reload_reload (c : Chunk) : c.reload.reload = c.reload := by
  simp [Chunk.reload]

theorem Chunk.self_mem_forms (c : Chunk) : c ∈ c.forms := by simp [forms]

theorem Chunk.reload_mem_forms {p c : Chunk} (h : p ∈ c.forms) : p.reload ∈ c.forms := by
  simp only [forms, mem_cons, not_mem_nil, or_false] at h ⊢
  rcases h with rfl | rfl
  · exact .inr rfl
  · exact .inr c.reload_reload

namespace Backfill

open Machine

variable {Row H : Type}

/-- No form of one chunk shares its name with a form of another. -/
def Apart {K : Type} (name : Chunk → K) (chunks : List Chunk) : Prop :=
  ∀ c ∈ chunks, ∀ d ∈ chunks, ∀ p ∈ c.forms, ∀ q ∈ d.forms, name p = name q → c = d

theorem Apart.eq {K : Type} {name : Chunk → K} (h : Apart name chunks)
    (hc : c ∈ chunks) (hd : d ∈ chunks) (hp : p ∈ c.forms) (hp' : p ∈ d.forms) : c = d :=
  h c hc d hd p hp p hp' rfl

/-- This backfill has read the chunk and committed what it read. -/
def Read (w : World Row) (c : Chunk) : Prop := ∃ b ∈ w.batches, b.chunk ∈ c.forms

section Runs

variable (dest : Destination) (hash : Chunk → H) (ulid streamID : Bytes)

/-- What is assumed of the hash: it keeps the chunks of a backfill apart. -/
def HashApart : Action Row → World Row → Prop
  | .start chunks _, _ => Apart hash chunks
  | _, _ => True

/-- A backfill starts with chunks whose IDs are apart and not in the list yet. -/
def NewIDs : Action Row → World Row → Prop
  | .start chunks _, w =>
    Apart (Chunk.threadID ulid streamID) chunks ∧
      ∀ c ∈ chunks, ∀ p ∈ c.forms, p.threadID ulid streamID ∉ w.ids
  | _, _ => True

/-- A process restarts only while the committed chunks that are still pending keep
their IDs. -/
def StableRestart : Action Row → World Row → Prop
  | .restart, w => ∀ p ∈ w.pending, p.threadID ulid streamID ∈ w.ids → p.min.Stable ∧ p.max.Stable
  | _, _ => True

/-- Nothing comes between the commit of a thread and the removal of its chunk. -/
def RemovesCommitted : Action Row → World Row → Prop
  | .close c rows outcome, w => w.threads c = some .reading → rows ≠ [] → outcome ≠ .committedErr
  | .fail c, w => w.threads c ≠ some .closed
  | .finish c ctxDone, w => w.threads c = some .closed → ctxDone = false
  | .restart, w => ∀ p ∈ w.pending, w.threads p ≠ some .closed
  | _, _ => True

structure Inv (w : World Row) : Prop where
  ids_apart : Apart (Chunk.threadID ulid streamID) w.chunks
  hash_apart : Apart hash w.chunks
  pending_forms : ∀ p ∈ w.pending, ∃ c ∈ w.chunks, p ∈ c.forms
  /-- Of each chunk only one form is pending. -/
  pending_unique : ∀ c ∈ w.chunks, ∀ p ∈ w.pending, ∀ q ∈ w.pending,
    p ∈ c.forms → q ∈ c.forms → p = q
  threads_pending : ∀ p, w.threads p ≠ none → p ∈ w.pending
  ids_read : ∀ c ∈ w.chunks, ∀ p ∈ c.forms, p.threadID ulid streamID ∈ w.ids → Read w c
  done_read : ∀ c ∈ w.chunks, ∀ p ∈ c.forms,
    w.threads p = some .skipping ∨ w.threads p = some .closed → Read w c
  settled : ∀ c ∈ w.chunks, (∃ p ∈ w.pending, p ∈ c.forms) ∨ Read w c

variable {dest hash ulid streamID} {w : World Row} {ids : List Bytes} {rows : List Row}

/-- The ID of a thread goes to the list, except without a two-phase commit or, for Iceberg,
without a row. -/
theorem mem_recordID {id x : Bytes} : x ∈ recordID dest id rows ids ↔
    x ∈ ids ∨ x = id ∧ dest ≠ .parquetLocal ∧ (dest = .iceberg → rows ≠ []) := by
  cases dest with
  | parquetS3 =>
    by_cases h : id ∈ ids
    · simp only [recordID, if_pos h]
      exact (or_iff_left_of_imp fun hx => hx.1 ▸ h).symm
    · simp [recordID, h]
  | parquetLocal => simp [recordID]
  | iceberg => cases rows <;> simp [recordID]

variable {p : Chunk} {phase : Option Phase} (hw : Inv hash ulid streamID w)
include hw

/-- A pending chunk with the name of a form of `c` is a form of `c`. -/
theorem Inv.mem_forms {K : Type} {name : Chunk → K} (hap : Apart name w.chunks) (hc : c ∈ w.chunks)
    (hqc : q ∈ c.forms) (hp : p ∈ w.pending) (heq : name q = name p) : p ∈ c.forms := by
  obtain ⟨d, hd, hpd⟩ := hw.pending_forms p hp
  rwa [hap c hc d hd q hqc p hpd heq]

theorem Inv.eq_of_name {K : Type} {name : Chunk → K} (hap : Apart name w.chunks) (hq : q ∈ w.pending)
    (hp : p ∈ w.pending) (heq : name q = name p) : q = p := by
  obtain ⟨c, hc, hqc⟩ := hw.pending_forms q hq
  exact hw.pending_unique c hc q hq p hp hqc (hw.mem_forms hap hc hqc hp heq)

theorem Inv.mem_forms_of_reload (hc : c ∈ w.chunks) (hp : p ∈ w.pending) (h : p.reload ∈ c.forms) :
    p ∈ c.forms := by
  obtain ⟨d, hd, hpd⟩ := hw.pending_forms p hp
  rwa [hw.ids_apart.eq hc hd h (Chunk.reload_mem_forms hpd)]

/-- A step that changes only the threads keeps the invariant if it opens none
without a chunk and calls none done without a read. -/
theorem Inv.setThread (hpend : phase ≠ none → p ∈ w.pending)
    (hread : phase = some .skipping ∨ phase = some .closed →
      ∀ c ∈ w.chunks, p ∈ c.forms → Read w c) :
    Inv hash ulid streamID { w with threads := Function.update w.threads p phase } :=
  { hw with
    threads_pending := fun q hq => by
      by_cases h : q = p
      · subst h
        exact hpend (by simpa using hq)
      · exact hw.threads_pending q (by simpa [h] using hq)
    done_read := fun c hc q hqc hq => by
      by_cases h : q = p
      · subst h
        exact hread (by simpa using hq) c hc hqc
      · exact hw.done_read c hc q hqc (by simpa [h] using hq) }

theorem Inv.endThread (p : Chunk) : Inv hash ulid streamID (endThread p w) :=
  hw.setThread (fun h => absurd rfl h) (by rintro (h | h) <;> cases h)

theorem Inv.openThread (p : Chunk) : Inv hash ulid streamID (openThread ulid streamID p w) := by
  unfold Backfill.openThread
  split
  next h =>
    refine hw.setThread (fun _ => h.1) ?_
    split
    next hid => exact fun _ c hc hpc => hw.ids_read c hc p hpc hid
    next => rintro (h | h) <;> cases h
  next => exact hw

/-- A commit of a thread that has read its chunk, now or before. -/
theorem Inv.commit (hp : p ∈ w.pending) (rows : List Row) (hmono : ∀ b ∈ w.batches, b ∈ batches)
    (hread : ∀ c ∈ w.chunks, p ∈ c.forms → ∃ b ∈ batches, b.chunk ∈ c.forms) :
    Inv hash ulid streamID
      { w with ids := recordID dest (p.threadID ulid streamID) rows w.ids, batches := batches } := by
  have hstill : ∀ c, Read w c → ∃ b ∈ batches, b.chunk ∈ c.forms :=
    fun c ⟨b, hb, hbc⟩ => ⟨b, hmono b hb, hbc⟩
  refine { hw with
    ids_read := fun c hc q hqc hid => ?_
    done_read := fun c hc q hqc hq => hstill c (hw.done_read c hc q hqc hq)
    settled := fun c hc => (hw.settled c hc).imp_right (hstill c) }
  rcases mem_recordID.1 hid with hid | ⟨hid, -⟩
  · exact hstill c (hw.ids_read c hc q hqc hid)
  · -- the ID was recorded for `p`, which is then a form of the same chunk
    exact hread c hc (hw.mem_forms hw.ids_apart hc hqc hp hid)

theorem Inv.afterClose (hp : p ∈ w.pending)
    (hread : outcome = .committed → ∀ c ∈ w.chunks, p ∈ c.forms → Read w c) :
    Inv hash ulid streamID (afterClose p outcome w) := by
  unfold Backfill.afterClose
  split
  next h => exact hw.setThread (fun _ => hp) (fun _ => hread h)
  next => exact hw.endThread p

theorem Inv.closeThread (p : Chunk) (rows : List Row) (outcome : CloseOutcome) :
    Inv hash ulid streamID (closeThread dest ulid streamID p rows outcome w) := by
  unfold Backfill.closeThread
  split
  next hth =>
    have hp : p ∈ w.pending := hw.threads_pending p (by rw [hth]; simp)
    split
    next =>
      have hread : ∀ c ∈ w.chunks, p ∈ c.forms → ∃ b ∈ w.batches ++ [⟨p, rows⟩], b.chunk ∈ c.forms :=
        fun c _ hpc => ⟨⟨p, rows⟩, by simp, hpc⟩
      exact (hw.commit hp rows (fun _ => mem_append_left _) hread).afterClose hp fun _ => hread
    next hdur => exact hw.afterClose hp fun h => absurd (h ▸ rfl) hdur
  next hth =>
    have hp : p ∈ w.pending := hw.threads_pending p (by rw [hth]; simp)
    have hread : ∀ c ∈ w.chunks, p ∈ c.forms → Read w c := fun c hc hpc =>
      hw.done_read c hc p hpc (.inl hth)
    split
    next => exact (hw.commit hp [] (fun _ h => h) hread).afterClose hp fun _ => hread
    next => exact hw.afterClose hp fun _ => hread
  next => exact hw

variable [DecidableEq H]

theorem Inv.finishThread (p : Chunk) (ctxDone : Bool) :
    Inv hash ulid streamID (finishThread hash p ctxDone w) := by
  unfold Backfill.finishThread
  split
  next hth =>
    have hp : p ∈ w.pending := hw.threads_pending p (by rw [hth]; simp)
    have hend := hw.endThread p
    split
    next => exact hend
    next =>
      have hsub : ∀ q ∈ removeChunk hash w.pending p, q ∈ w.pending := fun q hq =>
        (mem_filter.1 hq).1
      -- the hash removes no other chunk
      have hkeep : ∀ q ∈ w.pending, q ≠ p → q ∈ removeChunk hash w.pending p := by
        intro q hq hne
        exact mem_filter.2 ⟨hq, decide_eq_true fun heq => hne (hw.eq_of_name hw.hash_apart hq hp heq)⟩
      refine { hend with
        pending_forms := fun q hq => hend.pending_forms q (hsub q hq)
        pending_unique := fun c hc q hq q' hq' => hend.pending_unique c hc q (hsub q hq) q' (hsub q' hq')
        threads_pending := fun q hq => hkeep q (hend.threads_pending q hq) ?_
        settled := fun c hc => ?_ }
      · rintro rfl
        exact hq (by simp [Backfill.endThread])
      · rcases hw.settled c hc with ⟨q, hq, hqc⟩ | hread
        · by_cases h : q = p
          · subst h
            exact .inr (hw.done_read c hc q hqc (.inr hth))
          · exact .inl ⟨q, hkeep q hq h, hqc⟩
        · exact .inr hread
  next => exact hw

/-- The next process finds the pending chunks in their loaded form. -/
theorem Inv.mem_restart (q : Chunk) : q ∈ (restart hash w).pending ↔ ∃ p ∈ w.pending, p.reload = q := by
  refine mem_NewSet_reload hash (fun p hp q hq heq => ?_) q
  obtain ⟨c, hc, hpc⟩ := hw.pending_forms p hp
  obtain ⟨d, hd, hqd⟩ := hw.pending_forms q hq
  have hcd := hw.hash_apart c hc d hd _ (Chunk.reload_mem_forms hpc) _
    (Chunk.reload_mem_forms hqd) heq
  rw [hw.pending_unique c hc p hp q hq hpc (hcd ▸ hqd)]

theorem Inv.restart : Inv hash ulid streamID (restart hash w) := by
  have hmem := hw.mem_restart
  refine ⟨hw.ids_apart, hw.hash_apart, ?_, ?_, fun _ h => absurd rfl h, hw.ids_read, ?_, ?_⟩
  · intro q hq
    obtain ⟨p, hp, rfl⟩ := (hmem q).1 hq
    obtain ⟨c, hc, hpc⟩ := hw.pending_forms p hp
    exact ⟨c, hc, Chunk.reload_mem_forms hpc⟩
  · intro c hc q hq q' hq' hqc hqc'
    obtain ⟨p, hp, rfl⟩ := (hmem q).1 hq
    obtain ⟨p', hp', rfl⟩ := (hmem q').1 hq'
    rw [hw.pending_unique c hc p hp p' hp' (hw.mem_forms_of_reload hc hp hqc)
      (hw.mem_forms_of_reload hc hp' hqc')]
  · rintro c hc q hqc (h | h) <;> cases h
  · intro c hc
    rcases hw.settled c hc with ⟨p, hp, hpc⟩ | hread
    · exact .inl ⟨p.reload, (hmem _).2 ⟨p, hp, rfl⟩, Chunk.reload_mem_forms hpc⟩
    · exact .inr hread

theorem Inv.start (hhash : Apart hash chunks) (hids : Apart (Chunk.threadID ulid streamID) chunks)
    (hnew : ∀ c ∈ chunks, ∀ p ∈ c.forms, p.threadID ulid streamID ∉ w.ids) :
    Inv hash ulid streamID (start hash chunks table w) := by
  unfold Backfill.start
  split
  next =>
    have hmem : ∀ q, q ∈ NewSet hash chunks ↔ q ∈ chunks := by
      refine fun q => mem_NewSet hash (fun c hc d hd => ?_) q
      exact hhash c hc d hd c c.self_mem_forms d d.self_mem_forms
    refine ⟨hids, hhash, ?_, ?_, fun _ h => absurd rfl h, ?_, ?_, ?_⟩
    · exact fun p hp => ⟨p, (hmem p).1 hp, p.self_mem_forms⟩
    · intro c hc p hp q hq hpc hqc
      rw [← hids.eq hc ((hmem p).1 hp) hpc p.self_mem_forms,
        ← hids.eq hc ((hmem q).1 hq) hqc q.self_mem_forms]
    · exact fun c hc p hpc hid => absurd hid (hnew c hc p hpc)
    · rintro c hc q hqc (h | h) <;> cases h
    · exact fun c hc => .inl ⟨c, (hmem c).2 hc, c.self_mem_forms⟩
  next => exact hw

theorem Inv.step (a : Action Row) (hhash : HashApart hash a w) (hnew : NewIDs ulid streamID a w) :
    Inv hash ulid streamID (step dest hash ulid streamID a w) := by
  cases a with
  | create c => exact hw.openThread c
  | fail c => exact hw.endThread c
  | close c rows outcome => exact hw.closeThread c rows outcome
  | finish c ctxDone => exact hw.finishThread c ctxDone
  | restart => exact hw.restart
  | start chunks table => exact hw.start hhash hnew.1 hnew.2

omit hw

/-! ### No rows twice -/

/-- The batches that put rows of the chunk into the table. -/
def writes (w : World Row) (c : Chunk) : List (Batch Row) :=
  w.batches.filter fun b => !b.rows.isEmpty && decide (b.chunk ∈ c.forms)

variable (dest ulid streamID) in
/-- The list names every chunk that is still pending and has rows in the table, or its
thread is about to remove it; a thread that reads is not on the list, and no chunk has
been written twice. -/
structure Tight (w : World Row) : Prop where
  written : ∀ c ∈ w.chunks, ∀ p ∈ w.pending, p ∈ c.forms → writes w c ≠ [] →
    p.threadID ulid streamID ∈ w.ids ∨ dest = .parquetLocal ∧ w.threads p = some .closed
  reading : ∀ p, w.threads p = some .reading → p.threadID ulid streamID ∉ w.ids
  once : ∀ c ∈ w.chunks, (writes w c).length ≤ 1

variable (Row) in
theorem afterClose_eq (p : Chunk) (outcome : CloseOutcome) : ∃ phase : Option Phase,
    phase ≠ some .reading ∧ (outcome = .committed → phase = some .closed) ∧ ∀ w : World Row,
      afterClose p outcome w = { w with threads := Function.update w.threads p phase } := by
  unfold afterClose
  split
  · exact ⟨some .closed, by simp, fun _ => rfl, fun _ => rfl⟩
  · rename_i hne
    exact ⟨none, by simp, fun h => absurd h hne, fun _ => rfl⟩

variable (ht : Tight dest ulid streamID w)
include ht

theorem Tight.setThread (hphase : phase = some .reading → p.threadID ulid streamID ∉ w.ids)
    (hclosed : dest = .parquetLocal → w.threads p ≠ some .closed) :
    Tight dest ulid streamID { w with threads := Function.update w.threads p phase } where
  written c hc q hq hqc hne := by
    refine (ht.written c hc q hq hqc hne).imp_right fun ⟨hlocal, hq⟩ => ⟨hlocal, ?_⟩
    have hqp : q ≠ p := fun h => hclosed hlocal (h ▸ hq)
    simpa [hqp] using hq
  reading q hq := by
    by_cases h : q = p
    · subst h
      exact hphase (by simpa using hq)
    · exact ht.reading q (by simpa [h] using hq)
  once := ht.once

theorem Tight.openThread (p : Chunk) : Tight dest ulid streamID (openThread ulid streamID p w) := by
  unfold Backfill.openThread
  split
  next hopen =>
    refine ht.setThread ?_ (by simp [hopen.2])
    split
    next => nofun
    next hid => exact fun _ => hid
  next => exact ht

theorem Tight.finishThread (p : Chunk) (ctxDone : Bool)
    (hdone : dest = .parquetLocal → w.threads p = some .closed → ctxDone = false) :
    Tight dest ulid streamID (finishThread hash p ctxDone w) := by
  unfold Backfill.finishThread
  split
  next hth =>
    split
    next hctx => exact ht.setThread nofun fun hlocal _ => by simp [hdone hlocal hth] at hctx
    next =>
      refine ⟨fun c hc q hq hqc hne => ?_, fun q hq => ?_, ht.once⟩
      · obtain ⟨hq, hhash⟩ := mem_filter.1 hq
        have hqp : q ≠ p := by
          rintro rfl
          simp at hhash
        exact (ht.written c hc q hq hqc hne).imp_right fun ⟨hlocal, hq⟩ =>
          ⟨hlocal, by simpa [Backfill.endThread, hqp] using hq⟩
      · have hqp : q ≠ p := by
          rintro rfl
          simp [Backfill.endThread] at hq
        exact ht.reading q (by simpa [Backfill.endThread, hqp] using hq)
  next => exact ht

theorem Tight.start (chunks : List Chunk) (table : Source × Source → List Row) :
    Tight dest ulid streamID (start hash chunks table w) := by
  unfold Backfill.start
  split
  next => exact ⟨fun _ _ _ _ _ h => absurd rfl h, fun _ h => (by cases h),
      fun _ _ => Nat.zero_le 1⟩
  next => exact ht

include hw

omit [DecidableEq H] in
/-- No thread that goes on reading is on the list after the commit of another. -/
theorem Tight.still_reading (hp : p ∈ w.pending) (hphase : phase ≠ some .reading)
    (rows : List Row) : ∀ q, Function.update w.threads p phase q = some .reading →
      q.threadID ulid streamID ∉ recordID dest (p.threadID ulid streamID) rows w.ids := by
  intro q hq hid
  have hne : q ≠ p := by
    rintro rfl
    exact hphase (by simpa using hq)
  have hq' : w.threads q = some .reading := by simpa [hne] using hq
  rcases mem_recordID.1 hid with hid | ⟨hid, -⟩
  · exact ht.reading q hq' hid
  · exact hne (hw.eq_of_name hw.ids_apart (hw.threads_pending q (by rw [hq']; simp)) hp hid)

omit [DecidableEq H] in
theorem Tight.commit (hreading : w.threads p = some .reading) (rows : List Row)
    (hphase : phase ≠ some .reading)
    (hclosed : dest = .parquetLocal → rows ≠ [] → phase = some .closed) : Tight dest ulid streamID
      { w with
        ids := recordID dest (p.threadID ulid streamID) rows w.ids
        batches := w.batches ++ [{ chunk := p, rows := rows }]
        threads := Function.update w.threads p phase } := by
  have hp : p ∈ w.pending := hw.threads_pending p (by rw [hreading]; simp)
  have hwrites : ∀ c, writes { w with batches := w.batches ++ [Batch.mk p rows] } c =
      writes w c ++ [Batch.mk p rows].filter
        fun b => !b.rows.isEmpty && decide (b.chunk ∈ c.forms) := fun c =>
    filter_append ..
  -- nothing of the chunk was written before, or its ID would be on the list
  have hfirst : ∀ c ∈ w.chunks, p ∈ c.forms → writes w c = [] := by
    intro c hc hpc
    by_contra hne
    rcases ht.written c hc p hp hpc hne with hid | ⟨-, hth⟩
    · exact ht.reading p hreading hid
    · rw [hreading] at hth
      cases hth
  refine ⟨?_, ht.still_reading hw hp hphase rows, ?_⟩
  · intro c hc q hq hqc hne
    by_cases hpc : p ∈ c.forms
    · obtain rfl := hw.pending_unique c hc q hq p hp hqc hpc
      have hrows : rows ≠ [] := fun hrows =>
        hne ((hwrites c).trans (by simp [hfirst c hc hpc, hrows]))
      by_cases hlocal : dest = .parquetLocal
      · exact .inr ⟨hlocal, by simp [hclosed hlocal hrows]⟩
      · exact .inl (mem_recordID.2 (.inr ⟨rfl, hlocal, fun _ => hrows⟩))
    · have hqp : q ≠ p := fun h => hpc (h ▸ hqc)
      refine (ht.written c hc q hq hqc fun hnil => hne ?_).imp (fun hid => mem_recordID.2 (.inl hid))
        fun ⟨hlocal, hth⟩ => ⟨hlocal, by simpa [hqp] using hth⟩
      exact (hwrites c).trans (by simp [hnil, hpc])
  · intro c hc
    show (writes { w with batches := w.batches ++ [Batch.mk p rows] } c).length ≤ 1
    rw [hwrites, length_append]
    by_cases hpc : p ∈ c.forms
    · rw [hfirst c hc hpc, length_nil, Nat.zero_add]
      exact length_filter_le _ _
    · simpa [hpc] using ht.once c hc

omit [DecidableEq H] in
theorem Tight.closeThread (p : Chunk) (rows : List Row) (outcome : CloseOutcome)
    (houtcome : dest = .parquetLocal →
      w.threads p = some .reading → rows ≠ [] → outcome ≠ .committedErr) :
    Tight dest ulid streamID (closeThread dest ulid streamID p rows outcome w) := by
  obtain ⟨phase, hphase, hclosed, heq⟩ := afterClose_eq Row p outcome
  unfold Backfill.closeThread
  simp only [heq]
  split
  next hth =>
    split
    next hdur =>
      refine ht.commit hw hth rows hphase fun hlocal hrows => hclosed ?_
      have hne := houtcome hlocal hth hrows
      cases outcome with
      | committed => rfl
      | committedErr => exact absurd rfl hne
      | failed => cases hdur
    next => exact ht.setThread (fun h => absurd h hphase) (by simp [hth])
  next hth =>
    have hp : p ∈ w.pending := hw.threads_pending p (by rw [hth]; simp)
    have hset := ht.setThread (p := p) (fun h => absurd h hphase) (by simp [hth])
    split
    next =>
      exact ⟨fun c hc q hq hqc hne =>
          (hset.written c hc q hq hqc hne).imp_left fun hid => mem_recordID.2 (.inl hid),
        ht.still_reading hw hp hphase [], ht.once⟩
    next => exact hset
  next => exact ht

theorem Tight.restart
    (hstable : ∀ p ∈ w.pending, p.threadID ulid streamID ∈ w.ids → p.min.Stable ∧ p.max.Stable)
    (hclosed : dest = .parquetLocal → ∀ p ∈ w.pending, w.threads p ≠ some .closed) :
    Tight dest ulid streamID (restart hash w) := by
  refine ⟨?_, nofun, ht.once⟩
  intro c hc q hq hqc hne
  obtain ⟨p, hp, rfl⟩ := (hw.mem_restart q).1 hq
  have hid := (ht.written c hc p hp (hw.mem_forms_of_reload hc hp hqc) hne).resolve_right
    fun h => hclosed h.1 p hp h.2
  refine .inl ?_
  rw [Chunk.threadID_reload.2 (hstable p hp hid)]
  exact hid

theorem Tight.step (a : Action Row) (hstable : StableRestart ulid streamID a w)
    (hremoves : dest = .parquetLocal → RemovesCommitted a w) :
    Tight dest ulid streamID (step dest hash ulid streamID a w) := by
  cases a with
  | create c => exact ht.openThread c
  | fail c => exact ht.setThread nofun hremoves
  | close c rows outcome => exact ht.closeThread hw c rows outcome hremoves
  | finish c ctxDone => exact ht.finishThread c ctxDone hremoves
  | restart => exact ht.restart hw hstable hremoves
  | start chunks table => exact ht.start chunks table

end Runs

end Backfill

end Olake
