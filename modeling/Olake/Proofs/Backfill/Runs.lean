/-
What a backfill reads and commits, over every run.

`Threads.lean` carries the two invariants from step to step.  Here they are read
off at the end of a run, for the two questions a backfill has to answer: whether
the chunks that left the state are committed, each once, and whether the rows of
the table at the time it started have all been read by it.
-/
import Olake.Proofs.Backfill.Threads

namespace Olake.Backfill

open Machine Utf8

variable {Row H : Type} (dest : Destination) (hash : Chunk → H)
  (ulid streamID : Bytes) (ids : List Bytes)

/-- The stream before its first backfill; the destination may know IDs. -/
def idle : World Row where
  chunks := []
  table _ := []
  pending := []
  ids := ids
  batches := []
  threads _ := none

theorem Inv.idle : Inv hash ulid streamID (idle ids : World Row) := by
  constructor <;> simp [Backfill.idle, Apart]

variable [DecidableEq H]

theorem Tight.idle : Tight dest ulid streamID (idle ids : World Row) := by
  constructor <;> simp [Backfill.idle]

section Decide

variable [DecidableEq Row] (a : Action Row) (w : World Row)

instance : Decidable (HashApart hash a w) := by
  unfold HashApart Apart
  split <;> infer_instance

instance : Decidable (NewIDs ulid streamID a w) := by
  unfold NewIDs Apart
  split <;> infer_instance

instance : Decidable (RemovesCommitted a w) := by
  unfold RemovesCommitted
  split <;> infer_instance

instance : Decidable (StableRestart ulid streamID a w) := by
  unfold StableRestart
  split <;> infer_instance

end Decide

/-! ### Each chunk once -/

/-- What is assumed of `ChunkIterator`: it hands over the rows of the chunk. -/
def ReadsChunk : Action Row → World Row → Prop
  | .close c rows _, w => w.threads c = some .reading → ∀ r ∈ w.table c.source, r ∈ rows
  | _, _ => True

/-- A process restarts only while the state file can hold the pending bounds. -/
def ExactRestart : Action Row → World Row → Prop
  | .restart, w => ∀ p ∈ w.pending, p.min.source.Exact ∧ p.max.source.Exact
  | _, _ => True

instance [DecidableEq Row] (a : Action Row) (w : World Row) : Decidable (ReadsChunk a w) := by
  unfold ReadsChunk
  split <;> infer_instance

instance (a : Action Row) (w : World Row) : Decidable (ExactRestart a w) := by
  unfold ExactRestart
  split <;> infer_instance

/-- The pending chunks have the bounds they were split with, and every batch holds
the rows of its chunk. -/
structure Faithful (w : World Row) : Prop where
  pending : ∀ c ∈ w.chunks, ∀ p ∈ w.pending, p ∈ c.forms → p.source = c.source
  batches : ∀ c ∈ w.chunks, ∀ b ∈ w.batches, b.chunk ∈ c.forms → ∀ r ∈ w.table c.source, r ∈ b.rows

variable {dest hash ulid streamID} {w : World Row}

theorem Faithful.congr (hw : Faithful w) (hc : w'.chunks = w.chunks)
    (ht : w'.table = w.table) (hp : ∀ p ∈ w'.pending, p ∈ w.pending)
    (hb : w'.batches = w.batches) : Faithful w' := by
  refine ⟨?_, ?_⟩
  · rw [hc]
    exact fun c hc p hp' => hw.pending c hc p (hp p hp')
  · rw [hc, hb, ht]
    exact hw.batches

theorem Faithful.commit (hw : Faithful w)
    (hp : p ∈ w.pending) (hrows : ∀ r ∈ w.table p.source, r ∈ rows) :
    Faithful { w with batches := w.batches ++ [{ chunk := p, rows := rows }] } := by
  refine ⟨hw.pending, ?_⟩
  intro c hc b hb hbc r hr
  rcases List.mem_append.1 hb with hb | hb
  · exact hw.batches c hc b hb hbc r hr
  · obtain rfl := List.mem_singleton.1 hb
    exact hrows r (hw.pending c hc p hp hbc ▸ hr)

theorem Faithful.afterClose (hw : Faithful w) (p : Chunk) (outcome : CloseOutcome) :
    Faithful (afterClose p outcome w) := by
  obtain ⟨phase, -, -, heq⟩ := afterClose_eq Row p outcome
  rw [heq w]
  exact hw.congr rfl rfl (fun _ h => h) rfl

omit [DecidableEq H] in
theorem Faithful.closeThread (hi : Inv hash ulid streamID w) (hw : Faithful w)
    (outcome : CloseOutcome)
    (hrows : w.threads p = some .reading → ∀ r ∈ w.table p.source, r ∈ rows) :
    Faithful (closeThread dest ulid streamID p rows outcome w) := by
  unfold Backfill.closeThread
  split
  next hth =>
    have hp : p ∈ w.pending := hi.threads_pending p (by rw [hth]; simp)
    refine Faithful.afterClose ?_ p outcome
    split
    next => exact (hw.commit hp (hrows hth)).congr rfl rfl (fun _ h => h) rfl
    next => exact hw
  next =>
    refine Faithful.afterClose ?_ p outcome
    split
    next => exact hw.congr rfl rfl (fun _ h => h) rfl
    next => exact hw
  next => exact hw

theorem Faithful.finishThread (hw : Faithful w) (p : Chunk) (ctxDone : Bool) :
    Faithful (finishThread hash p ctxDone w) := by
  unfold Backfill.finishThread
  split
  next =>
    split
    next => exact hw.congr rfl rfl (fun _ h => h) rfl
    next => exact hw.congr rfl rfl (fun _ h => (List.mem_filter.1 h).1) rfl
  next => exact hw

theorem Faithful.restart (hi : Inv hash ulid streamID w) (hw : Faithful w)
    (hexact : ∀ p ∈ w.pending, p.min.source.Exact ∧ p.max.source.Exact) :
    Faithful (restart hash w) := by
  refine ⟨?_, hw.batches⟩
  intro c hc q hq hqc
  obtain ⟨p, hp, rfl⟩ := (hi.mem_restart q).1 hq
  exact (Chunk.source_reload.2 (hexact p hp)).trans
    (hw.pending c hc p hp (hi.mem_forms_of_reload hc hp hqc))

theorem Faithful.start (hw : Faithful w)
    (table : Source × Source → List Row) (hhash : Apart hash chunks)
    (hids : Apart (Chunk.threadID ulid streamID) chunks) :
    Faithful (start hash chunks table w) := by
  unfold Backfill.start
  split
  next =>
    refine ⟨?_, fun _ _ _ h => by cases h⟩
    intro c hc p hp hpc
    have hmem : p ∈ chunks := by
      refine (mem_NewSet hash (fun c hc d hd => ?_) p).1 hp
      exact hhash c hc d hd c c.self_mem_forms d d.self_mem_forms
    rw [hids.eq hc hmem hpc p.self_mem_forms]
  next => exact hw

theorem Faithful.step (a : Action Row) (hi : Inv hash ulid streamID w) (hw : Faithful w)
    (hhash : HashApart hash a w) (hreads : ReadsChunk a w) (hnew : NewIDs ulid streamID a w)
    (hexact : ExactRestart a w) : Faithful (step dest hash ulid streamID a w) := by
  cases a with
  | create c =>
    show Faithful (Backfill.openThread ulid streamID c w)
    unfold Backfill.openThread
    split
    · exact hw.congr rfl rfl (fun _ h => h) rfl
    · exact hw
  | fail c => exact hw.congr rfl rfl (fun _ h => h) rfl
  | close c rows outcome => exact hw.closeThread hi outcome hreads
  | finish c ctxDone => exact hw.finishThread c ctxDone
  | restart => exact hw.restart hi hexact
  | start chunks table => exact hw.start table hhash hnew.1

variable (dest hash ulid streamID)

/-- Every row of the table at the time the running backfill started has been read by
this backfill, or lies in a chunk that is still in the state: no chunk is passed
over for what an earlier backfill has committed. -/
def ReadsTable (w : World Row) : Prop :=
  ∀ c ∈ w.chunks, (∃ p ∈ w.pending, p ∈ c.forms) ∨
    ∀ r ∈ w.table c.source, ∃ b ∈ w.batches, r ∈ b.rows

/-- Over every run of backfills, each reads its whole table if its chunks start with
IDs the destination does not know. -/
theorem backfill_reads_table (actions : List (Action Row))
    (hrun : Along (step dest hash ulid streamID)
      (fun a w => HashApart hash a w ∧ ReadsChunk a w ∧ NewIDs ulid streamID a w ∧
        ExactRestart a w) actions (idle ids)) :
    ReadsTable (run (step dest hash ulid streamID) actions (idle ids)) := by
  have h := run_inv (I := fun w : World Row => Inv hash ulid streamID w ∧ Faithful w)
    (fun a w hw hok =>
      ⟨hw.1.step a hok.1 hok.2.2.1, hw.2.step a hw.1 hok.1 hok.2.1 hok.2.2.1 hok.2.2.2⟩)
    ⟨Inv.idle hash ulid streamID ids, nofun, nofun⟩ hrun
  intro c hc
  refine (h.1.settled c hc).imp_right ?_
  rintro ⟨b, hb, hbc⟩ r hr
  exact ⟨b, hb, h.2.batches c hc b hb hbc r hr⟩

/-- The one chunk of a small Postgres table. -/
def pages : Chunk :=
  { min := .value (.str (ascii "'(0,0)'")), max := .value (.str (ascii "'(100,0)'")) }

def wholeBackfill (rows : List Nat) : List (Action Nat) :=
  [.start [pages] (fun _ => rows), .create pages, .close pages rows .committed,
    .finish pages false]

theorem backfill_reads_table_once :
    ReadsTable (run (step .parquetS3 id [] (ascii "public.orders")) (wholeBackfill [1, 2])
      (idle [])) :=
  backfill_reads_table .parquetS3 id [] (ascii "public.orders") [] (wholeBackfill [1, 2])
    (by decide)

/-- A second backfill of the table finds the ID of the first one's chunk and reads
nothing, not even the row that is new. -/
theorem second_backfill_skips :
    Along (step .parquetS3 id [] (ascii "public.orders"))
        (fun a w => HashApart id a w ∧ ReadsChunk a w ∧ ExactRestart a w)
        (wholeBackfill [1] ++ wholeBackfill [1, 2]) (idle []) ∧
      ¬ ReadsTable (run (step .parquetS3 id [] (ascii "public.orders"))
        (wholeBackfill [1] ++ wholeBackfill [1, 2]) (idle [])) := by
  refine ⟨by decide, fun h => ?_⟩
  have hread := h pages (by decide)
  revert hread
  decide

end Olake.Backfill
