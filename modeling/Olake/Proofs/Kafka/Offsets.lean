/-
What the offsets committed to the broker stand for.

The ledger beside the system lists the messages that were part of a batch whose
destination commit succeeded.  The invariant says that the committed offset of a
partition, and every offset in a table's metadata, has only such messages behind
it.  An attempt keeps it as long as it does not commit the last messages that an
earlier, failed attempt left in `checkpointMessage`: that happens when the attempt
reaches `PostCDC` on a live context without having processed a message itself.
-/
import Olake.Proofs.Kafka.Reader
import Olake.Proofs.StreamChanges

namespace Olake.Kafka

open List Option Relation.ReflTransGen

variable {S K R Row : Type}

/-! ### What is covered -/

/-- Every message of `p` before offset `o` is part of a committed batch. -/
def Covered (init : K → Nat) (settled : List (K × Nat)) (p : K) (o : Nat) : Prop :=
  ∀ k, init p ≤ k → k < o → (p, k) ∈ settled

structure Inv (streams : List S) (init : K → Nat) (w : World S K R)
    (dest : S → Table Row (Meta K)) (settled : List (K × Nat)) : Prop where
  known : ∀ p pm, w.partitionMeta p = some pm → pm.stream = w.streamOf p ∧ w.streamOf p ∈ streams
  closed : ∀ p k, (p, k) ∈ settled → Covered init settled p (k + 1)
  committed : ∀ p, Covered init settled p (startOf w p)
  tables : ∀ s m p o, (dest s).state = some m → m.offsets p = some o → Covered init settled p o

variable {streams : List S} {init : K → Nat} {w : World S K R} {dest : S → Table Row (Meta K)}
  {settled : List (K × Nat)}

theorem Covered.mono
    (h : Covered init settled p o) (batch : List (K × Nat)) : Covered init (batch ++ settled) p o :=
  fun k hk hlt => mem_append_right batch (h k hk hlt)

section Readers

variable [DecidableEq S]

theorem createReaders_known (hpm : (createReaders streams w).partitionMeta p = some pm) :
    pm.stream = w.streamOf p ∧ w.streamOf p ∈ streams := by
  simp only [createReaders] at hpm
  grind

theorem Inv.restart (h : Inv streams init w dest settled) :
    Inv streams init (createReaders streams w) dest settled :=
  ⟨fun _ _ hpm => createReaders_known hpm, h.closed, h.committed, h.tables⟩

theorem mergeState_offsets (h : mergeState Meta.merge current final = some m)
    (ho : m.offsets p = some o) : (∃ c, current = some c ∧ c.offsets p = some o) ∨
      ∃ f, final = some f ∧ f.offsets p = some o := by
  cases current <;> cases final <;> grind [mergeState, Meta.merge, or_eq_some_iff]

/-- An offset in a table's metadata after the writers were closed was there before,
or came with the commit of that table's writer. -/
theorem destAfter_offsets (h : (destAfter Meta.merge r outcome order dest s).state = some m)
    (ho : m.offsets p = some o) : (∃ c, (dest s).state = some c ∧ c.offsets p = some o) ∨
      (s ∈ order ∧ (outcome s).durable = true ∧ ∃ f, r.final s = some f ∧ f.offsets p = some o) := by
  rcases destAfter_cases Meta.merge r outcome order dest s with heq | ⟨hs, hrows, heq⟩
  · rw [heq] at h
    exact .inl ⟨m, h, ho⟩
  · rw [heq, commit_of_ne_nil _ _ hrows] at h
    exact (mergeState_offsets h ho).imp_right (fun hnew => ⟨hs.1, hs.2, hnew⟩)

end Readers

section Batches

variable [DecidableEq K]

/-- What `PostCDC` is about to commit for the reader is covered. -/
def Ready (init : K → Nat) (w : World S K R) (settled : List (K × Nat)) (r : R) : Prop :=
  ∀ last p o, w.checkpointMessage r = some last → last.lookup p = some o →
    Covered init settled p (o + 1)

theorem Inv.commitRecords (h : Inv streams init w dest settled) (c : Commit K)
    (hrec : ∀ p o, records.lookup p = some o → Covered init settled p o) :
    Inv streams init { w with committed := commitRecords w.committed c records } dest settled := by
  refine ⟨h.known, h.closed, fun p => ?_, h.tables⟩
  rcases startOf_commitRecords w c records p with heq | ⟨o, ho, heq⟩
  · rw [heq]
    exact h.committed p
  · rw [heq]
    exact hrec p o ho

/-- A reader that is stopped at once hands nothing over. -/
theorem pushed_idle (assigned : List K)
    (h : i.ticks.head? = some .pollTimeout ∨ i.ticks.head? = some (.exit false)) :
    (consume i w assigned).1.pushed = [] := by
  unfold consume
  cases hticks : i.ticks with
  | nil => rfl
  | cons t ticks =>
    simp only [hticks, head?_cons, some.injEq] at h
    rcases h with rfl | rfl
    · rfl
    · rfl

theorem Inv.batch_covers (h : Inv streams init w dest settled) (hread : ReadFrom w (startOf w) s)
    (hbatch : ∀ k, (p, k) ∈ s.messages → (p, k) ∈ batch) :
    Covered init (batch ++ settled) p (s.position p) := by
  intro k hk hlt
  by_cases hstart : k < startOf w p
  · exact mem_append_right _ (h.committed p k hk hstart)
  · have hmem : (p, k) ∈ s.messages := (hread.messages p k).2 ⟨Nat.le_of_not_lt hstart, hlt⟩
    exact mem_append_left _ (hbatch k hmem)

variable [DecidableEq R]

/-- `PostCDC` does nothing, or commits behind the last messages of the reader. -/
theorem PostCDC_cases (i : Input K R Row) (w : World S K R) :
    (PostCDC i false w).1 = w ∨ ∃ records checkpoints,
      (∀ p o, records.lookup p = some o →
        ∃ last o', w.checkpointMessage i.reader = some last ∧ last.lookup p = some o' ∧ o' + 1 = o) ∧
      (PostCDC i false w).1 = { w with
        committed := Kafka.commitRecords w.committed i.postCommit records
        checkpointMessage := checkpoints } := by
  unfold PostCDC
  rw [if_neg (by simp)]
  cases hc : w.checkpointMessage i.reader with
  | none => exact .inl rfl
  | some last =>
    cases last with
    | nil => exact .inl rfl
    | cons m rest =>
      have hrec : ∀ p o, ((m :: rest).map (fun m => (m.1, m.2 + 1))).lookup p = some o →
          ∃ last o', some (m :: rest) = some last ∧ last.lookup p = some o' ∧ o' + 1 = o := by
        intro p o hl
        rw [lookup_next] at hl
        obtain ⟨o', hl', ho⟩ := map_eq_some_iff.1 hl
        exact ⟨_, o', rfl, hl', ho⟩
      cases i.postCommit.ok with
      | true | false => exact .inr ⟨_, _, hrec, rfl⟩

theorem Inv.post (h : Inv streams init w dest settled) (i : Input K R Row)
    (hready : Ready init w settled i.reader) :
    Inv streams init (PostCDC i false w).1 dest settled := by
  rcases PostCDC_cases i w with heq | ⟨records, checkpoints, hrec, heq⟩
  · rw [heq]
    exact h
  · have hinv := h.commitRecords i.postCommit (fun p o hl => by
      obtain ⟨last, o', hlast, hl', rfl⟩ := hrec p o hl
      exact hready last p o' hlast hl')
    rw [heq]
    exact ⟨hinv.known, hinv.closed, hinv.committed, hinv.tables⟩

end Batches

variable [DecidableEq S] [DecidableEq K]

theorem metadataOf_offsets (h : metadataOf w last s = some f) (ho : f.offsets p = some o) :
    w.streamOf p = s ∧ ∃ o', last.lookup p = some o' ∧ o' + 1 = o := by
  simp only [metadataOf] at h
  grind [map_eq_some_iff]

variable [DecidableEq R]

/-! ### The ledger -/

/-- The messages that `StreamChanges` processes. -/
def messagesRead (i : Input K R Row) (w : World S K R) (states : S → Option (Meta K)) :
    List (K × Nat) :=
  match i.assigned with
  | none => []
  | some assigned =>
    match recordsToCommit w states assigned with
    | some [] => if i.restartFails then [] else (consume i w assigned).1.messages
    | _ => []

variable {streams : List S}

/-- The messages of an attempt that are part of a committed batch: `StreamChanges`
succeeded, and the writer of the message's stream was closed and committed. -/
def committedBatch (a : Attempt streams (Input K R Row))
    (sys : System S K R Row) : List (K × Nat) :=
  if a.createFails.isNone ∧ (streamed (driver streams) a sys).exit = .ok then
    (messagesRead a.input sys.world sys.states).filter (fun m =>
      decide (sys.world.streamOf m.1 ∈ a.visited) && (a.outcome (sys.world.streamOf m.1)).durable)
  else []

/-- A system with the messages of all committed batches. -/
structure Ledger (S K R Row : Type) where
  sys : System S K R Row
  settled : List (K × Nat)

/-- A step of a sync, with what it adds to the committed batches. -/
inductive LedgerStep (streams : List S)
    (Allowed : Attempt streams (Input K R Row) → Ledger S K R Row → Prop) :
    Ledger S K R Row → Ledger S K R Row → Prop
  | attempt {L : Ledger S K R Row} (a : Attempt streams (Input K R Row)) (h : Allowed a L) :
      LedgerStep streams Allowed L
        ⟨streamChanges (driver streams) a L.sys, committedBatch a L.sys ++ L.settled⟩
  | restart {L : Ledger S K R Row} :
      LedgerStep streams Allowed L
        ⟨{ L.sys with world := createReaders streams L.sys.world }, L.settled⟩
  | source {L : Ledger S K R Row} {w : World S K R} (h : Grows L.sys.world w) :
      LedgerStep streams Allowed L ⟨{ L.sys with world := w }, L.settled⟩

def LedgerReaches (streams : List S)
    (Allowed : Attempt streams (Input K R Row) → Ledger S K R Row → Prop) :
    Ledger S K R Row → Ledger S K R Row → Prop :=
  Relation.ReflTransGen (LedgerStep streams Allowed)

/-- The first sync of these streams: no batch has been committed. -/
structure Initial (streams : List S) (L : Ledger S K R Row) : Prop where
  readers : ∃ w, L.sys.world = createReaders streams w
  tables : ∀ s, (L.sys.dest s).state = none
  settled : L.settled = []

/-! ### Which attempts are sound -/

/-- The reader still holds the last message of a batch that was not committed. -/
def Stale (L : Ledger S K R Row) (r : R) : Prop :=
  ∃ last p o, L.sys.world.checkpointMessage r = some last ∧ last.lookup p = some o ∧
    (p, o) ∉ L.settled

/-- The attempt closes every writer without an error on a live context. -/
def ClosesAll (a : Attempt streams (Input K R Row)) : Prop :=
  a.createFails = none ∧ a.diesAfter = none ∧ a.cancelled = false ∧
    ∀ s ∈ streams, a.outcome s = .committed

/-- The attempt gets to `PostCDC` on a live context without processing a message. -/
inductive NothingNew (a : Attempt streams (Input K R Row))
    (sys : System S K R Row) : Prop
  /-- A writer cannot be created. -/
  | notCreated (k : Fin streams.length) (h : a.createFails = some (k, false))
  /-- The offsets at the broker are recovered from the metadata. -/
  | recovered (h : ClosesAll a) (assigned : List K) (records : List (K × Nat))
      (ha : a.input.assigned = some assigned)
      (hr : recordsToCommit sys.world sys.states assigned = some records)
      (hne : records ≠ []) (hok : a.input.recoveryCommit.ok = true)
  /-- The first poll times out, or a rebalance asks the reader to stop first. -/
  | idle (h : ClosesAll a) (assigned : List K) (ha : a.input.assigned = some assigned)
      (hr : recordsToCommit sys.world sys.states assigned = some [])
      (hrestart : a.input.restartFails = false)
      (hticks : a.input.ticks.head? = some .pollTimeout ∨
        a.input.ticks.head? = some (.exit false))

/-- An attempt of a reader that still holds messages of an uncommitted batch
processes a message before it gets to `PostCDC`. -/
def SoundAttempt (a : Attempt streams (Input K R Row)) (L : Ledger S K R Row) : Prop :=
  Stale L a.input.reader → ¬ NothingNew a L.sys

/-! ### The ways StreamChanges ends -/

/-- What the driver returns when it consumes messages. -/
def consumed (i : Input K R Row) (w : World S K R) (assigned : List K) :
    Streamed (World S K R) S Row (Meta K) :=
  let c := consume i w assigned
  { world := if c.1.lastMessages = [] then w else
      { w with checkpointMessage :=
          Function.update w.checkpointMessage i.reader (some c.1.lastMessages) }
    pushed := c.1.pushed
    final := if c.2 = .ok then metadataOf w c.1.lastMessages else fun _ => none
    exit := c.2 }

inductive Streams (i : Input K R Row) (w : World S K R) (states : S → Option (Meta K)) :
    Streamed (World S K R) S Row (Meta K) → List (K × Nat) → Prop
  | failed : Streams i w states
      { world := w, pushed := [], final := fun _ => none, exit := .err } []
  | recovered (assigned : List K) (ha : i.assigned = some assigned) (records : List (K × Nat))
      (hr : recordsToCommit w states assigned = some records) (hne : records ≠ []) :
      Streams i w states
        { world := { w with committed := commitRecords w.committed i.recoveryCommit records }
          pushed := [], final := fun _ => none
          exit := if i.recoveryCommit.ok then .ok else .err } []
  | read (assigned : List K) (ha : i.assigned = some assigned)
      (hr : recordsToCommit w states assigned = some [])
      (hrestart : i.restartFails = false) :
      Streams i w states (consumed i w assigned) (consume i w assigned).1.messages

theorem StreamChanges_streams (i : Input K R Row) (w : World S K R) (states : S → Option (Meta K)) :
    Streams i w states (StreamChanges i w states) (messagesRead i w states) := by
  unfold StreamChanges messagesRead
  cases ha : i.assigned with
  | none => exact .failed
  | some assigned =>
    cases hr : recordsToCommit w states assigned with
    | none =>
      simp only [hr]
      exact .failed
    | some records =>
      cases records with
      | nil =>
        simp only [hr]
        cases hrestart : i.restartFails with
        | true => exact .failed
        | false => exact .read assigned ha hr hrestart
      | cons m rest =>
        simp only [hr]
        exact .recovered assigned ha _ hr (cons_ne_nil m rest)

theorem streamed_streams (a : Attempt streams (Input K R Row))
    (sys : System S K R Row) : Streams a.input sys.world sys.states
      (streamed (driver streams) a sys) (messagesRead a.input sys.world sys.states) :=
  StreamChanges_streams a.input sys.world _

/-- An attempt that closes all its writers has processed no message, or the reader holds the
last of those it has read. -/
theorem Streams.held {sys : System S K R Row}
    (hst : Streams a.input sys.world sys.states r messages) (hall : ClosesAll a) (hok : r.exit = .ok) :
    (NothingNew a sys ∧ r.pushed = [] ∧ ∃ committed, r.world = { sys.world with committed := committed }) ∨
      ∃ assigned, a.input.assigned = some assigned ∧
        recordsToCommit sys.world sys.states assigned = some [] ∧
        (consume a.input sys.world assigned).1.lastMessages ≠ [] ∧
        r = consumed a.input sys.world assigned ∧
        messages = (consume a.input sys.world assigned).1.messages := by
  cases hst with
  | failed => cases hok
  | recovered assigned hassigned records hrec hne =>
    have hcommit : a.input.recoveryCommit.ok = true := by
      by_contra hno
      simp only [if_neg hno] at hok
      cases hok
    exact .inl ⟨.recovered hall assigned records hassigned hrec hne hcommit, rfl, _, rfl⟩
  | read assigned hassigned hrec hrestart =>
    by_cases hlast : (consume a.input sys.world assigned).1.lastMessages = []
    · have hidle := consume_idle hok hlast
      exact .inl ⟨.idle hall assigned hassigned hrec hrestart hidle, pushed_idle assigned hidle, _,
        if_pos hlast⟩
    · exact .inr ⟨assigned, hassigned, hrec, hlast, rfl, rfl⟩

/-- The process never dies inside `PostCDC`, and on a done context nothing happens. -/
theorem runPostCDC_driver (i : Input K R Row) (done : Bool) (w : World S K R) :
    runPostCDC (driver streams) i done w = (PostCDC i done w).1 := by
  have hexit : (PostCDC i done w).2 ≠ .killed := by
    unfold PostCDC
    repeat' split
    all_goals simp
  exact if_neg hexit

theorem runPostCDC_done (i : Input K R Row) (w : World S K R) :
    runPostCDC (driver streams) i true w = w := by
  rfl

/-! ### Streaming -/

/-- Before anything is committed at the destination, streaming keeps the invariant. -/
theorem Inv.streamed (h : Inv streams init w dest settled)
    (hr : Streams i w (fun s => (dest s).state) r messages) : Inv streams init r.world dest settled := by
  cases hr with
  | failed => exact h
  | recovered assigned ha records hrec hne =>
    apply h.commitRecords
    intro p o hl
    obtain ⟨pm, m, -, hm, ho⟩ := recordsToCommit_lookup w _ assigned records p o hrec hl
    exact h.tables pm.stream m p o hm ho
  | read assigned ha hrec hrestart =>
    simp only [consumed]
    split
    · exact h
    · exact ⟨h.known, h.closed, h.committed, h.tables⟩

/-! ### Steps -/

section Attempts

variable {L : Ledger S K R Row}

def Ledger.Holds (streams : List S) (init : K → Nat) (L : Ledger S K R Row) : Prop :=
  Inv streams init L.sys.world L.sys.dest L.settled

omit [DecidableEq K] [DecidableEq R] in
theorem Initial.holds (h : Initial streams L) : L.Holds streams (startOf L.sys.world) := by
  obtain ⟨w, hw⟩ := h.readers
  have hnil : Inv streams (startOf w) (createReaders streams w) L.sys.dest [] := by
    refine ⟨?_, ?_, ?_, ?_⟩
    · intro p pm hpm
      exact createReaders_known hpm
    · nofun
    · intro p k hk hlt
      exact absurd hlt (Nat.not_lt.2 hk)
    · intro s m p o hs
      rw [h.tables s] at hs
      cases hs
  unfold Ledger.Holds
  rw [hw, h.settled]
  exact hnil

variable {a : Attempt streams (Input K R Row)}

theorem mem_committedBatch (hc : a.createFails = none)
    (hok : (streamed (driver streams) a L.sys).exit = .ok) (p : K) (k : Nat) : (p, k)
    ∈ committedBatch a L.sys ↔
      (p, k) ∈ messagesRead a.input L.sys.world L.sys.states ∧
        L.sys.world.streamOf p ∈ a.visited ∧
        (a.outcome (L.sys.world.streamOf p)).durable = true := by
  unfold committedBatch
  rw [if_pos ⟨by rw [hc]; rfl, hok⟩, mem_filter]
  simp only [Bool.and_eq_true, decide_eq_true_eq]

theorem committedBatch_of_fails
    (h : a.createFails ≠ none ∨ (streamed (driver streams) a L.sys).exit ≠ .ok) :
    committedBatch a L.sys = [] := by
  apply if_neg
  rintro ⟨hc, hok⟩
  rcases h with h | h
  · exact h (isNone_iff_eq_none.1 hc)
  · exact h hok

variable (h : L.Holds streams init)
include h

/-- The writers that commit, commit the batch together with offsets it covers. -/
theorem Ledger.Holds.close (hc : a.createFails = none)
    (hok : (streamed (driver streams) a L.sys).exit = .ok) :
    Inv streams init (streamed (driver streams) a L.sys).world
      (destAfter Meta.merge (streamed (driver streams) a L.sys) a.outcome a.visited L.sys.dest)
      (committedBatch a L.sys ++ L.settled) := by
  have hmem := mem_committedBatch hc hok
  have hst := streamed_streams a L.sys
  have hinv := Inv.streamed h hst
  generalize streamed (driver streams) a L.sys = r at *
  generalize messagesRead a.input L.sys.world L.sys.states = messages at *
  generalize committedBatch a L.sys = batch at *
  cases hst with
  | failed => cases hok
  | recovered assigned ha records hrec hne =>
    -- no message was read, and no writer has a row
    have hbatch : batch = [] := by
      apply eq_nil_iff_forall_not_mem.2
      rintro ⟨p, k⟩ hpk
      cases ((hmem p k).1 hpk).1
    have hdest : ∀ r : Streamed (World S K R) S Row (Meta K), r.pushed = [] →
        destAfter Meta.merge r a.outcome a.visited L.sys.dest = L.sys.dest := by
      intro r hpushed
      funext s
      simp [destAfter, hpushed]
    rw [hbatch, hdest _ rfl]
    exact hinv
  | read assigned ha hrec hrestart =>
    have hread := consume_read a.input L.sys.world assigned
    have hcov : ∀ p, L.sys.world.streamOf p ∈ a.visited →
        (a.outcome (L.sys.world.streamOf p)).durable = true →
        Covered init (batch ++ L.settled) p ((consume a.input L.sys.world assigned).1.position p) :=
      fun p hv hd => Inv.batch_covers h hread (fun k hk => (hmem p k).2 ⟨hk, hv, hd⟩)
    refine ⟨hinv.known, ?_, fun p => (hinv.committed p).mono batch, ?_⟩
    · intro p k hpk
      rcases mem_append.1 hpk with hpk | hpk
      · obtain ⟨hm, hv, hd⟩ := (hmem p k).1 hpk
        have hlt := ((hread.messages p k).1 hm).2
        intro k' hk' hlt'
        exact hcov p hv hd k' hk' (by omega)
      · exact (h.closed p k hpk).mono batch
    · intro s m p o hm ho
      rcases destAfter_offsets hm ho with ⟨c, hc', ho'⟩ | ⟨hv, hd, f, hf, ho'⟩
      · exact (h.tables s c p o hc' ho').mono batch
      · have hexit : (consume a.input L.sys.world assigned).2 = .ok := hok
        simp only [consumed, hexit] at hf
        obtain ⟨rfl, o', hl, rfl⟩ := metadataOf_offsets hf ho'
        rw [← hread.last p o' hl]
        exact hcov p hv hd

omit [DecidableEq S] [DecidableEq R] in
theorem Ledger.Holds.ready (hst : ¬ Stale L r) : Ready init L.sys.world L.settled r := by
  intro last p o hlast hl
  have hmem : (p, o) ∈ L.settled := by
    by_contra hout
    exact hst ⟨last, p, o, hlast, hl, hout⟩
  exact h.closed p o hmem

/-- What the reader holds after an attempt that committed everything is covered. -/
theorem Ledger.Holds.ready_saved (ha : SoundAttempt a L)
    (hall : ClosesAll a) (hok : (streamed (driver streams) a L.sys).exit = .ok) :
    Ready init (streamed (driver streams) a L.sys).world (committedBatch a L.sys ++ L.settled)
      a.input.reader := by
  have hmem := mem_committedBatch hall.1 hok
  rcases (streamed_streams a L.sys).held hall hok with
    ⟨hnew, -, committed, hworld⟩ | ⟨assigned, -, -, hlast, heq, hmessages⟩
  · intro last p o hheld hl
    rw [hworld] at hheld
    exact (h.ready (fun hs => ha hs hnew) last p o hheld hl).mono _
  · have hread := consume_read a.input L.sys.world assigned
    rw [heq]
    simp only [consumed, if_neg hlast]
    intro last p o hheld hl
    simp only [Function.update_self] at hheld
    rw [← some.inj hheld] at hl
    -- the partition's stream is selected, so its writer has committed
    rw [← hread.last p o hl]
    apply Inv.batch_covers h hread
    intro k hk
    obtain ⟨pm, hpm⟩ := hread.known p k hk
    have hsel := (h.known p pm hpm).2
    refine (hmem p k).2 ⟨hmessages ▸ hk, ?_, ?_⟩
    · simp only [Attempt.visited, hall.2.1]
      exact (a.mem_order _).2 hsel
    · rw [hall.2.2.2 _ hsel]
      rfl

theorem Ledger.Holds.attempt (a : Attempt streams (Input K R Row)) (ha : SoundAttempt a L) :
    Ledger.Holds streams init
      ⟨streamChanges (driver streams) a L.sys, committedBatch a L.sys ++ L.settled⟩ := by
  have hended := streamChanges_attempted (driver streams) a L.sys
  have hworld : Inv streams init (streamed (driver streams) a L.sys).world L.sys.dest L.settled :=
    Inv.streamed h (streamed_streams a L.sys)
  generalize streamChanges (driver streams) a L.sys = sys' at hended ⊢
  cases hended with
  | notCreated k done hc =>
    rw [committedBatch_of_fails (.inl (by rw [hc]; simp)), nil_append]
    cases done with
    | true =>
      rw [runPostCDC_done]
      exact h
    | false =>
      rw [runPostCDC_driver]
      exact Inv.post h a.input (h.ready (fun hs => ha hs (.notCreated k hc)))
  | notStreamed hc hr w hw =>
    rw [committedBatch_of_fails (.inr hr), nil_append]
    rcases hw with rfl | rfl
    · exact hworld.restart
    · rw [runPostCDC_done]
      exact hworld
  | notSaved hc hr w hw =>
    have hclose := h.close hc hr
    rcases hw with rfl | rfl
    · exact hclose.restart
    · rw [runPostCDC_done]
      exact hclose
  | saved hc hr hd hcancel hall =>
    have hclose := h.close hc hr
    have hvisited : ∀ s, s ∈ a.visited ↔ s ∈ streams := by
      intro s
      simp only [Attempt.visited, hd]
      exact a.mem_order s
    rw [destAfter_congr _ _ _ _ hvisited] at hclose
    rw [runPostCDC_driver]
    exact hclose.post a.input (h.ready_saved ha ⟨hc, hd, hcancel, hall⟩ hr)

theorem Ledger.Holds.step
    (hstep : LedgerStep streams SoundAttempt L L') : L'.Holds streams init := by
  cases hstep with
  | attempt a ha => exact h.attempt a ha
  | restart => exact Inv.restart h
  | source hw =>
    obtain ⟨e, he, rfl⟩ := hw
    exact ⟨h.known, h.closed, h.committed, h.tables⟩

theorem Ledger.Holds.reaches
    (hrun : LedgerReaches streams SoundAttempt L L') : L'.Holds streams init := by
  induction hrun with
  | refl => exact h
  | tail _ hstep ih => exact ih.step hstep

omit h

/-- **A committed offset has only committed messages behind it**, in every state of
every run whose attempts are sound. -/
theorem committed_offset_covered {L₀ : Ledger S K R Row} (h₀ : Initial streams L₀)
    (hrun : LedgerReaches streams SoundAttempt L₀ L) (p : K) (o : Nat)
    (hp : L.sys.world.committed p = some o) (k : Nat) (hstart : startOf L₀.sys.world p ≤ k)
    (hk : k < o) : (p, k) ∈ L.settled := by
  have hinv := h₀.holds.reaches hrun
  apply hinv.committed p k hstart
  simp only [startOf, hp]
  exact hk

end Attempts

/-! ### A topic with two messages -/

/-- One stream, whose topic has one partition with two messages and no committed
offset. -/
def twoMessages : Ledger Unit Unit Unit Nat where
  sys :=
    { world := createReaders [()]
        { streamOf := fun _ => (), endOffset := fun _ => 2, committed := fun _ => none
          consumerGroupID := "olake", partitionMeta := fun _ => none
          checkpointMessage := fun _ => none }
      dest := fun _ => { rows := [], state := none } }
  settled := []

/-- An attempt of the only reader in which nothing but the poll and the close of
the writer is decided from outside. -/
def pollWith (ticks : List (Tick Unit Nat)) (outcome : CloseOutcome) :
    Attempt [()] (Input Unit Unit Nat) where
  input :=
    { reader := (), assigned := some [()], recoveryCommit := ⟨true, fun _ => true⟩
      restartFails := false, ticks := ticks, postCommit := ⟨true, fun _ => true⟩ }
  outcome := fun _ => outcome

/-- Both messages are read, and the writer does not commit them. -/
def notCommitted : Attempt [()] (Input Unit Unit Nat) :=
  pollWith [.record () [1], .record () [2]] .failed

def bothCommitted : Attempt [()] (Input Unit Unit Nat) :=
  pollWith [.record () [1], .record () [2]] .committed

def Ledger.after (L : Ledger Unit Unit Unit Nat) (a : Attempt [()] (Input Unit Unit Nat)) :
    Ledger Unit Unit Unit Nat :=
  ⟨streamChanges (driver [()]) a L.sys, committedBatch a L.sys ++ L.settled⟩

/-- The retry of a failed attempt polls nothing, and `PostCDC` commits the last
messages of the failed attempt: neither message is at the destination. -/
theorem stale_offset_committed :
    ∃ L, LedgerReaches [()] (fun _ _ => True) twoMessages L ∧
      L.sys.world.committed () = some 2 ∧ L.settled = [] ∧ (L.sys.dest ()).rows = [] := by
  refine ⟨(twoMessages.after notCommitted).after (pollWith [.pollTimeout] .committed), ?_, ?_⟩
  · exact (single (.attempt notCommitted trivial)).tail
      (.attempt (pollWith [.pollTimeout] .committed) trivial)
  · decide

/-- A retry that reads the messages again is sound, although the reader still holds
the ones that were not committed. -/
theorem committed_offset_covered_after_retry :
    Stale (twoMessages.after notCommitted) () ∧
      ((twoMessages.after notCommitted).after bothCommitted).sys.world.committed () = some 2 ∧
      ((), 1) ∈ ((twoMessages.after notCommitted).after bothCommitted).settled := by
  have hfirst : SoundAttempt notCommitted twoMessages := by
    rintro ⟨last, p, o, hlast, _⟩
    cases hlast
  have hretry : SoundAttempt bothCommitted (twoMessages.after notCommitted) := by
    rintro _ (⟨_, h⟩ | ⟨_, assigned, records, ha, hr, hne, _⟩ | ⟨_, _, _, _, _, h | h⟩)
    · cases h
    · -- there is no metadata yet to recover from
      cases ha
      exact hne (some.inj hr).symm
    · cases h
    · cases h
  refine ⟨⟨[((), 1)], (), 1, rfl, rfl, not_mem_nil⟩, by decide, ?_⟩
  exact committed_offset_covered ⟨⟨_, rfl⟩, fun _ => rfl, rfl⟩
    ((single (.attempt notCommitted hfirst)).tail
      (.attempt bothCommitted hretry)) () 2 (by decide) 1 (by decide) (by decide)

end Olake.Kafka
