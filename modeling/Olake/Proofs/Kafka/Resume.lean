/-
Whether the next Kafka sync starts.

A sync refuses to start when the broker's committed offset of a partition is ahead of
the offset that the destination's metadata records for it.  The broker's offset moves
with every message that is consumed, the metadata only with a commit that has rows.
The broker stays behind as long as no reader commits, to the broker alone, messages
of a partition the metadata knows of: because none of them led to a row, or because
they were left over from an attempt that failed.
-/
import Olake.Proofs.Kafka.Offsets

namespace Olake.Kafka

open List Option Relation.ReflTransGen

variable {S K R Row : Type}

/-! ### Why a sync refuses to start -/

/-- The broker's committed offset of `p` is ahead of the one in the metadata. -/
def BrokerAhead (w : World S K R) (states : S → Option (Meta K)) (p : K) : Prop :=
  ∃ pm m mo c, w.partitionMeta p = some pm ∧ states pm.stream = some m ∧
    m.offsets p = some mo ∧ pm.committedOffset = some c ∧ mo < c

/-- A broker that is ahead in one assigned partition stops the sync. -/
theorem BrokerAhead.refuses (h : BrokerAhead w states p) (hp : p ∈ assigned) :
    recordsToCommit w states assigned = none := by
  obtain ⟨pm, m, mo, c, hpm, hm, ho, hc, hlt⟩ := h
  fun_induction recordsToCommit w states assigned <;> grind

/-! ### What a reader receives -/

section Received

variable [DecidableEq K] {w : World S K R} {streams : List S}

def startProgress (w : World S K R) : Progress S K Row where
  position := startOf w
  lastMessages := []
  completed := []
  pushed := []
  messages := []

/-- The messages that come to the loop, with the rows they lead to. -/
def received (w : World S K R) (assigned : List K) :
    List (Tick K Row) → Progress S K Row → List (K × List Row)
  | .record p rows :: ticks, s =>
    match w.partitionMeta p with
    | none => []
    | some pm =>
      (p, rows) ::
        if (processRecord w assigned pm p rows s).2 then []
        else received w assigned ticks (processRecord w assigned pm p rows s).1
  | _, _ => []

variable (hknown : ∀ p pm, w.partitionMeta p = some pm →
  pm.stream = w.streamOf p ∧ w.streamOf p ∈ streams)

/-- The last messages are of known partitions that a message came from. -/
theorem last_of_received (assigned : List K) (ticks : List (Tick K Row)) (s : Progress S K Row)
    (h : (processKafkaMessages w assigned ticks s).1.lastMessages.lookup p = some o) :
    s.lastMessages.lookup p = some o ∨
      (∃ pm, w.partitionMeta p = some pm) ∧ ∃ rows, (p, rows) ∈ received w assigned ticks s := by
  fun_induction processKafkaMessages w assigned ticks s with
  | case8 q rows ticks s pm hpm s' heq =>
    have hset := congrArg (fun r => r.1.lastMessages.lookup p) heq
    simp only [processRecord, lookup_setLast] at hset
    by_cases hpq : p = q
    · subst hpq
      exact .inr ⟨⟨pm, hpm⟩, rows, by simp [received, hpm]⟩
    · exact .inl ((if_neg hpq).symm.trans (hset.trans h))
  | case9 q rows ticks s pm hpm s' stop heq hgo ih =>
    have hset := congrArg (fun r => r.1.lastMessages.lookup p) heq
    simp only [processRecord, lookup_setLast] at hset
    by_cases hpq : p = q
    · subst hpq
      exact .inr ⟨⟨pm, hpm⟩, rows, by simp [received, hpm]⟩
    · rw [if_neg hpq] at hset
      rcases ih h with h | ⟨hp, rows', h⟩
      · exact .inl (hset.trans h)
      · exact .inr ⟨hp, rows', by simp [received, hpm, heq, hgo, h]⟩
  | _ => exact .inl h

include hknown in
/-- The rows handed over are those of the messages received. -/
theorem pushed_received (assigned : List K) (ticks : List (Tick K Row)) (s : Progress S K Row) :
    (processKafkaMessages w assigned ticks s).1.pushed = s.pushed ++
      (received w assigned ticks s).flatMap (fun m => m.2.map (fun r => (w.streamOf m.1, r))) := by
  fun_induction processKafkaMessages w assigned ticks s with
  | case7 p rows ticks s hpm => simp [received, hpm]
  | case8 p rows ticks s pm hpm s' heq =>
    have hpushed := congrArg (fun r => r.1.pushed) heq
    simp only [processRecord, (hknown p pm hpm).1] at hpushed
    simp [received, hpm, heq, hpushed]
  | case9 p rows ticks s pm hpm s' stop heq hgo ih =>
    have hpushed := congrArg (fun r => r.1.pushed) heq
    simp only [processRecord, (hknown p pm hpm).1] at hpushed
    simp [received, hpm, heq, ← hpushed, hgo, ih]
  | _ => simp [received]

variable [DecidableEq S]

include hknown in
theorem rowsFor_received (hmem : (p, rows) ∈ received w assigned ticks (startProgress w))
    (hne : rows ≠ []) : rowsFor (w.streamOf p)
      (processKafkaMessages w assigned ticks (startProgress w)).1.pushed ≠ [] := by
  obtain ⟨r, hr⟩ := exists_mem_of_ne_nil rows hne
  have hpair : (w.streamOf p, r) ∈
      (processKafkaMessages w assigned ticks (startProgress w)).1.pushed := by
    rw [pushed_received hknown]
    apply mem_append_right
    exact mem_flatMap.2 ⟨(p, rows), hmem, mem_map.2 ⟨r, hr, rfl⟩⟩
  apply ne_nil_of_mem
  exact mem_filterMap.2 ⟨_, hpair, if_pos rfl⟩

end Received

/-! ### The broker stays behind -/

variable [DecidableEq S] [DecidableEq K] [DecidableEq R]

/-- Of every partition the metadata knows of, the broker is not ahead. -/
structure Behind (streams : List S) (w : World S K R) (dest : S → Table Row (Meta K)) : Prop where
  known : ∀ p pm, w.partitionMeta p = some pm → pm.stream = w.streamOf p ∧ w.streamOf p ∈ streams
  offsets : ∀ p m mo c, (dest (w.streamOf p)).state = some m → m.offsets p = some mo →
    w.committed p = some c → c ≤ mo

/-- What the reader is about to commit is not ahead of the metadata. -/
def ReadyBehind (w : World S K R) (dest : S → Table Row (Meta K)) (r : R) : Prop :=
  ∀ last p o m mo, w.checkpointMessage r = some last → last.lookup p = some o →
    (dest (w.streamOf p)).state = some m → m.offsets p = some mo → o + 1 ≤ mo

section Step

variable {streams : List S} {w : World S K R} {dest : S → Table Row (Meta K)}

omit [DecidableEq S] [DecidableEq R] in
/-- Committing offsets that are not ahead of the metadata leaves the broker behind. -/
theorem Behind.commitRecords (h : Behind streams w dest) (c : Commit K)
    (hrec : ∀ p o m mo, records.lookup p = some o → (dest (w.streamOf p)).state = some m →
      m.offsets p = some mo → o ≤ mo) :
    Behind streams { w with committed := commitRecords w.committed c records } dest := by
  refine ⟨h.known, ?_⟩
  intro p m mo c' hm ho hc
  simp only [Kafka.commitRecords] at hc
  cases hl : records.lookup p with
  | none =>
    simp only [hl] at hc
    exact h.offsets p m mo c' hm ho hc
  | some o =>
    simp only [hl] at hc
    split at hc
    · rw [← some.inj hc]
      exact hrec p o m mo hl hm ho
    · exact h.offsets p m mo c' hm ho hc

omit [DecidableEq K] [DecidableEq R] in
theorem Behind.restart (h : Behind streams w dest) : Behind streams (createReaders streams w) dest :=
  ⟨fun _ _ hpm => createReaders_known hpm, h.offsets⟩

omit [DecidableEq S] in
theorem Behind.post (h : Behind streams w dest) (i : Input K R Row)
    (hready : ReadyBehind w dest i.reader) : Behind streams (PostCDC i false w).1 dest := by
  rcases PostCDC_cases i w with heq | ⟨records, checkpoints, hrec, heq⟩
  · rw [heq]
    exact h
  · have hbehind := h.commitRecords i.postCommit (fun p o m mo hl hm ho => by
      obtain ⟨last, o', hlast, hl', rfl⟩ := hrec p o hl
      exact hready last p o' m mo hlast hl' hm ho)
    rw [heq]
    exact ⟨hbehind.known, hbehind.offsets⟩

omit [DecidableEq K] [DecidableEq R] in
/-- In a process that starts where the broker is behind, no partition is ahead. -/
theorem Behind.not_ahead (h : Behind streams w dest) (p : K) :
    ¬ BrokerAhead (createReaders streams w) (fun s => (dest s).state) p := by
  rintro ⟨pm, m, mo, c, hpm, hm, ho, hc, hlt⟩
  have hstream := (createReaders_known hpm).1
  have hcommitted : w.committed p = some c := by
    simp only [createReaders] at hpm
    grind
  rw [hstream] at hm
  have hle := h.offsets p m mo c hm ho hcommitted
  omega

end Step

/-! ### Which attempts leave the broker behind -/

/-- The metadata of the partition's stream has an offset for it. -/
def Recorded (sys : System S K R Row) (p : K) : Prop :=
  ∃ m mo, (sys.dest (sys.world.streamOf p)).state = some m ∧ m.offsets p = some mo

/-- An attempt that comes to `PostCDC` with messages of a recorded partition has a
row for the partition's stream. -/
def WritesRows {streams : List S} (a : Attempt streams (Input K R Row))
    (sys : System S K R Row) : Prop :=
  ∀ assigned, ClosesAll a → (streamed (driver streams) a sys).exit = .ok →
    a.input.assigned = some assigned →
    recordsToCommit sys.world sys.states assigned = some [] →
    ∀ p rows, (p, rows) ∈ received sys.world assigned a.input.ticks (startProgress sys.world) →
      Recorded sys p →
      ∃ q rows', (q, rows') ∈ received sys.world assigned a.input.ticks (startProgress sys.world) ∧
        sys.world.streamOf q = sys.world.streamOf p ∧ rows' ≠ []

/-- An attempt that processes no message does not commit the messages of an attempt
that failed. -/
def LeavesFailed {streams : List S} (a : Attempt streams (Input K R Row))
    (sys : System S K R Row) : Prop :=
  NothingNew a sys → ReadyBehind sys.world sys.dest a.input.reader

/-- The attempts that leave the broker behind the metadata. -/
def KeepsBehind {streams : List S} (a : Attempt streams (Input K R Row))
    (sys : System S K R Row) : Prop :=
  WritesRows a sys ∧ LeavesFailed a sys

section Attempts

variable {streams : List S} {sys : System S K R Row}

/-- Before anything is committed at the destination, streaming leaves the broker behind. -/
theorem Behind.reading (h : Behind streams w dest) {r : Streamed (World S K R) S Row (Meta K)}
    (hr : Streams i w (fun s => (dest s).state) r messages) : Behind streams r.world dest := by
  cases hr with
  | failed => exact h
  | recovered assigned ha records hrec hne =>
    apply h.commitRecords
    intro p o m mo hl hm ho
    -- recovery commits the recorded offset itself
    obtain ⟨pm, m', hpm, hm', ho'⟩ := recordsToCommit_lookup w _ assigned records p o hrec hl
    rw [(h.known p pm hpm).1] at hm'
    rw [some.inj (hm'.symm.trans hm)] at ho'
    exact Nat.le_of_eq (some.inj (ho'.symm.trans ho))
  | read assigned ha hrec hrestart =>
    simp only [consumed]
    split
    · exact h
    · exact ⟨h.known, h.offsets⟩

/-- What the writers commit only raises the recorded offsets. -/
theorem Behind.close (h : Behind streams sys.world sys.dest) (a : Attempt streams (Input K R Row))
    (order : List S) :
    Behind streams (streamed (driver streams) a sys).world
      (destAfter Meta.merge (streamed (driver streams) a sys) a.outcome order sys.dest) := by
  have hst := streamed_streams a sys
  have hbehind := h.reading hst
  generalize streamed (driver streams) a sys = r at *
  generalize messagesRead a.input sys.world sys.states = messages at hst
  refine ⟨hbehind.known, ?_⟩
  intro p m mo c hm ho hc
  rcases destAfter_offsets hm ho with ⟨m', hm', ho'⟩ | ⟨_, _, f, hf, ho'⟩
  · exact hbehind.offsets p m' mo c hm' ho' hc
  · cases hst with
    | failed | recovered => cases hf
    | read assigned ha hrec hrestart =>
      have hread := consume_read a.input sys.world assigned
      simp only [consumed] at hf
      split at hf
      · obtain ⟨-, o, hl, rfl⟩ := metadataOf_offsets hf ho'
        -- the last message is not before the offset consumption began at
        have hcommitted : sys.world.committed p = some c := by
          simp only [consumed] at hc
          split at hc
          · exact hc
          · exact hc
        have hstart : startOf sys.world p = c := by simp only [startOf, hcommitted, getD_some]
        have hpos := hread.position p
        rw [hread.last p o hl, hstart] at hpos
        exact hpos
      · cases hf

omit [DecidableEq R] in
/-- A partition that was read has its new offset in the metadata of its stream. -/
theorem merged_offsets (w : World S K R) (hl : last.lookup p = some o) (current : Option (Meta K)) :
    ∃ m, mergeState Meta.merge current (metadataOf w last (w.streamOf p)) = some m ∧
      m.offsets p = some (o + 1) := by
  have hany : last.any (fun m => decide (w.streamOf m.1 = w.streamOf p)) = true := by
    obtain ⟨l, l', rfl, _⟩ := lookup_eq_some_iff.1 hl
    simp
  unfold metadataOf
  rw [if_pos hany]
  cases current with
  | none => exact ⟨_, rfl, by simp [hl]⟩
  | some c => exact ⟨_, rfl, by simp [Meta.merge, hl]⟩

/-- After an attempt that closes every writer, what the reader is about to commit is
not ahead of the metadata. -/
theorem Behind.ready_saved (h : Behind streams sys.world sys.dest)
    {a : Attempt streams (Input K R Row)} (ha : KeepsBehind a sys) (hall : ClosesAll a)
    (hok : (streamed (driver streams) a sys).exit = .ok) :
    ReadyBehind (streamed (driver streams) a sys).world
      (destAfter Meta.merge (streamed (driver streams) a sys) a.outcome streams sys.dest)
      a.input.reader := by
  rcases (streamed_streams a sys).held hall hok with
    ⟨hnew, hnil, committed, hworld⟩ | ⟨assigned, hassigned, hrec, hlast, heq, -⟩
  · intro last p o m mo hheld hl hm ho
    rw [hworld] at hheld hm
    rw [destAfter_of_rows_nil _ (by rw [hnil, rowsFor_nil])] at hm
    exact ha.2 hnew last p o m mo hheld hl hm ho
  · have hwrites := ha.1 assigned hall hok hassigned hrec
    rw [heq] at hok ⊢
    have hexit : (consume a.input sys.world assigned).2 = .ok := hok
    intro last p o m mo hheld hl hm ho
    simp only [consumed, if_neg hlast, Function.update_self] at hheld hm
    rw [← some.inj hheld] at hl
    rcases last_of_received assigned a.input.ticks (startProgress sys.world) hl with
      hstart | ⟨⟨pm, hpm⟩, rows, hmem⟩
    · cases hstart
    by_cases hrows : rowsFor (sys.world.streamOf p)
        (consume a.input sys.world assigned).1.pushed = []
    · -- without a row the offset was recorded before, and then there is a row
      rw [destAfter_of_rows_nil _ hrows] at hm
      obtain ⟨q, rows', hq, hstream, hne⟩ := hwrites p rows hmem ⟨m, mo, hm, ho⟩
      have hfor := rowsFor_received h.known hq hne
      rw [hstream] at hfor
      exact absurd hrows hfor
    · obtain ⟨m', hm', ho'⟩ := merged_offsets sys.world hl
        (sys.dest (sys.world.streamOf p)).state
      have hsel := (h.known p pm hpm).2
      have hdurable : (a.outcome (sys.world.streamOf p)).durable = true := by
        rw [hall.2.2.2 _ hsel]
        rfl
      simp only [destAfter, if_pos (And.intro hsel hdurable), commit_of_ne_nil _ _ hrows,
        if_pos hexit, hm'] at hm
      rw [← some.inj hm, ho'] at ho
      exact Nat.le_of_eq (some.inj ho)

theorem Behind.attempt (h : Behind streams sys.world sys.dest) (a : Attempt streams (Input K R Row))
    (ha : KeepsBehind a sys) :
    Behind streams (streamChanges (driver streams) a sys).world
      (streamChanges (driver streams) a sys).dest := by
  have hended := streamChanges_attempted (driver streams) a sys
  have hworld : Behind streams (streamed (driver streams) a sys).world sys.dest :=
    h.reading (streamed_streams a sys)
  generalize streamChanges (driver streams) a sys = sys' at hended ⊢
  cases hended with
  | notCreated k done hc =>
    cases done with
    | true =>
      rw [runPostCDC_done]
      exact h
    | false =>
      rw [runPostCDC_driver]
      exact h.post a.input (ha.2 (.notCreated k hc))
  | notStreamed hc hr w hw =>
    rcases hw with rfl | rfl
    · exact hworld.restart
    · rw [runPostCDC_done]
      exact hworld
  | notSaved hc hr w hw =>
    have hclose := h.close a a.visited
    rcases hw with rfl | rfl
    · exact hclose.restart
    · rw [runPostCDC_done]
      exact hclose
  | saved hc hr hd hcancel hall =>
    rw [runPostCDC_driver]
    exact (h.close a streams).post a.input (h.ready_saved ha ⟨hc, hd, hcancel, hall⟩ hr)

theorem Behind.reaches (h : Behind streams sys.world sys.dest)
    (hrun : Reaches (driver streams) streams Grows KeepsBehind sys sys') :
    Behind streams sys'.world sys'.dest := by
  refine Reaches.keeps (I := fun t => Behind streams t.world t.dest) hrun h (fun a h ha => ?_)
    (fun h => ?_) (fun h hw => ?_)
  · exact h.attempt a ha
  · exact h.restart
  · obtain ⟨e, he, rfl⟩ := hw
    exact ⟨h.known, h.offsets⟩

/-- **The next sync is not refused over the broker's offsets**, in every state of
every run whose attempts write rows for the recorded partitions they read and leave
the messages of failed attempts alone. -/
theorem broker_never_ahead {sys₀ : System S K R Row}
    (hreaders : ∃ w, sys₀.world = createReaders streams w)
    (htables : ∀ s, (sys₀.dest s).state = none)
    (hrun : Reaches (driver streams) streams Grows KeepsBehind sys₀ sys) (p : K) :
    ¬ BrokerAhead (createReaders streams sys.world) (fun s => (sys.dest s).state) p := by
  have hstart : Behind streams sys₀.world sys₀.dest := by
    obtain ⟨w, hw⟩ := hreaders
    rw [hw]
    refine ⟨fun p pm hpm => createReaders_known hpm, ?_⟩
    intro p m mo c hm
    rw [htables] at hm
    cases hm
  exact (hstart.reaches hrun).not_ahead p

end Attempts

/-! ### A topic that gets a message after each sync -/

/-- A new process after the topic has grown to `n` messages. -/
def nextSync (n : Nat) (sys : System Unit Unit Unit Nat) : System Unit Unit Unit Nat :=
  { sys with world := createReaders [()] { sys.world with endOffset := fun _ => n } }

theorem reaches_nextSync (hn : sys.world.endOffset () ≤ n) :
    Reaches (driver [()]) [()] Grows Allowed sys (nextSync n sys) :=
  (single (.source ⟨fun _ => n, fun _ => hn, rfl⟩)).tail .restart

/-- The first sync commits both messages; then there is a third. -/
def thirdMessage : System Unit Unit Unit Nat :=
  nextSync 3 (streamChanges (driver [()]) bothCommitted twoMessages.sys)

/-- The third message is consumed; then there is a fourth. -/
def fourthMessage (rows : List Nat) : System Unit Unit Unit Nat :=
  nextSync 4 (streamChanges (driver [()]) (pollWith [.record () rows] .committed) thirdMessage)

/-- When the third message cannot be parsed, it is committed to the broker and not
to the metadata, and the sync after it refuses to start. -/
theorem unparseable_message_refuses :
    ∃ sys, Reaches (driver [()]) [()] Grows (fun _ _ => True) twoMessages.sys sys ∧
      BrokerAhead (createReaders [()] sys.world) (fun s => (sys.dest s).state) () ∧
      recordsToCommit (createReaders [()] sys.world) (fun s => (sys.dest s).state) [()] = none := by
  have hahead : BrokerAhead (createReaders [()] (fourthMessage []).world)
      (fun s => ((fourthMessage []).dest s).state) () :=
    ⟨⟨(), 4, some 3⟩, _, 2, 3, rfl, rfl, by decide, rfl, by decide⟩
  refine ⟨fourthMessage [], ?_, hahead, hahead.refuses mem_cons_self⟩
  have hfirst : Reaches (driver [()]) [()] Grows (fun _ _ => True) twoMessages.sys thirdMessage :=
    (single (.attempt bothCommitted trivial)).trans
      (reaches_nextSync (by decide))
  exact (hfirst.tail (.attempt (pollWith [.record () []] .committed) trivial)).trans
    (reaches_nextSync (by decide))

/-- With a row in the third message the sync after it starts. -/
theorem broker_never_ahead_with_rows :
    (fourthMessage [3]).world.committed () = some 3 ∧
      ¬ BrokerAhead (createReaders [()] (fourthMessage [3]).world)
        (fun s => ((fourthMessage [3]).dest s).state) () := by
  have hfirst : KeepsBehind bothCommitted twoMessages.sys := by
    refine ⟨?_, ?_⟩
    · intro assigned _ _ _ _ p rows _ hrec
      obtain ⟨m, mo, hm, -⟩ := hrec
      cases hm
    · nofun
  have hsecond : KeepsBehind (pollWith [.record () [3]] .committed) thirdMessage := by
    refine ⟨?_, ?_⟩
    · intro assigned _ _ _ _ p rows _ _
      exact ⟨(), [3], mem_cons_self, rfl, cons_ne_nil 3 []⟩
    · nofun
  have hthird : Reaches (driver [()]) [()] Grows KeepsBehind twoMessages.sys thirdMessage :=
    (single (.attempt bothCommitted hfirst)).trans
      (reaches_nextSync (by decide))
  refine ⟨by decide, ?_⟩
  exact broker_never_ahead ⟨_, rfl⟩ (fun _ => rfl)
    ((hthird.tail (.attempt (pollWith [.record () [3]] .committed) hsecond)).trans
      (reaches_nextSync (by decide))) ()

end Olake.Kafka
