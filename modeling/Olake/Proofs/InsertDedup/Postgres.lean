/-
Postgres: the insert-dedup flag of a stream.

The driver reads forward: the server sends what was committed behind the slot's position,
which never goes back, and streams whose tables are ahead of the state file are left out.
A pass ends at the server's position, at the position it recovers to, or where the
connection ends with EOF, which the reader takes for a regular end.
-/
import Olake.Proofs.InsertDedup.Flag
import Olake.Proofs.Postgres.Resume

namespace Olake.Postgres

open List

variable {S Row : Type}

/-- Every row carries the end of its transaction. -/
def Stamped (lsnOf : Row → LSN) (b : Wal S Row) : Prop :=
  ∀ t ∈ b.txns, ∀ c ∈ t.changes, lsnOf c.2 = t.endLSN

/-- The server has written more, with stamped rows. -/
def StampedGrows (lsnOf : Row → LSN) (w w' : World S Row) : Prop :=
  Grows w w' ∧ Stamped lsnOf w'.wal

variable [DecidableEq S] {streams : List S}

/-! ### Reading forward -/

variable {filter : List S}

/-- The reader receives the change, as the next message. -/
def Takes (filter : List S) (receive : Receive) (r : Reader S Row) (c : S × Row) : Prop :=
  receive = .data false ∧ c.1 ∈ filter ∧ ∃ xld queue, r.queue = xld :: queue ∧ xld.msg = .change c.1 c.2

/-- A receive that goes on takes from the queue, and pushes nothing but what it takes. -/
theorem receiveMessage_sent (h : receiveMessage filter receive r = .goesOn r') :
    (∀ xld ∈ r'.queue, xld ∈ r.queue) ∧
      ∀ c ∈ r'.pushed, c ∈ r.pushed ∨ Takes filter receive r c := by
  have hreceived := receiveMessage_received filter receive r
  rw [h] at hreceived
  cases hreceived with
  | nothing | keepalive => exact ⟨fun _ h => h, fun _ h => .inl h⟩
  | @next xld queue hq =>
    obtain ⟨x, msg⟩ := xld
    rw [hq]
    cases msg with
    | begin | commit | other => exact ⟨fun _ h => mem_cons_of_mem _ h, fun _ h => .inl h⟩
    | change s row =>
      refine ⟨fun _ h => mem_cons_of_mem _ h, fun c hc => ?_⟩
      rcases mem_append.1 hc with hc | hc
      · exact .inl hc
      · split at hc
        · next hs =>
          rw [mem_singleton.1 hc]
          exact .inr ⟨rfl, hs, _, queue, hq, rfl⟩
        · cases hc

variable {P : Receive → Reader S Row → Prop}

/-- However a pass ends, what it has pushed was received where `P` holds. -/
theorem Runs.taken (h : Runs filter target events r out) (halong : Along filter target P events r)
    (hc : c ∈ out.reader.pushed) : c ∈ r.pushed ∨ ∃ receive r', P receive r' ∧
      Takes filter receive r' c ∧ ∀ xld ∈ r'.queue, xld ∈ r.queue := by
  induction h with
  | killed | cancelled | reached | eof => exact .inl hc
  | fails _ hpushed => exact .inl (hpushed ▸ hc)
  | @reads e r _ _ _ hturn hrec hgo _ _ ih =>
    obtain ⟨hqueue, hpushed⟩ := receiveMessage_sent hgo
    rcases ih ((AlongTurns.goesOn hturn).1 halong).2 hc with hc | ⟨receive, r'', hP, htakes, hsub⟩
    · exact (hpushed c hc).imp_right fun htakes =>
        ⟨e.receive, r, halong.1 hrec, htakes, fun _ hx => hx⟩
    · exact .inr ⟨receive, r'', hP, htakes, fun xld hx => hqueue xld (hsub xld hx)⟩

theorem Along.trivial (events : List Event) (r : Reader S Row) :
    Along filter target (fun _ _ => True) events r := by
  induction events generalizing r with
  | nil => exact True.intro
  | cons e events ih =>
    refine ⟨fun _ => True.intro, ?_⟩
    split
    · exact ih _
    · exact True.intro

omit [DecidableEq S] in
/-- A change that is sent to a reader belongs to a transaction behind its start. -/
theorem mem_messagesAfter {b : Wal S Row}
    (hx : xld ∈ b.messagesAfter p) (hmsg : xld.msg = .change s r) :
    ∃ t ∈ Log.after Txn.endLSN p b.txns, (s, r) ∈ t.changes := by
  obtain ⟨t, ht, hmem⟩ := mem_flatMap.1 hx
  refine ⟨t, ht, ?_⟩
  rcases mem_cons.1 hmem with rfl | hmem
  · cases hmsg
  rcases mem_append.1 hmem with hmem | hmem
  · obtain ⟨⟨x, change⟩, hb, rfl⟩ := mem_map.1 hmem
    cases change with
    | none => cases hmsg
    | some c =>
      obtain ⟨rfl, rfl⟩ : c.1 = s ∧ c.2 = r := by simpa [bodyMessage] using hmsg
      exact mem_filterMap.2 ⟨(x, some c), hb, rfl⟩
  · rw [mem_singleton.1 hmem] at hmsg
    cases hmsg

/-- What a call pushes was committed behind the slot, and is of a stream whose table is
not ahead of the state file. -/
theorem StreamChanges_behind {i : Input streams} (hr : (s, r) ∈ (StreamChanges i w states).pushed) :
    s ∈ streams ∧ (∀ m, states s = some m → m ≤ w.saved) ∧
      ∃ t ∈ Log.after Txn.endLSN w.slot w.wal.txns, (s, r) ∈ t.changes := by
  have hpass : (s, r) ∈ (passOf i w states).reader.pushed := by
    unfold StreamChanges at hr
    dsimp only at hr
    split at hr
    · cases hr
    split at hr
    · cases hr
    split at hr
    · cases hr
    split at hr
    · exact hr
    · exact hr
  rcases (pgoutputStreamChanges_runs _ _ _ _).taken (Along.trivial i.events w.reader) hpass with
    hnil | ⟨receive, r', -, ⟨-, hs, xld, queue, hq, hmsg⟩, hsub⟩
  · cases hnil
  · have hx := hsub xld (by rw [hq]; exact mem_cons_self)
    obtain ⟨hstream, hahead⟩ := mem_remainingOf.1 hs
    refine ⟨hstream, fun m hm => ?_, mem_messagesAfter hx hmsg⟩
    by_contra hlt
    exact hahead ⟨m, hm, not_le.1 hlt⟩

theorem slot_le_runPostCDC (i : Input streams) (done : Bool) (w : World S Row) :
    w.slot ≤ (runPostCDC driver i done w).slot := by
  cases done with
  | true =>
    obtain ⟨replicator, hpost, -⟩ := runPostCDC_nothing i true (w := w) (.inl rfl)
    rw [hpost]
  | false =>
    cases hrep : w.replicator with
    | none => simp [runPostCDC, driver, PostCDC, hrep]
    | some socket =>
      obtain ⟨x, conn⟩ := socket
      rw [runPostCDC_eq i hrep]
      rcases (AcknowledgeLSN_cases i.ack ⟨x, conn⟩ w.slot).1 with heq | ⟨heq, -⟩
      · exact le_of_eq heq.symm
      · exact le_of_le_of_eq (le_max_left _ _) heq.symm

structure Forward (streams : List S) (lsnOf : Row → LSN) (sys : System S Row) : Prop where
  aligned : Aligned streams sys
  stamped : Stamped lsnOf sys.world.wal

theorem readsForward (streams : List S) (lsnOf : Row → LSN) :
    ReadsForward driver streams (StampedGrows lsnOf) (fun (_ : Attempt streams) _ => True) lsnOf (fun w _ => w.slot)
      (Forward streams lsnOf) where
  step := by
    intro sys sys' h hstep
    cases hstep with
    | attempt a _ =>
      refine ⟨⟨(h.aligned.attempted a).1, ?_⟩, fun _ => ?_⟩
      · rw [streamChanges_wal]
        exact h.stamped
      · refine streamChanges_world (P := fun w => sys.world.slot ≤ w.slot) driver a sys
          le_rfl ?_ (fun done w hw => le_trans hw (slot_le_runPostCDC a.input done w)) (fun _ hw => hw)
        obtain ⟨replicator, hworld⟩ := StreamChanges_world a.input sys.world sys.states
        change (streamed driver a sys).world = _ at hworld
        rw [hworld]
    | restart => exact ⟨⟨h.aligned.restart, h.stamped⟩, fun _ => le_rfl⟩
    | source hw =>
      obtain ⟨⟨b, hb, rfl⟩, hstamped⟩ := hw
      exact ⟨⟨h.aligned.source ⟨b, hb, rfl⟩, hstamped⟩, fun _ => le_rfl⟩
  merge := fun _ _ => rfl
  pushed := by
    intro sys h a s r hr
    obtain ⟨-, hmeta, t, ht, hc⟩ := StreamChanges_behind hr
    obtain ⟨hmem, hlt⟩ := Log.mem_after.1 ht
    refine ⟨?_, fun m hm => le_trans (hmeta m hm) h.aligned.saved_le⟩
    rw [h.stamped t hmem (s, r) hc]
    exact hlt

/-! ### Where a pass ends -/

/-- A pass that ends well over a connection that is gone has met EOF. -/
theorem Runs.gone (h : Runs filter target events r out) (halong : Along filter target P events r)
    (hok : out.exit = .ok) (hconn : out.conn ≠ .live) : P .eof out.reader := by
  induction h with
  | killed | cancelled | fails => cases hok
  | reached => exact absurd rfl hconn
  | eof _ hrec heof => exact heof ▸ halong.1 hrec
  | reads hturn _ _ _ _ ih => exact ih ((AlongTurns.goesOn hturn).1 halong).2 hok hconn

/-- A pass that receives and commits rows of a stream whose flag is on goes on to the end
of its backfill: the server's position, or the position it recovers to, is not before, and
but for a recovery, which is pinned to its position, the connection does not end before. -/
def CoversOverlap (a : Attempt streams) (L : Synced (World S Row) S Row LSN LSN) : Prop :=
  let w := L.sys.world
  let states := L.sys.erase.states
  let filter := remainingOf a.input w states
  let target := targetOf a.input w states
  ∀ s ∈ filter, a.Commits s → dedupInsertsOf (L.sys.dest s).state = true →
    Along filter target (fun receive r =>
        (∀ row, Takes filter receive r (s, row) → L.backfillEnd s ≤ target) ∧
        (receive = .eof → recoveryOf a.input w states = none → rowsFor s r.pushed ≠ [] →
          L.backfillEnd s ≤ r.clientXLogPos))
      a.input.events w.reader

theorem CoversOverlap.reachesEnd {a : Attempt streams} (h : CoversOverlap a L) : ReachesEnd driver a L := by
  intro s x hcommits hon hok hrows hfinal
  obtain ⟨-, hpass, heq⟩ := StreamChanges_ok hok
  change streamed driver a L.sys.erase
    = finishedCall a.input L.sys.world L.sys.erase.states at heq
  rw [heq] at hrows hfinal
  change rowsFor s (passOf a.input L.sys.world L.sys.erase.states).reader.pushed ≠ [] at hrows
  have hruns := pgoutputStreamChanges_runs (remainingOf a.input L.sys.world L.sys.erase.states)
    (targetOf a.input L.sys.world L.sys.erase.states) a.input.events L.sys.world.reader
  obtain ⟨r, hr⟩ := exists_mem_of_ne_nil _ hrows
  have hs : s ∈ remainingOf a.input L.sys.world L.sys.erase.states := by
    rcases hruns.taken (Along.trivial _ _) (mem_rowsFor.1 hr) with hnil | ⟨_, _, -, ⟨-, hs, -⟩, -⟩
    · cases hnil
    · exact hs
  have halong := h s hs hcommits hon
  have htarget : L.backfillEnd s ≤ targetOf a.input L.sys.world L.sys.erase.states := by
    rcases hruns.taken halong (mem_rowsFor.1 hr) with hnil | ⟨_, _, hP, htakes, -⟩
    · cases hnil
    · exact hP.1 r htakes
  change L.backfillEnd s ≤ x
  rw [← Option.some.inj hfinal]
  cases hrec : recoveryOf a.input L.sys.world L.sys.erase.states with
  | some m =>
    unfold targetOf at htarget
    rw [hrec] at htarget
    exact htarget
  | none =>
    show L.backfillEnd s ≤ (passOf a.input L.sys.world L.sys.erase.states).reader.clientXLogPos
    by_cases hlive : (passOf a.input L.sys.world L.sys.erase.states).conn = .live
    · exact le_trans htarget (hruns.live hpass hlive)
    · exact (hruns.gone halong hpass hlive).2 rfl hrec hrows

end Olake.Postgres
