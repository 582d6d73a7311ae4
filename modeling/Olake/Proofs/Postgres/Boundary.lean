/-
Postgres: the position that a pass leaves for the acknowledgement.

A pass that returns nil has come to its target, or its context is done, or the
connection has ended.  In the first case no transaction is open; in the others one
may be, and then the position lies inside it (`Runs.stands`).  A recovery leaves
the position it recovers to, whatever it has read; it is the right one when the rows
it was handed are those up to it, no more and no less (`Runs.history`).
-/
import Olake.Proofs.Postgres.ExactlyOnce

namespace Olake.Postgres

open List Log Txn

variable {S Row : Type} [DecidableEq S]

/-! ### Rows still to come -/

/-- The rows for the streams of the filter that the server has yet to send, each
with the end of its transaction. -/
def rowsToCome (filter : List S) : List (XLogData S Row) → List (Option LSN × (S × Row))
  | [] => []
  | xld :: queue =>
    match xld.msg with
    | .change s row =>
      if s ∈ filter then (nextCommit queue, (s, row)) :: rowsToCome filter queue
      else rowsToCome filter queue
    | _ => rowsToCome filter queue

/-- The same for whole transactions. -/
def taggedRows (filter : List S) (txns : List (Txn S Row)) : List (LSN × (S × Row)) :=
  txns.flatMap fun t => (t.changes.filter fun c => decide (c.1 ∈ filter)).map fun c => (t.endLSN, c)

theorem rowsToCome_inside (filter : List S) (rest : List (LSN × Option (S × Row))) (t : Txn S Row)
    (more : List (XLogData S Row)) :
    rowsToCome filter (rest.map bodyMessage ++ t.commitMessage :: more) =
      (((rest.filterMap Prod.snd).filter fun c => decide (c.1 ∈ filter)).map
        fun c => (some t.endLSN, c)) ++ rowsToCome filter more := by
  induction rest with
  | nil => rfl
  | cons m rest ih =>
    obtain ⟨x, c⟩ := m
    cases c with
    | none => exact ih
    | some c =>
      have hnext := nextCommit_inside rest t more
      by_cases hc : c.1 ∈ filter <;> simp [rowsToCome, bodyMessage, hc, ih, hnext]

theorem rowsToCome_messages (filter : List S) (txns : List (Txn S Row)) :
    rowsToCome filter (txns.flatMap Txn.messages) =
      (taggedRows filter txns).map fun c => (some c.1, c.2) := by
  induction txns with
  | nil => rfl
  | cons t txns ih =>
    rw [flatMap_cons, messages, cons_append, append_assoc]
    show rowsToCome filter (t.body.map bodyMessage ++ t.commitMessage :: txns.flatMap messages)
      = _
    rw [rowsToCome_inside, ih]
    simp [taggedRows, changes]

omit [DecidableEq S] in
theorem forall_tagged {p : LSN → Prop} {rows : List (LSN × (S × Row))} :
    (∀ c ∈ rows.map (fun c => (some c.1, c.2)), ∀ x ∈ c.1, p x) ↔ ∀ c ∈ rows, p c.1 := by
  rw [forall_mem_map]
  constructor
  · exact fun h c hc => h c hc c.1 rfl
  · intro h c hc x hx
    rw [← Option.some.inj hx]
    exact h c hc

theorem taggedRows_sorted {filter : List S} {txns : List (Txn S Row)}
    (h : Log.Increasing Txn.endLSN txns) :
    (taggedRows filter txns).Pairwise fun a b => a.1 ≤ b.1 := by
  induction txns with
  | nil => exact List.Pairwise.nil
  | cons t txns ih =>
    obtain ⟨hhead, htail⟩ := pairwise_cons.1 h
    refine pairwise_append.2 ⟨?_, ih htail, ?_⟩
    · rw [pairwise_map]
      exact pairwise_of_forall fun _ _ => le_rfl
    · intro a ha b hb
      obtain ⟨_, _, rfl⟩ := mem_map.1 ha
      obtain ⟨u, hu, hbu⟩ := mem_flatMap.1 hb
      obtain ⟨_, _, rfl⟩ := mem_map.1 hbu
      exact le_of_lt (hhead u hu)

theorem taggedRows_filter (filter : List S) (txns : List (Txn S Row)) (q : LSN) :
    ((taggedRows filter txns).filter fun c => decide (c.1 ≤ q)).map Prod.snd =
      delivered Txn.changes filter (txns.filter fun t => decide (t.endLSN ≤ q)) := by
  induction txns with
  | nil => rfl
  | cons t txns ih =>
    have hcons : taggedRows filter (t :: txns) =
        ((t.changes.filter fun c => decide (c.1 ∈ filter)).map fun c => (t.endLSN, c)) ++
          taggedRows filter txns := rfl
    rw [hcons, filter_append, map_append, ih]
    by_cases ht : t.endLSN ≤ q <;> simp [ht, filter_map, Function.comp_def]

/-! ### Turns that cut a pass off -/

/-- The pass ends at this turn without having come to its target. -/
abbrev CutsOff (target : LSN) (e : Event) (r : Reader S Row) : Prop :=
  e.ctxDone = true ∨ (Receives target e r ∧ e.receive = .eof)

/-- What a turn must not do.  A pass that is no recovery is not cut off inside a
transaction.  A recovery to `R` is not cut off while rows up to `R` are still to come,
and it is not handed a row beyond `R`. -/
def Whole (filter : List S) (recovery : Option LSN) (target : LSN) (e : Event)
    (r : Reader S Row) : Prop :=
  match recovery with
  | none => CutsOff target e r → r.transactionCompleted = true
  | some R =>
    (CutsOff target e r → ∀ c ∈ rowsToCome filter r.queue, ∀ x ∈ c.1, R < x) ∧
      (Receives target e r → e.receive = .data false → nextIsRow filter r.queue = true →
        ∀ x ∈ nextCommit r.queue, x ≤ R)

instance [DecidableEq Row] (filter : List S) (recovery : Option LSN) (target : LSN) (e : Event)
    (r : Reader S Row) : Decidable (Whole filter recovery target e r) := by
  unfold Whole
  split <;> infer_instance

section Pass

variable {filter : List S} {recovery : Option LSN} {b : Wal S Row} {slot target R : LSN}
  {e : Event} {r r' : Reader S Row} {conn : Conn} {exit : Exit}

/-! ### A pass that is no recovery -/

theorem exact_none (h : rc ≠ .eof) : Exact filter none rc r := by
  unfold Exact
  split
  · exact absurd rfl h
  · intro _ R hR
    cases hR
  · trivial

omit [DecidableEq S] in
theorem Receives.goesOn (hrec : Receives target e r) (heof : e.receive ≠ .eof) :
    ¬ CutsOff target e r := by
  rintro (hctx | ⟨-, h⟩)
  · rw [hrec.1] at hctx
    cases hctx
  · exact heof h

/-- A pass that returned nil stands somewhere, and between two transactions exactly
when it was not cut off inside one. -/
theorem Runs.stands (h : Runs filter target events r out) (hstand : Standing filter none b slot r)
    (halong : Along filter target (KeepaliveInOrder b slot) events r) (hnil : NoError out.exit) :
    Standing filter none b slot out.reader ∧
      (AlongTurns filter target (Whole filter none target) events r ↔
        out.reader.transactionCompleted = true) := by
  induction h with
  | killed | fails => rcases hnil with h | h <;> cases h
  | cancelled hturn hctx =>
    refine ⟨hstand, ?_⟩
    rw [AlongTurns.returns hturn]
    exact ⟨fun h => h (.inl hctx), fun h _ => h⟩
  | reached hturn _ h =>
    refine ⟨hstand, ?_⟩
    rw [AlongTurns.returns hturn]
    exact iff_of_true (fun _ => h.1) h.1
  | eof hturn hrec heof =>
    refine ⟨hstand, ?_⟩
    rw [AlongTurns.returns hturn]
    exact ⟨fun h => h (.inr ⟨hrec, heof⟩), fun h _ => h⟩
  | reads hturn hrec hgo heof _ ih =>
    obtain ⟨hstand', hiff⟩ := ih (hstand.receive (halong.1 hrec) (exact_none heof) hgo)
      ((AlongTurns.goesOn hturn).1 halong).2 hnil
    refine ⟨hstand', ?_⟩
    rw [AlongTurns.goesOn hturn, ← hiff]
    exact and_iff_right fun h => absurd h (hrec.goesOn heof)

omit [DecidableEq S] in
/-- Inside a transaction what is to come does not begin with one. -/
theorem inside_ne_messages (rest : List (LSN × Option (S × Row))) (t : Txn S Row)
    (more : List (XLogData S Row)) (txns : List (Txn S Row)) :
    rest.map bodyMessage ++ t.commitMessage :: more ≠ txns.flatMap Txn.messages := by
  intro h
  cases txns with
  | nil => simp at h
  | cons u txns =>
    rw [flatMap_cons, messages, cons_append] at h
    cases rest with
    | nil => cases congrArg XLogData.msg (cons.inj h).1
    | cons m rest =>
      have hhead := congrArg XLogData.msg (cons.inj h).1
      obtain ⟨x, _ | c⟩ := m <;> cases hhead

/-! ### A recovery -/

/-- The row that a receive takes, if it is for a stream of the filter. -/
def taken (filter : List S) (rc : Receive) (queue : List (XLogData S Row)) :
    List (Option LSN × (S × Row)) :=
  match rc, queue with
  | .data false, ⟨_, .change s row⟩ :: queue => if s ∈ filter then [(nextCommit queue, (s, row))] else []
  | _, _ => []

theorem taken_le_iff {queue : List (XLogData S Row)} :
    (rc = .data false → nextIsRow filter queue = true → ∀ x ∈ nextCommit queue, x ≤ R) ↔
      ∀ c ∈ taken filter rc queue, ∀ x ∈ c.1, x ≤ R := by
  unfold taken
  split
  next x s row queue =>
    have hnext : nextCommit (⟨x, .change s row⟩ :: queue : List (XLogData S Row)) = nextCommit queue :=
      rfl
    by_cases hs : s ∈ filter
    · simp [nextIsRow, hnext]
    · simp [nextIsRow, hs]
  next hno =>
    refine iff_of_true (fun hrc hrow => ?_) fun c hc => absurd hc not_mem_nil
    unfold nextIsRow at hrow
    split at hrow
    next x s row queue => exact absurd rfl (hno x s row queue hrc)
    next => cases hrow

/-- What a receive takes from the rows to come it hands to the streams. -/
theorem receiveMessage_takes (h : receiveMessage filter rc r = .goesOn r') :
    rowsToCome filter r.queue = taken filter rc r.queue ++ rowsToCome filter r'.queue ∧
      r'.pushed = r.pushed ++ (taken filter rc r.queue).map Prod.snd := by
  have hreceived := receiveMessage_received filter rc r
  rw [h] at hreceived
  cases hreceived with
  | nothing hno =>
    have htaken : taken filter rc r.queue = [] := by
      rcases hno with rfl | hq
      · rfl
      · simp [taken, hq]
    simp [htaken]
  | keepalive => exact ⟨rfl, (append_nil _).symm⟩
  | @next xld queue hq =>
    rw [hq]
    obtain ⟨x, msg⟩ := xld
    cases msg with
    | begin | commit | other => exact ⟨rfl, (append_nil _).symm⟩
    | change s row =>
      by_cases hs : s ∈ filter <;> simp [rowsToCome, taken, Reader.next, processPgoutputWAL, hs]

/-- A pass that returned nil has handed over the first of the rows to come.  It did
nothing that a recovery to `R` must not do exactly when these lie up to `R`, and the
others beyond unless the target was reached. -/
theorem Runs.history (R : LSN) (h : Runs filter target events r out) (hnil : NoError out.exit) :
    ∃ received cut,
      rowsToCome filter r.queue = received ++ rowsToCome filter out.reader.queue ∧
      out.reader.pushed = r.pushed ++ received.map Prod.snd ∧
      (AlongTurns filter target (Whole filter (some R) target) events r ↔
        (∀ c ∈ received, ∀ x ∈ c.1, x ≤ R) ∧
          (cut → ∀ c ∈ rowsToCome filter out.reader.queue, ∀ x ∈ c.1, R < x)) ∧
      (¬ cut → out.reader.transactionCompleted = true ∧ target ≤ out.reader.clientXLogPos) := by
  -- the last turn reads nothing
  have hlast : ∀ {r : Reader S Row} {e : Event}, ¬ (Receives target e r ∧ e.receive = .data false) →
      (¬ CutsOff target e r → r.transactionCompleted = true ∧ target ≤ r.clientXLogPos) →
      ∃ received cut, rowsToCome filter r.queue = received ++ rowsToCome filter r.queue ∧
        r.pushed = r.pushed ++ received.map Prod.snd ∧
        (Whole filter (some R) target e r ↔ (∀ c ∈ received, ∀ x ∈ c.1, x ≤ R) ∧
          (cut → ∀ c ∈ rowsToCome filter r.queue, ∀ x ∈ c.1, R < x)) ∧
        (¬ cut → r.transactionCompleted = true ∧ target ≤ r.clientXLogPos) := by
    intro r e hdata hcut
    exact ⟨[], CutsOff target e r, rfl, (append_nil _).symm,
      ⟨fun h => ⟨fun c hc => absurd hc not_mem_nil, h.1⟩,
        fun h => ⟨h.2, fun hrec hrc => absurd ⟨hrec, hrc⟩ hdata⟩⟩, hcut⟩
  induction h with
  | killed | fails => rcases hnil with h | h <;> cases h
  | cancelled hturn hctx =>
    rw [AlongTurns.returns hturn]
    exact hlast (fun h => by simp [h.1.1] at hctx) (fun h => absurd (.inl hctx) h)
  | reached hturn _ h =>
    rw [AlongTurns.returns hturn]
    exact hlast (fun h' => h'.1.2.2 h) (fun _ => h)
  | eof hturn hrec heof =>
    rw [AlongTurns.returns hturn]
    exact hlast (fun h => by simp [heof] at h) (fun h => absurd (.inr ⟨hrec, heof⟩) h)
  | @reads e r _ _ _ hturn hrec hgo heof _ ih =>
    obtain ⟨htaken, hpush⟩ := receiveMessage_takes hgo
    obtain ⟨received, cut, hcome, hpushed, hiff, htarget⟩ := ih hnil
    refine ⟨taken filter e.receive r.queue ++ received, cut, ?_, ?_, ?_, htarget⟩
    · rw [htaken, hcome, append_assoc]
    · rw [hpushed, hpush, map_append, append_assoc]
    · have hwhole : Whole filter (some R) target e r ↔
          ∀ c ∈ taken filter e.receive r.queue, ∀ x ∈ c.1, x ≤ R := by
        rw [← taken_le_iff]
        exact ⟨fun h => h.2 hrec, fun h => ⟨fun h' => absurd h' (hrec.goesOn heof), fun _ => h⟩⟩
      rw [AlongTurns.goesOn hturn, hwhole, hiff, forall_mem_append, and_assoc]

end Pass

/-! ### The position of a pass -/

section Position

variable {filter : List S} {target : LSN} {events : List Event} {w : World S Row}

/-- The messages that were received are those of whole transactions. -/
def BetweenTransactions (b : Wal S Row) (slot : LSN) (r : Reader S Row) : Prop :=
  ∃ done todo, Log.after Txn.endLSN slot b.txns = done ++ todo ∧ r.queue = todo.flatMap Txn.messages

/-- The changes handed over are those of the transactions up to `p`. -/
def DeliveredUpTo (filter : List S) (b : Wal S Row) (slot p : LSN) (pushed : List (S × Row)) : Prop :=
  pushed = delivered Txn.changes filter (Log.between Txn.endLSN slot p b.txns)

theorem position_iff (hslot : w.slot ≤ w.wal.walEnd)
    (hserver : Along filter target (KeepaliveInOrder w.wal w.slot) events w.reader)
    (hnil : NoError (pgoutputStreamChanges filter target events w.reader).exit) :
    BetweenTransactions w.wal w.slot (pgoutputStreamChanges filter target events w.reader).reader ∧
        DeliveredUpTo filter w.wal w.slot
          (pgoutputStreamChanges filter target events w.reader).reader.clientXLogPos
          (pgoutputStreamChanges filter target events w.reader).reader.pushed ↔
      AlongTurns filter target (Whole filter none target) events w.reader := by
  obtain ⟨hstand, hiff⟩ := (pgoutputStreamChanges_runs _ _ _ _).stands
    (.boundary (AtBoundary.start hslot)) hserver hnil
  rw [hiff]
  generalize (pgoutputStreamChanges filter target events w.reader).reader = r at hstand ⊢
  cases hstand with
  | boundary h =>
    refine iff_of_true ⟨⟨_, _, h.split, h.queue⟩, ?_⟩ h.completed
    unfold DeliveredUpTo
    rw [h.pushed, between_of_cut h.split h.done_le h.todo_gt]
  | inside h =>
    refine iff_of_false (fun hb => ?_) ?_
    · obtain ⟨done, todo, -, hqueue⟩ := hb.1
      exact inside_ne_messages _ _ _ todo (h.queue.symm.trans hqueue)
    · rw [h.completed]
      decide

theorem recovery_iff (hslot : w.slot ≤ w.wal.walEnd)
    (hserver : Along filter R (KeepaliveInOrder w.wal w.slot) events w.reader)
    (hnil : NoError (pgoutputStreamChanges filter R events w.reader).exit) :
    DeliveredUpTo filter w.wal w.slot R
        (pgoutputStreamChanges filter R events w.reader).reader.pushed ↔
      AlongTurns filter R (Whole filter (some R) R) events w.reader := by
  have hruns := pgoutputStreamChanges_runs filter R events w.reader
  obtain ⟨hstand, -⟩ := hruns.stands (.boundary (AtBoundary.start hslot)) hserver hnil
  obtain ⟨received, cut, hcome, hpushed, hiff, htarget⟩ := hruns.history R hnil
  rw [hiff]
  generalize (pgoutputStreamChanges filter R events w.reader).reader = r at *
  -- the rows handed over and the others, each with the end of its transaction
  have hqueue : rowsToCome filter w.reader.queue = (taggedRows filter
      (after endLSN w.slot w.wal.txns)).map fun c => (some c.1, c.2) :=
    rowsToCome_messages filter _
  obtain ⟨first, rest, hsplit, hfirst, hrest⟩ := map_eq_append_iff.1 (hqueue.symm.trans hcome)
  have hsorted : (first ++ rest).Pairwise fun a b => a.1 ≤ b.1 :=
    hsplit ▸ taggedRows_sorted (after_increasing w.wal.increasing)
  have hrows : r.pushed = first.map Prod.snd := by
    rw [hpushed, ← hfirst, map_map]
    rfl
  unfold DeliveredUpTo
  rw [between_eq_filter_after, ← taggedRows_filter, hsplit, hrows,
    map_eq_filter_iff Prod.snd hsorted, ← hfirst, ← hrest]
  rw [forall_tagged (p := (· ≤ R)), forall_tagged (p := (R < ·))]
  refine and_congr_right fun _ => ⟨fun h _ => h, fun h => ?_⟩
  by_cases hcut : cut
  · exact h hcut
  · -- the target was reached between two transactions, and the others lie beyond
    obtain ⟨hdone, hreached⟩ := htarget hcut
    cases hstand with
    | inside hin =>
      rw [hin.completed] at hdone
      cases hdone
    | boundary hb =>
      rw [hb.queue, rowsToCome_messages] at hrest
      rw [← forall_tagged (p := (R < ·)), hrest, forall_tagged (p := (R < ·))]
      intro c hc
      obtain ⟨t, ht, hct⟩ := mem_flatMap.1 hc
      obtain ⟨_, _, rfl⟩ := mem_map.1 hct
      exact lt_of_le_of_lt hreached (hb.todo_gt t ht)

end Position

/-! ### The driver -/

section Driver

variable {streams : List S} {i : Input streams} {w : World S Row} {states : S → Option LSN}

/-- The position left for the acknowledgement is a transaction boundary, that of the
reader or the one recovered to, and the changes handed over are those up to it. -/
def LeavesBoundary (i : Input streams) (w : World S Row) (states : S → Option LSN) : Prop :=
  (recoveryOf i w states = none →
      BetweenTransactions w.wal w.slot (passOf i w states).reader) ∧
    ∃ socket, (StreamChanges i w states).world.replicator = some socket ∧
      DeliveredUpTo (remainingOf i w states) w.wal w.slot socket.clientXLogPos
        (StreamChanges i w states).pushed

/-- For every sequence of messages and every end of it, a call of `StreamChanges` that
returns without an error leaves a transaction boundary with everything up to it and
nothing beyond, exactly when no turn cuts the pass off inside a transaction; or, in a
recovery, none cuts it off before the last row up to its position or hands it a row
beyond. -/
theorem streaming_leaves_boundary (hslot : w.slot ≤ w.wal.walEnd)
    (hserver : Along (remainingOf i w states) (targetOf i w states)
      (KeepaliveInOrder w.wal w.slot) i.events w.reader)
    (hnil : NoError (StreamChanges i w states).exit) :
    LeavesBoundary i w states ↔
      AlongTurns (remainingOf i w states) (targetOf i w states)
        (Whole (remainingOf i w states) (recoveryOf i w states)
          (targetOf i w states)) i.events w.reader := by
  obtain ⟨-, hpass, heq⟩ := StreamChanges_returned hnil
  have hleaves : LeavesBoundary i w states ↔
      (recoveryOf i w states = none →
        BetweenTransactions w.wal w.slot (passOf i w states).reader) ∧
      DeliveredUpTo (remainingOf i w states) w.wal w.slot
        ((recoveryOf i w states).getD (passOf i w states).reader.clientXLogPos)
        (passOf i w states).reader.pushed := by
    unfold LeavesBoundary
    rw [heq]
    simp [finishedCall]
  rw [hleaves]
  unfold passOf at hpass ⊢
  cases hR : recoveryOf i w states with
  | none =>
    rw [← position_iff hslot hserver hpass]
    exact and_congr_left' ⟨fun h => h rfl, fun h _ => h⟩
  | some R =>
    have htarget : targetOf i w states = R := by
      unfold targetOf
      rw [hR]
      rfl
    rw [htarget] at hserver hpass ⊢
    rw [← recovery_iff hslot hserver hpass]
    exact and_iff_right nofun

/-- A pass that reads the whole transaction. -/
theorem streaming_leaves_boundary_50 :
    LeavesBoundary diesAt50.input oneTxnSync.world (fun _ => none) :=
  (streaming_leaves_boundary (by decide) (by decide) (by decide)).2 (by decide)

/-- The connection ends after the first of the two rows, and the call returns nil.  It
leaves the position of that row, up to which no transaction has committed. -/
theorem eof_inside_transaction :
    let i := (attemptWith 50 [.data false, .data false, .eof] none).input
    (StreamChanges i oneTxnSync.world (fun _ => none)).exit = .ok ∧
      (StreamChanges i oneTxnSync.world (fun _ => none)).pushed = [(0, 1)] ∧
      (StreamChanges i oneTxnSync.world (fun _ => none)).world.replicator = some ⟨20, .broken⟩ ∧
      ¬ LeavesBoundary i oneTxnSync.world (fun _ => none) := by
  have hleft : (StreamChanges (attemptWith 50 [.data false, .data false, .eof] none).input
      oneTxnSync.world (fun _ => none)).world.replicator = some ⟨20, .broken⟩ := by decide
  refine ⟨by decide, by decide, hleft, ?_⟩
  rintro ⟨-, socket, hsocket, hdelivered⟩
  cases hsocket
  exact absurd hdelivered (by unfold DeliveredUpTo; decide)

end Driver

end Olake.Postgres
