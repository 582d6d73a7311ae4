/-
Postgres: what one pass over a replication slot reads.

Between two transactions the reader's position says what it has read: it lies
behind every transaction that was received and before every one still to come
(`AtBoundary`).  Inside a transaction the position says nothing, because messages
carry the position at which they were written and a keepalive may come at any
time (`Inside`); but there the loop does not end, unless the connection does.

`Along` is how a condition on what the server sends is stated: it holds at every
message that the loop receives, and says nothing of what comes after the loop has
returned.
-/
import Olake.Model.Postgres
import Olake.Proofs.SharedPosition

namespace Olake.Postgres

open List Log Txn

variable {S Row : Type}

/-! ### Messages -/

/-- The only commit among the messages of a transaction is its own. -/
theorem commit_mem_messages {t : Txn S Row} :
    (⟨x, .commit⟩ : XLogData S Row) ∈ t.messages ↔ x = t.endLSN := by
  have hbody : ∀ b : LSN × Option (S × Row), bodyMessage b ≠ ⟨x, .commit⟩ := by
    rintro ⟨y, _ | c⟩ <;> simp [bodyMessage]
  simp [messages, commitMessage, hbody]

/-- The end of the transaction that the next messages belong to. -/
def nextCommit (queue : List (XLogData S Row)) : Option LSN :=
  queue.findSome? (fun xld => match xld.msg with
    | .commit => some xld.walStart
    | _ => none)

theorem nextCommit_inside (rest : List (LSN × Option (S × Row))) (t : Txn S Row)
    (more : List (XLogData S Row)) :
    nextCommit (rest.map bodyMessage ++ t.commitMessage :: more) = some t.endLSN := by
  induction rest with
  | nil => rfl
  | cons b rest ih =>
    rw [← ih]
    obtain ⟨x, c⟩ := b
    cases c with
    | none | some => rfl

/-! ### Conditions on what is received -/

/-- Whether a turn comes to `ReceiveMessage`. -/
abbrev Receives (target : LSN) (e : Event) (r : Reader S Row) : Prop :=
  e.ctxDone = false ∧ (!r.messageReceived && e.waited) = false ∧
    ¬ (r.transactionCompleted = true ∧ target ≤ r.clientXLogPos)

/-- A keepalive's WAL end lies behind every commit that was sent, and before every
commit still to be sent. -/
def KeepaliveInOrder (b : Wal S Row) (slot : LSN) (receive : Receive) (r : Reader S Row) : Prop :=
  match receive with
  | .keepalive k _ => slot ≤ k ∧ k ≤ b.walEnd ∧
      ∀ t ∈ Log.after Txn.endLSN slot b.txns, k < t.endLSN ↔ t.commitMessage ∈ r.queue
  | _ => True

instance [DecidableEq S] [DecidableEq Row] (b : Wal S Row) (slot : LSN) (receive : Receive)
    (r : Reader S Row) : Decidable (KeepaliveInOrder b slot receive r) := by
  unfold KeepaliveInOrder
  cases receive <;> infer_instance

variable [DecidableEq S]

/-- The next message is a row of a stream of the filter. -/
def nextIsRow (filter : List S) : List (XLogData S Row) → Bool
  | ⟨_, .change s _⟩ :: _ => decide (s ∈ filter)
  | _ => false

/-- What keeps a pass exact.  The connection does not end inside a transaction, nor
in a recovery; and a recovery receives no row for a stream it reads for that
belongs to a transaction beyond the position it recovers to. -/
def Exact (filter : List S) (recovery : Option LSN) (receive : Receive) (r : Reader S Row) : Prop :=
  match receive with
  | .eof => r.transactionCompleted = true ∧ recovery = none
  | .data false => nextIsRow filter r.queue = true →
      ∀ R ∈ recovery, ∀ c ∈ nextCommit r.queue, c ≤ R
  | _ => True

instance (filter : List S) (recovery : Option LSN) (receive : Receive) (r : Reader S Row) :
    Decidable (Exact filter recovery receive r) := by
  unfold Exact
  split <;> infer_instance

/-- The condition `P` holds at every turn the loop comes to. -/
def AlongTurns (filter : List S) (target : LSN) (P : Event → Reader S Row → Prop) :
    List Event → Reader S Row → Prop
  | [], _ => True
  | e :: events, r => P e r ∧
      match turn filter target e r with
      | .goesOn r' => AlongTurns filter target P events r'
      | .returns _ _ _ => True

instance AlongTurns.decidable (filter : List S) (target : LSN) (P : Event → Reader S Row → Prop)
    [∀ e r, Decidable (P e r)] : ∀ (events : List Event) (r : Reader S Row),
    Decidable (AlongTurns filter target P events r)
  | [], _ => isTrue trivial
  | e :: events, r => by
      have hrec := AlongTurns.decidable filter target P events
      unfold AlongTurns
      cases turn filter target e r <;> infer_instance

theorem AlongTurns.goesOn {filter : List S}
    (hturn : turn filter target e r = .goesOn r') : AlongTurns filter target P (e :: events) r ↔
      P e r ∧ AlongTurns filter target P events r' := by
  rw [AlongTurns, hturn]

theorem AlongTurns.returns {filter : List S}
    (hturn : turn filter target e r = .returns r' conn exit) :
    AlongTurns filter target P (e :: events) r ↔ P e r := by
  rw [AlongTurns, hturn, and_true]

/-- The condition `P` holds wherever the loop receives. -/
abbrev Along (filter : List S) (target : LSN) (P : Receive → Reader S Row → Prop) :
    List Event → Reader S Row → Prop :=
  AlongTurns filter target fun e r => Receives target e r → P e.receive r

/-! ### What a pass comes to -/

/-- The reader after the message `xld`, the first of its queue. -/
def Reader.next (filter : List S) (xld : XLogData S Row) (queue : List (XLogData S Row))
    (r : Reader S Row) : Reader S Row :=
  { processPgoutputWAL filter xld.msg { r with queue := queue, clientXLogPos := xld.walStart }
    with messageReceived := true }

inductive Received (filter : List S) (r : Reader S Row) : Receive → Turn S Row → Prop
  | failed (r' : Reader S Row) (hqueue : ∀ xld ∈ r'.queue, xld ∈ r.queue)
      (hpushed : r'.pushed = r.pushed) : Received filter r rc (.returns r' .live .err)
  | eof : Received filter r .eof (.returns r .broken .ok)
  | nothing (h : rc = .unhandled ∨ r.queue = []) (heof : rc ≠ .eof) : Received filter r rc (.goesOn r)
  | keepalive (k : LSN) (f : Bool) :
      Received filter r (.keepalive k f) (.goesOn { r with clientXLogPos := k })
  | next (hq : r.queue = xld :: queue) :
      Received filter r (.data false) (.goesOn (r.next filter xld queue))

/-- What a pass comes to, turn by turn. -/
inductive Runs (filter : List S) (target : LSN) : List Event → Reader S Row → Pass S Row → Prop
  | killed : Runs filter target [] r ⟨r, .live, .killed⟩
  | cancelled (hturn : turn filter target e r = .returns r .live .cancelled)
      (hctx : e.ctxDone = true) : Runs filter target (e :: events) r ⟨r, .live, .cancelled⟩
  /-- The wait has run out, or a receive has failed. -/
  | fails (hturn : turn filter target e r = .returns r' conn .err)
      (hpushed : r'.pushed = r.pushed) :
      Runs filter target (e :: events) r ⟨r', conn, .err⟩
  | reached (hturn : turn filter target e r = .returns r .live .ok) (hctx : e.ctxDone = false)
      (h : r.transactionCompleted = true ∧ target ≤ r.clientXLogPos) :
      Runs filter target (e :: events) r ⟨r, .live, .ok⟩
  | eof (hturn : turn filter target e r = .returns r .broken .ok) (hrec : Receives target e r)
      (h : e.receive = .eof) : Runs filter target (e :: events) r ⟨r, .broken, .ok⟩
  | reads (hturn : turn filter target e r = .goesOn r') (hrec : Receives target e r)
      (hgo : receiveMessage filter e.receive r = .goesOn r') (heof : e.receive ≠ .eof)
      (hrun : Runs filter target events r' out) : Runs filter target (e :: events) r out

/-! ### Where a reader stands -/

/-- The changes, of a transaction that ends at `endLSN`, that a recovery must not
take. -/
def Bounded (filter : List S) (recovery : Option LSN) (endLSN : LSN)
    (changes : List (S × Row)) : Prop :=
  ∀ R, recovery = some R → R < endLSN → changes.filter (fun c => decide (c.1 ∈ filter)) = []

section Standing

variable (filter : List S) (recovery : Option LSN) (b : Wal S Row) (slot : LSN)

/-- The reader stands between the transactions `done` and `todo`. -/
structure AtBoundary (done todo : List (Txn S Row)) (r : Reader S Row) : Prop where
  split : Log.after Txn.endLSN slot b.txns = done ++ todo
  queue : r.queue = todo.flatMap Txn.messages
  completed : r.transactionCompleted = true
  pushed : r.pushed = delivered Txn.changes filter done
  slot_le : slot ≤ r.clientXLogPos
  within : r.clientXLogPos ≤ b.walEnd
  done_le : ∀ t ∈ done, t.endLSN ≤ r.clientXLogPos
  todo_gt : ∀ t ∈ todo, r.clientXLogPos < t.endLSN
  bounded : ∀ t ∈ done, Bounded filter recovery t.endLSN t.changes

/-- The reader has received `sent` of the transaction `t`, and not yet `rest`. -/
structure Inside (done todo : List (Txn S Row)) (t : Txn S Row)
    (sent rest : List (LSN × Option (S × Row))) (r : Reader S Row) : Prop where
  split : Log.after Txn.endLSN slot b.txns = done ++ t :: todo
  body : t.body = sent ++ rest
  queue : r.queue = rest.map bodyMessage ++ t.commitMessage :: todo.flatMap Txn.messages
  completed : r.transactionCompleted = false
  pushed : r.pushed = delivered Txn.changes filter done
    ++ (sent.filterMap Prod.snd).filter (fun c => decide (c.1 ∈ filter))
  bounded : ∀ t ∈ done, Bounded filter recovery t.endLSN t.changes
  open_bounded : Bounded filter recovery t.endLSN (sent.filterMap Prod.snd)

/-- A reader stands between two transactions or inside one. -/
inductive Standing (r : Reader S Row) : Prop
  | boundary {done todo : List (Txn S Row)} (h : AtBoundary filter recovery b slot done todo r)
  | inside {done todo : List (Txn S Row)} {t : Txn S Row}
      {sent rest : List (LSN × Option (S × Row))}
      (h : Inside filter recovery b slot done todo t sent rest r)

end Standing

section Reader

variable {filter : List S} {recovery : Option LSN} {b : Wal S Row} {slot target : LSN}
  {r r' : Reader S Row} {done todo : List (Txn S Row)} {t : Txn S Row}
  {sent rest : List (LSN × Option (S × Row))}

theorem AtBoundary.start {w : World S Row} (h : w.slot ≤ w.wal.walEnd) :
    AtBoundary filter recovery w.wal w.slot [] (Log.after Txn.endLSN w.slot w.wal.txns)
      w.reader where
  split := rfl
  queue := rfl
  completed := rfl
  pushed := rfl
  slot_le := le_rfl
  within := h
  done_le := fun _ ht => absurd ht not_mem_nil
  todo_gt := fun _ ht => (mem_after.1 ht).2
  bounded := fun _ ht => absurd ht not_mem_nil

/-- A begin message leads into its transaction. -/
theorem AtBoundary.begin (h : AtBoundary filter recovery b slot done (t :: todo) r) :
    Inside filter recovery b slot done todo t [] t.body
      (r.next filter ⟨t.beginLSN, .begin⟩
        (t.body.map bodyMessage ++ t.commitMessage :: todo.flatMap Txn.messages)) where
  split := h.split
  body := rfl
  queue := rfl
  completed := rfl
  pushed := by
    show r.pushed = _
    rw [h.pushed, filterMap_nil, filter_nil, append_nil]
  bounded := h.bounded
  open_bounded := fun _ _ _ => rfl

theorem next_bodyMessage (r : Reader S Row) (m : LSN × Option (S × Row)) (queue : List (XLogData S Row)) :
    r.next filter (bodyMessage m) queue =
      { r with
        queue := queue
        clientXLogPos := m.1
        pushed := r.pushed ++ m.2.toList.filter (fun c => decide (c.1 ∈ filter))
        messageReceived := true } := by
  obtain ⟨x, _ | c⟩ := m
  · simp [Reader.next, bodyMessage, processPgoutputWAL]
  · by_cases hc : c.1 ∈ filter <;> simp [Reader.next, bodyMessage, processPgoutputWAL, hc]

theorem Inside.message (h : Inside filter recovery b slot done todo t sent (m :: rest) r)
    (hbound : ∀ R c, recovery = some R → m.2 = some c → c.1 ∈ filter → t.endLSN ≤ R) :
    Inside filter recovery b slot done todo t (sent ++ [m]) rest
      (r.next filter (bodyMessage m)
        (rest.map bodyMessage ++ t.commitMessage :: todo.flatMap Txn.messages)) := by
  have hsent : (sent ++ [m]).filterMap Prod.snd = sent.filterMap Prod.snd ++ m.2.toList := by
    cases h : m.2 <;> simp [h]
  rw [next_bodyMessage]
  refine ⟨h.split, by rw [h.body, append_assoc, singleton_append], rfl, h.completed, ?_, h.bounded,
    fun R hR hlt => ?_⟩
  · rw [hsent, filter_append, ← append_assoc, ← h.pushed]
  · rw [hsent, filter_append, h.open_bounded R hR hlt, nil_append, filter_eq_nil_iff]
    intro c hc
    simp only [decide_eq_true_eq]
    exact fun hfilter => absurd (hbound R c hR (Option.mem_toList.1 hc) hfilter) (not_le.2 hlt)

/-- The commit message closes the transaction, and says where it ends. -/
theorem Inside.commit (h : Inside filter recovery b slot done todo t sent [] r) :
    AtBoundary filter recovery b slot (done ++ [t]) todo
      (r.next filter t.commitMessage (todo.flatMap Txn.messages)) := by
  have hbody : t.body = sent := by rw [h.body, append_nil]
  have hmem : t ∈ after endLSN slot b.txns := by
    rw [h.split]
    exact mem_append_right _ mem_cons_self
  obtain ⟨htxn, hslot⟩ := mem_after.1 hmem
  have hsorted : Log.Increasing endLSN (done ++ t :: todo) :=
    h.split ▸ after_increasing b.increasing
  obtain ⟨_, htail, hcross⟩ := pairwise_append.1 hsorted
  refine ⟨?_, rfl, rfl, ?_, le_of_lt hslot, b.within t htxn, ?_, ?_, ?_⟩
  · rw [h.split, append_assoc, singleton_append]
  · show r.pushed = _
    rw [h.pushed, ← hbody]
    simp [delivered, changes]
  · intro d hd
    rcases mem_append.1 hd with hd | hd
    · exact le_of_lt (hcross d hd t mem_cons_self)
    · exact le_of_eq (congrArg endLSN (mem_singleton.1 hd))
  · exact (pairwise_cons.1 htail).1
  · intro d hd
    rcases mem_append.1 hd with hd | hd
    · exact h.bounded d hd
    · rw [mem_singleton.1 hd, changes, hbody]
      exact h.open_bounded

/-- A keepalive between two transactions moves the reader without passing one. -/
theorem AtBoundary.keepalive (h : AtBoundary filter recovery b slot done todo r)
    (hk : KeepaliveInOrder b slot (.keepalive k f) r) :
    AtBoundary filter recovery b slot done todo { r with clientXLogPos := k } := by
  obtain ⟨hslot, hend, horder⟩ := hk
  have hsorted : Log.Increasing endLSN (done ++ todo) := h.split ▸ after_increasing b.increasing
  refine ⟨h.split, h.queue, h.completed, h.pushed, hslot, hend, ?_, ?_, h.bounded⟩
  · intro t ht
    by_contra hlt
    have hsent := (horder t (h.split ▸ mem_append_left _ ht)).1 (not_le.1 hlt)
    rw [h.queue] at hsent
    obtain ⟨t', ht', hmem⟩ := mem_flatMap.1 hsent
    have hends : t.endLSN = t'.endLSN := commit_mem_messages.1 hmem
    exact absurd hends (ne_of_lt ((pairwise_append.1 hsorted).2.2 t ht t' ht'))
  · intro t ht
    refine (horder t (h.split ▸ mem_append_right _ ht)).2 ?_
    rw [h.queue]
    exact mem_flatMap.2 ⟨t, ht, commit_mem_messages.2 rfl⟩

theorem Inside.keepalive (h : Inside filter recovery b slot done todo t sent rest r) (k : LSN) :
    Inside filter recovery b slot done todo t sent rest { r with clientXLogPos := k } :=
  ⟨h.split, h.body, h.queue, h.completed, h.pushed, h.bounded, h.open_bounded⟩

/-- The next message of the server, between two transactions. -/
theorem AtBoundary.next {queue : List (XLogData S Row)}
    (h : AtBoundary filter recovery b slot done todo r) (hq : r.queue = xld :: queue) :
    Standing filter recovery b slot (r.next filter xld queue) := by
  have hqueue := h.queue
  cases todo with
  | nil =>
    rw [hq] at hqueue
    cases hqueue
  | cons t todo =>
    rw [hq, flatMap_cons, messages, cons_append, append_assoc] at hqueue
    obtain ⟨hxld, hrest⟩ := cons.inj hqueue
    rw [hxld, hrest]
    exact .inside h.begin

/-- The next message of the server, inside a transaction. -/
theorem Inside.next {queue : List (XLogData S Row)}
    (h : Inside filter recovery b slot done todo t sent rest r) (hq : r.queue = xld :: queue)
    (he : Exact filter recovery (.data false) r) :
    Standing filter recovery b slot (r.next filter xld queue) := by
  have hqueue := h.queue
  cases rest with
  | nil =>
    rw [hq] at hqueue
    obtain ⟨hxld, hrest⟩ := cons.inj hqueue
    rw [hxld, hrest]
    exact .boundary h.commit
  | cons m rest =>
    rw [hq] at hqueue
    obtain ⟨hxld, hrest⟩ := cons.inj hqueue
    rw [hxld, hrest]
    refine .inside (h.message (fun R c hR hm hc => ?_))
    -- the transaction of this row is the one that commits next
    obtain ⟨x, m⟩ := m
    subst hm
    refine he ?_ R hR t.endLSN ?_
    · rw [hq, hxld]
      exact decide_eq_true hc
    · rw [hq, hxld, hrest]
      exact nextCommit_inside ((x, some c) :: rest) t _

theorem receiveMessage_received (filter : List S) (rc : Receive) (r : Reader S Row) :
    Received filter r rc (receiveMessage filter rc r) := by
  fun_cases receiveMessage filter rc r with
  | case1 => exact .failed r (fun _ h => h) rfl
  | case2 => exact .eof
  | case3 => exact .nothing (.inl rfl) (by decide)
  | case4 => exact .failed _ (fun _ h => h) rfl
  | case5 => exact .keepalive ..
  | case6 _ hq => exact .nothing (.inr hq) (by simp)
  | case7 xld queue hq => exact .failed _ (fun x hx => by rw [hq]; exact mem_cons_of_mem _ hx) rfl
  | case8 rejected xld queue hq _ hr =>
    rw [Bool.eq_false_iff.2 hr]
    exact .next hq

/-- Whatever is received, the reader goes on to stand somewhere. -/
theorem Standing.receive (h : Standing filter recovery b slot r)
    (hk : KeepaliveInOrder b slot rc r) (he : Exact filter recovery rc r)
    (hgo : receiveMessage filter rc r = .goesOn r') : Standing filter recovery b slot r' := by
  have hreceived := receiveMessage_received filter rc r
  rw [hgo] at hreceived
  cases hreceived with
  | nothing => exact h
  | keepalive k f =>
    cases h with
    | boundary h => exact .boundary (h.keepalive hk)
    | inside h => exact .inside (h.keepalive k)
  | next hq =>
    cases h with
    | boundary h => exact h.next hq
    | inside h => exact h.next hq he

theorem pgoutputStreamChanges_runs (filter : List S) (target : LSN) (events : List Event)
    (r : Reader S Row) : Runs filter target events r (pgoutputStreamChanges filter target events r) := by
  induction events generalizing r with
  | nil => exact .killed
  | cons e events ih =>
    rw [pgoutputStreamChanges]
    generalize hturn : turn filter target e r = out
    have hout := hturn
    unfold turn at hout
    split at hout
    · next hctx =>
      subst hout
      exact .cancelled hturn hctx
    next hctx =>
    split at hout
    · subst hout
      exact .fails hturn rfl
    next hwait =>
    split at hout
    · next hdone =>
      subst hout
      exact .reached hturn (by simpa using hctx) (by simpa using hdone)
    · next hdone =>
      have hrec : Receives target e r := ⟨by simpa using hctx, by simpa using hwait, by simpa using hdone⟩
      have hreceived := hout ▸ receiveMessage_received filter e.receive r
      cases out with
      | goesOn r' =>
        refine .reads hturn hrec hout (fun heof => ?_) (ih r')
        rw [heof] at hout
        cases hout
      | returns r' conn exit =>
        generalize hrc : e.receive = rc at hreceived hout
        cases hreceived with
        | failed _ _ hpushed => exact .fails hturn hpushed
        | eof => exact .eof hturn hrec hrc

/-- A pass that returned nil stands between two transactions.  It has come to its
target, or the connection ended in a pass that was no recovery. -/
theorem Runs.ok (h : Runs filter target events r out) (hstand : Standing filter recovery b slot r)
    (halong : Along filter target
      (fun rc r => KeepaliveInOrder b slot rc r ∧ Exact filter recovery rc r) events r)
    (hok : out.exit = .ok) : (∃ done todo, AtBoundary filter recovery b slot done todo out.reader) ∧
    (out.conn = .live ∧ target ≤ out.reader.clientXLogPos ∨
      out.conn = .broken ∧ recovery = none) := by
  have hboundary : ∀ {r}, Standing filter recovery b slot r → r.transactionCompleted = true →
      ∃ done todo, AtBoundary filter recovery b slot done todo r := by
    intro r hstand hcompleted
    cases hstand with
    | boundary h => exact ⟨_, _, h⟩
    | inside h =>
      rw [h.completed] at hcompleted
      cases hcompleted
  induction h with
  | killed | cancelled | fails => cases hok
  | reached _ _ h => exact ⟨hboundary hstand h.1, .inl ⟨rfl, h.2⟩⟩
  | eof _ hrec heof =>
    have he := (halong.1 hrec).2
    rw [heof] at he
    exact ⟨hboundary hstand he.1, .inr ⟨rfl, he.2⟩⟩
  | reads hturn hrec hgo _ _ ih =>
    obtain ⟨hk, he⟩ := halong.1 hrec
    exact ih (hstand.receive hk he hgo) ((AlongTurns.goesOn hturn).1 halong).2 hok

/-! ### The rows of a pass -/

/-- The rows of stream `s` that the log holds after `p` and up to `q`. -/
def sourceRows (b : Wal S Row) : S → LSN → LSN → List Row :=
  rowsBetween Txn.endLSN Txn.changes b.txns

theorem sourceRows_splits (b : Wal S Row) (s : S) : Splits (sourceRows b s) :=
  rowsBetween_splits b.increasing s

theorem sourceRows_grows (h : b.Grows b') (hq : q ≤ b.walEnd)
    (s : S) (p : LSN) : sourceRows b' s p q = sourceRows b s p q := by
  obtain ⟨_, _, new, hnew, hbeyond⟩ := h
  unfold sourceRows
  rw [hnew, rowsBetween_extend (fun t ht => lt_of_le_of_lt hq (hbeyond t ht))]

theorem delivered_filter {txns : List (Txn S Row)}
    (h : ∀ t ∈ txns, q t = false → t.changes.filter (fun c => decide (c.1 ∈ filter)) = []) :
    delivered Txn.changes filter (txns.filter q) = delivered Txn.changes filter txns := by
  induction txns with
  | nil => rfl
  | cons t txns ih =>
    obtain ⟨ht, hrest⟩ := forall_mem_cons.1 h
    rw [delivered_cons, ← ih hrest]
    cases hq : q t with
    | true => rw [filter_cons_of_pos hq, delivered_cons]
    | false => rw [filter_cons_of_neg (by rw [hq]; decide), ht hq, nil_append]

/-- What a pass hands to a stream it reads for: the rows up to its own position,
or, in a recovery, up to the position it recovers to. -/
theorem AtBoundary.rows (h : AtBoundary filter recovery b slot done todo r)
    (hreached : ∀ R, recovery = some R → R ≤ r.clientXLogPos) (hs : s ∈ filter) :
    rowsFor s r.pushed = sourceRows b s slot (recovery.getD r.clientXLogPos) := by
  rw [h.pushed]
  cases hrec : recovery with
  | none => exact rowsFor_delivered hs (between_of_cut h.split h.done_le h.todo_gt)
  | some R =>
    have hcut : between endLSN slot R b.txns
        = done.filter (fun t => decide (t.endLSN ≤ R)) := by
      have hdrop : todo.filter (fun t => decide (t.endLSN ≤ R)) = [] := by
        rw [filter_eq_nil_iff]
        intro t ht
        simpa using lt_of_le_of_lt (hreached R hrec) (h.todo_gt t ht)
      rw [between_eq_filter_after, h.split, filter_append, hdrop, append_nil]
    rw [← delivered_filter (q := fun t => decide (t.endLSN ≤ R))]
    · exact rowsFor_delivered hs hcut
    · intro t ht hlt
      exact h.bounded t ht R hrec (not_le.1 (of_decide_eq_false hlt))

/-! ### A pass that nothing disturbs -/

def Receive.isData : Receive → Bool
  | .data _ => true
  | _ => false

def Event.calm (e : Event) : Bool :=
  !e.ctxDone && !e.waited &&
    match e.receive with
    | .data rejected => !rejected
    | .keepalive _ replyFails => !replyFails
    | .unhandled => true
    | .eof => false
    | .failed => false

theorem turn_calm (filter : List S) (target : LSN) (h : e.calm = true) (r : Reader S Row) :
    (turn filter target e r = .returns r .live .ok) ∨
      (¬ (r.transactionCompleted = true ∧ target ≤ r.clientXLogPos) ∧
        ∃ r', receiveMessage filter e.receive r = .goesOn r' ∧
          turn filter target e r = .goesOn r' ∧
          r'.queue.length = r.queue.length - if e.receive.isData then 1 else 0) := by
  obtain ⟨ctxDone, waited, rc⟩ := e
  simp only [Event.calm, Bool.and_eq_true, Bool.not_eq_true'] at h
  obtain ⟨⟨rfl, rfl⟩, hrc⟩ := h
  by_cases hdone : r.transactionCompleted = true ∧ target ≤ r.clientXLogPos
  · simp [turn, hdone.1, hdone.2]
  right
  refine ⟨hdone, ?_⟩
  have hturn : turn filter target ⟨false, false, rc⟩ r = receiveMessage filter rc r := by
    simp [turn, hdone]
  rw [hturn]
  cases rc with
  | failed | eof => cases hrc
  | unhandled => exact ⟨r, rfl, rfl, rfl⟩
  | keepalive k f =>
    simp only [Bool.not_eq_true'] at hrc
    subst hrc
    exact ⟨_, rfl, rfl, rfl⟩
  | data rejected =>
    simp only [Bool.not_eq_true'] at hrc
    subst hrc
    cases hq : r.queue with
    | nil => exact ⟨r, by simp [receiveMessage, hq], by simp [receiveMessage, hq], by rw [hq]; rfl⟩
    | cons xld queue =>
      refine ⟨r.next filter xld queue, by simp [receiveMessage, hq, Reader.next],
        by simp [receiveMessage, hq, Reader.next], ?_⟩
      have hqueue : (r.next filter xld queue).queue = queue := by
        unfold Reader.next processPgoutputWAL
        cases xld.msg <;> rfl
      rw [hqueue]
      rfl

/-- A reader that has received everything stands behind the last transaction. -/
theorem Standing.completed_of_nil (h : Standing filter recovery b slot r) (hq : r.queue = []) :
    r.transactionCompleted = true := by
  cases h with
  | boundary h => exact h.completed
  | inside h =>
    have hqueue := h.queue
    rw [hq] at hqueue
    exact absurd hqueue.symm (by simp)

/-- A calm pass returns nil, once the server has sent everything and then a
keepalive at or behind the target. -/
theorem pgoutputStreamChanges_calm {pre rest : List Event} (hk : target ≤ k) (hne : rest ≠ [])
    (hcalm : ∀ e ∈ pre ++ ⟨false, false, .keepalive k false⟩ :: rest, e.calm = true)
    (hstand : Standing filter recovery b slot r)
    (halong : Along filter target (fun rc r => KeepaliveInOrder b slot rc r ∧ Exact filter recovery rc r)
      (pre ++ ⟨false, false, .keepalive k false⟩ :: rest) r)
    (hlen : r.queue.length ≤ (pre.filter (fun e => e.receive.isData)).length) :
    ∃ r', pgoutputStreamChanges filter target (pre ++ ⟨false, false, .keepalive k false⟩ :: rest) r =
      ⟨r', .live, .ok⟩ := by
  induction pre generalizing r with
  | nil =>
    have hcompleted := hstand.completed_of_nil (eq_nil_of_length_eq_zero (Nat.le_zero.1 hlen))
    obtain ⟨hcalm, hrest⟩ := forall_mem_cons.1 hcalm
    rw [nil_append, pgoutputStreamChanges]
    rcases turn_calm filter target hcalm r with hturn | ⟨_, r', hrecv, hturn, _⟩ <;> rw [hturn]
    · exact ⟨r, rfl⟩
    · -- behind this keepalive the target is reached
      cases hrecv
      obtain ⟨e, rest, rfl⟩ := exists_cons_of_ne_nil hne
      dsimp only
      rw [pgoutputStreamChanges]
      rcases turn_calm filter target (hrest e mem_cons_self)
        { r with clientXLogPos := k } with hturn' | ⟨hnot, _⟩
      · rw [hturn']
        exact ⟨_, rfl⟩
      · exact absurd ⟨hcompleted, hk⟩ hnot
  | cons e pre ih =>
    obtain ⟨he, hpre⟩ := forall_mem_cons.1 hcalm
    rw [cons_append, pgoutputStreamChanges]
    rcases turn_calm filter target he r with hturn | ⟨hnot, r', hrecv, hturn, hqueue⟩ <;> rw [hturn]
    · exact ⟨r, rfl⟩
    · have hreceives : Receives target e r := by
        simp only [Event.calm, Bool.and_eq_true, Bool.not_eq_true'] at he
        exact ⟨he.1.1, by rw [he.1.2, Bool.and_false], hnot⟩
      obtain ⟨hka, hex⟩ := halong.1 hreceives
      refine ih hpre (hstand.receive hka hex hrecv) ((AlongTurns.goesOn hturn).1 halong).2 ?_
      rw [hqueue]
      cases hdata : e.receive.isData with
      | true =>
        simp only [filter_cons, hdata, if_true, length_cons] at hlen
        rw [if_pos rfl]
        omega
      | false => simpa [hdata] using hlen

end Reader

end Olake.Postgres
