/-
MySQL: what one pass over the binlog reads, and what a run of passes leaves at
the destination.

The reader's loop is described once (`Runs`), turn by turn: when it returns nil it
has consumed a prefix of the events it was given, stands where that prefix ends,
and has pushed that prefix's rows for the streams it filters for.  It never goes
past an event at or beyond its target, and it stops short of the target only when
the initial wait time runs out before the first row event.
-/
import Olake.Model.MySQL
import Olake.Proofs.SharedPosition

namespace Olake.MySQL

open List Log BinlogEvent Bool

variable {S Row : Type}

/-! ### Boundaries of the binlog -/

/-- A position at which an event ends, or the log begins. -/
def Binlog.Boundary (b : Binlog S Row) (p : Position) : Prop :=
  p = b.start ∨ ∃ e ∈ b.events, e.endPos = p

variable {b : Binlog S Row} {p : Position} {b' : Binlog S Row}

/-- Every boundary lies before the events written after it was one. -/
theorem boundary_lt_new (hstart : b'.start = b.start)
    (hnew : b'.events = b.events ++ new) (hp : b.Boundary p) : ∀ e ∈ new, p < e.endPos := by
  intro e he
  rcases hp with rfl | ⟨d, hd, rfl⟩
  · rw [← hstart]
    exact b'.after_start e (by rw [hnew]; exact mem_append_right _ he)
  · have hinc := b'.increasing
    rw [hnew] at hinc
    exact (pairwise_append.1 hinc).2.2 d hd e he

theorem Binlog.Boundary.grows (h : b.Grows b') (hp : b.Boundary p) : b'.Boundary p := by
  obtain ⟨hstart, new, hnew⟩ := h
  rcases hp with rfl | ⟨e, he, rfl⟩
  · exact .inl hstart.symm
  · exact .inr ⟨e, by rw [hnew]; exact mem_append_left _ he, rfl⟩

theorem Binlog.Boundary.start_le (hp : b.Boundary p) : b.start ≤ p := by
  rcases hp with rfl | ⟨e, he, rfl⟩
  · exact le_rfl
  · exact le_of_lt (b.after_start e he)

/-- From a boundary on, each event stands in the file in which the last one ended. -/
theorem chained_after (hchain : Chained start events)
    (hafter : ∀ e ∈ events, start < e.endPos) (hinc : Log.Increasing BinlogEvent.endPos events)
    (hp : p = start ∨ ∃ e ∈ events, e.endPos = p) :
    Chained p (Log.after BinlogEvent.endPos p events) := by
  induction events generalizing start with
  | nil => trivial
  | cons a rest ih =>
    obtain ⟨hlt, hrest⟩ := pairwise_cons.1 hinc
    rcases hp with rfl | ⟨e, he, rfl⟩
    · -- everything lies after the start
      have hall : after endPos p (a :: rest) = a :: rest := by
        unfold Log.after
        rw [filter_eq_self]
        intro e he
        simpa using hafter e he
      rw [hall]
      exact hchain
    · have hdrop : ¬ e.endPos < a.endPos := by
        rcases mem_cons.1 he with rfl | hmem
        · exact lt_irrefl _
        · exact not_lt.2 (le_of_lt (hlt e hmem))
      have hskip : after endPos e.endPos (a :: rest)
          = after endPos e.endPos rest := by
        unfold Log.after
        rw [filter_cons_of_neg (by simpa using hdrop)]
      rw [hskip]
      refine ih hchain.2 hlt hrest ?_
      rcases mem_cons.1 he with rfl | hmem
      · exact .inl rfl
      · exact .inr ⟨e, hmem, rfl⟩

theorem boundary_reached (hp : b.Boundary p)
    (hread : Log.after BinlogEvent.endPos p b.events = done ++ todo) :
    b.Boundary (Log.reached BinlogEvent.endPos p done) ∧
      p ≤ Log.reached BinlogEvent.endPos p done := by
  have hmem : ∀ e ∈ done, e ∈ after endPos p b.events := by
    intro e he
    rw [hread]
    exact mem_append_left _ he
  refine ⟨?_, start_le_reached fun e he => (mem_after.1 (hmem e he)).2⟩
  rcases reached_cases endPos p done with heq | ⟨e, he, heq⟩
  · rw [heq]
    exact hp
  · rw [heq]
    exact .inr ⟨e, (mem_after.1 (hmem e he)).1, rfl⟩

theorem event_of_boundary (hp : b.Boundary p) (hm : b.Boundary m) (hlt : p < m) :
    ∃ e ∈ Log.after BinlogEvent.endPos p b.events, e.endPos = m := by
  rcases hm with rfl | ⟨e, he, rfl⟩
  · exact absurd hlt (not_lt.2 hp.start_le)
  · exact ⟨e, mem_after.2 ⟨he, hlt⟩, rfl⟩

variable [DecidableEq S]

/-! ### Rows of the binlog -/

/-- The rows of stream `s` that the binlog holds after `p` and up to `q`. -/
def sourceRows (b : Binlog S Row) : S → Position → Position → List Row :=
  rowsBetween BinlogEvent.endPos BinlogEvent.changes b.events

theorem sourceRows_splits (b : Binlog S Row) (s : S) : Splits (sourceRows b s) :=
  rowsBetween_splits b.increasing s

theorem sourceRows_grows (h : b.Grows b') (hq : b.Boundary q) (s : S) (p : Position)
    : sourceRows b' s p q = sourceRows b s p q := by
  obtain ⟨hstart, new, hnew⟩ := h
  unfold sourceRows
  rw [hnew, rowsBetween_extend (boundary_lt_new hstart hnew hq)]

/-! ### The reader -/

def BinlogEvent.isRows (e : BinlogEvent S Row) : Bool :=
  match e.body with
  | .rows _ _ => true
  | _ => false

omit [DecidableEq S] in
theorem changes_of_not_rows {e : BinlogEvent S Row} (h : e.isRows = false) : e.changes = [] := by
  obtain ⟨file, logPos, body⟩ := e
  cases body with
  | rotate nextLogName position => rfl
  | rows s rows => cases h
  | other => rfl

/-- The initial wait time runs out before the first row event arrives. -/
def waitRunsOut : List Tick → List (BinlogEvent S Row) → Bool
  | [], _ => false
  | t :: ticks, events =>
    if t.waited then true
    else if t.fetch = .failed then false
    else if t.fetch = .deadline then waitRunsOut ticks events
    else
      match events with
      | [] => waitRunsOut ticks []
      | e :: events => !e.isRows && waitRunsOut ticks events

/-- What a reader that returned nil has done with the events it was given. -/
structure ReadOf (filter : List S) (target cur : Position) (events : List (BinlogEvent S Row))
    (pushed : List (S × Row)) (out : Pass S Row) (done todo : List (BinlogEvent S Row)) : Prop where
  split : events = done ++ todo
  pos : out.currentPos = Log.reached BinlogEvent.endPos cur done
  pushed : out.pushed = pushed ++ delivered BinlogEvent.changes filter done
  stops : target ≤ cur → done = []
  first : ∀ e ∈ events, target ≤ e.endPos → Log.reached BinlogEvent.endPos cur done ≤ e.endPos

/-- What a pass comes to, turn by turn. -/
inductive Runs (filter : List S) (target : Position) : List Tick → List (BinlogEvent S Row) →
    Bool → Position → List (S × Row) → Pass S Row → Prop
  | killed : Runs filter target [] events received cur pushed ⟨cur, pushed, .killed⟩
  /-- The last turn: without an error only at the target, or when the wait has run out. -/
  | ends (exit : Exit)
      (h : if exit = .ok then target ≤ cur ∨ received = false ∧ t.waited = true
        else t.ctxDone = true ∨ t.fetch = .failed) :
      Runs filter target (t :: ticks) events received cur pushed ⟨cur, pushed, exit⟩
  /-- No event arrives. -/
  | waits (hcur : ¬ target ≤ cur) (hwait : received = false → t.waited = false)
      (hfailed : t.fetch ≠ .failed) (h : t.fetch = .deadline ∨ events = [])
      (hrun : Runs filter target ticks events received cur pushed out) :
      Runs filter target (t :: ticks) events received cur pushed out
  /-- An event arrives, and the loop fails. -/
  | fails (pos : Position) (h : t.fetch = .rejected ∧ pos = e.endPos ∨ maxUint32 < e.endPos.pos) :
      Runs filter target (t :: ticks) (e :: events) received cur pushed ⟨pos, pushed, .err⟩
  /-- An event arrives, and the loop goes on behind it. -/
  | reads (hcur : ¬ target ≤ cur) (hwait : received = false → t.waited = false)
      (hfailed : t.fetch ≠ .failed) (hdeadline : t.fetch ≠ .deadline)
      (hrun : Runs filter target ticks events (received || e.isRows) e.endPos
        (pushed ++ e.changes.filter (fun c => decide (c.1 ∈ filter))) out) :
      Runs filter target (t :: ticks) (e :: events) received cur pushed out

section Reader

variable {filter : List S} {target cur : Position} {events : List (BinlogEvent S Row)}
  {pushed : List (S × Row)} {out : Pass S Row} {done todo : List (BinlogEvent S Row)}

theorem ReadOf.nothing (exit : Exit) (hcur : ∀ e ∈ events, cur < e.endPos) :
    ReadOf filter target cur events pushed ⟨cur, pushed, exit⟩ [] events where
  split := rfl
  pos := rfl
  pushed := (append_nil _).symm
  stops := fun _ => rfl
  first := fun e he _ => le_of_lt (hcur e he)

/-- One more event, consumed before the target is reached. -/
theorem ReadOf.cons (hcur : ¬ target ≤ cur)
    (h : ReadOf filter target e.endPos events
      (pushed ++ e.changes.filter (fun c => decide (c.1 ∈ filter))) out done todo) :
    ReadOf filter target cur (e :: events) pushed out (e :: done) todo where
  split := by rw [h.split, cons_append]
  pos := by rw [h.pos, reached_cons]
  pushed := by rw [h.pushed, delivered_cons, append_assoc]
  stops := fun hle => absurd hle hcur
  first := fun d hd htarget => by
    rw [reached_cons]
    rcases mem_cons.1 hd with rfl | hmem
    · -- the reader stops behind the first event at or beyond the target
      rw [h.stops htarget, reached_nil]
    · exact h.first d hmem htarget

theorem streamMessages_runs (hchain : Chained cur events) :
    Runs filter target ticks events received cur pushed
      (streamMessages filter target ticks events received cur pushed) := by
  induction ticks generalizing events received cur pushed with
  | nil => exact .killed
  | cons t ticks ih =>
    unfold streamMessages
    split
    · next hctx => exact .ends _ (.inl hctx)
    split
    · next hwait => exact .ends _ (.inr (by simpa using hwait))
    next hwait =>
    have hnotWaited : received = false → t.waited = false := by simpa using hwait
    split
    · next hcur => exact .ends _ (.inl hcur)
    next hcur =>
    split
    · next hfailed => exact .ends _ (.inr hfailed)
    next hfailed =>
    split
    · next hdeadline => exact .waits hcur hnotWaited hfailed (.inl hdeadline) (ih hchain)
    next hdeadline =>
    cases events with
    | nil => exact .waits hcur hnotWaited hfailed (.inr rfl) (ih hchain)
    | cons e events =>
      have hread : Runs filter target (t :: ticks) (e :: events) received cur pushed _ :=
        .reads hcur hnotWaited hfailed hdeadline (ih hchain.2)
      obtain ⟨file, logPos, body⟩ := e
      obtain rfl : file = cur.name := hchain.1
      cases body with
      | rotate nextLogName position =>
        by_cases hmax : maxUint32 < position
        · simp only [if_pos hmax]
          exact .fails _ (.inr hmax)
        · simpa [hmax, isRows, endPos, changes] using hread
      | rows s rows =>
        by_cases hrej : t.fetch = .rejected
        · simp only [if_pos hrej]
          exact .fails _ (.inl ⟨hrej, rfl⟩)
        · by_cases hs : s ∈ filter
          · simpa [hrej, isRows, endPos, changes, hs, filter_map, Function.comp_def] using hread
          · simpa [hrej, isRows, endPos, changes, hs, filter_map, Function.comp_def] using hread
      | other => simpa [isRows, endPos, changes] using hread

variable {ticks : List Tick} {received : Bool}

/-- A pass that returned nil read a prefix of its events; it reached its target,
or the initial wait time ran out before the first row event and it pushed nothing. -/
theorem Runs.read (h : Runs filter target ticks events received cur pushed out)
    (hafter : ∀ e ∈ events, cur < e.endPos) (hinc : Log.Increasing BinlogEvent.endPos events)
    (hok : out.exit = .ok) : (∃ done todo, ReadOf filter target cur events pushed out done todo) ∧
    (target ≤ out.currentPos ∨
      received = false ∧ waitRunsOut ticks events = true ∧ out.pushed = pushed) := by
  induction h with
  | killed | fails => cases hok
  | ends exit h =>
    rw [if_pos hok] at h
    refine ⟨⟨[], _, .nothing _ hafter⟩, h.imp_right (fun ⟨hrec, hw⟩ => ⟨hrec, ?_, rfl⟩)⟩
    simp [waitRunsOut, hw]
  | waits _ hwait hfailed h _ ih =>
    obtain ⟨hread, hend⟩ := ih hafter hinc hok
    refine ⟨hread, hend.imp_right (fun ⟨hrec, hw, hpushed⟩ => ⟨hrec, ?_, hpushed⟩)⟩
    rcases h with hdeadline | rfl
    · simp [waitRunsOut, hwait hrec, hdeadline, hw]
    · simp [waitRunsOut, hwait hrec, hfailed, hw]
  | reads hcur hwait hfailed hdeadline _ ih =>
    obtain ⟨hlt, hrest⟩ := pairwise_cons.1 hinc
    obtain ⟨⟨done, todo, hread⟩, hend⟩ := ih hlt hrest hok
    refine ⟨⟨_ :: done, todo, hread.cons hcur⟩, hend.imp_right (fun ⟨hrec, hw, hpushed⟩ => ?_)⟩
    obtain ⟨hrec, hrows⟩ := or_eq_false_iff.1 hrec
    refine ⟨hrec, ?_, ?_⟩
    · simp [waitRunsOut, hwait hrec, hfailed, hdeadline, hrows, hw]
    · rw [hpushed, changes_of_not_rows hrows, filter_nil, append_nil]

/-- However a pass ends, it stands behind some of its events. -/
theorem Runs.pos (h : Runs filter target ticks events received cur pushed out)
    (hmax : ∀ e ∈ events, e.endPos.pos ≤ maxUint32) : ∃ done todo, events = done ++ todo ∧
      out.currentPos = Log.reached BinlogEvent.endPos cur done := by
  induction h with
  | killed | ends => exact ⟨[], _, rfl, rfl⟩
  | waits _ _ _ _ _ ih => exact ih hmax
  | fails pos h =>
    rcases h with ⟨_, rfl⟩ | hover
    · exact ⟨[_], _, rfl, rfl⟩
    · exact absurd hover (not_lt.2 (hmax _ mem_cons_self))
  | reads _ _ _ _ _ ih =>
    obtain ⟨done, todo, rfl, hpos⟩ := ih (forall_mem_cons.1 hmax).2
    exact ⟨_ :: done, todo, rfl, hpos⟩

/-- A turn of the loop that nothing disturbs. -/
def quiet : Tick := { ctxDone := false, waited := false, fetch := .event }

omit [DecidableEq S] in
theorem waitRunsOut_quiet (events : List (BinlogEvent S Row)) (hquiet : ∀ t ∈ ticks, t = quiet) :
    waitRunsOut ticks events = false := by
  induction ticks generalizing events with
  | nil => rfl
  | cons t ticks ih =>
    obtain ⟨rfl, hrest⟩ := forall_mem_cons.1 hquiet
    cases events with
    | nil => simp [waitRunsOut, quiet, ih _ hrest]
    | cons e rest => simp [waitRunsOut, quiet, ih _ hrest]

/-- An undisturbed pass towards a position that the log reaches returns nil. -/
theorem Runs.quiet (h : Runs filter target ticks events received cur pushed out)
    (hquiet : ∀ t ∈ ticks, t = MySQL.quiet) (hlen : events.length < ticks.length)
    (hmax : ∀ e ∈ events, e.endPos.pos ≤ maxUint32)
    (hreach : target ≤ cur ∨ ∃ e ∈ events, target ≤ e.endPos) : out.exit = .ok := by
  induction h with
  | killed => simp at hlen
  | ends exit h =>
    obtain ⟨rfl, _⟩ := forall_mem_cons.1 hquiet
    by_contra hne
    rw [if_neg hne] at h
    exact absurd h (by decide)
  | waits hcur _ _ h _ _ =>
    obtain ⟨rfl, _⟩ := forall_mem_cons.1 hquiet
    obtain rfl := h.resolve_left (by decide)
    simp [hcur] at hreach
  | fails pos h =>
    obtain ⟨rfl, _⟩ := forall_mem_cons.1 hquiet
    rcases h with ⟨hrej, _⟩ | hover
    · cases hrej
    · exact absurd hover (not_lt.2 (hmax _ mem_cons_self))
  | reads hcur _ _ _ _ ih =>
    refine ih (forall_mem_cons.1 hquiet).2 (by simpa using hlen) (forall_mem_cons.1 hmax).2 ?_
    obtain ⟨d, hd, htarget⟩ := hreach.resolve_left hcur
    rcases mem_cons.1 hd with rfl | hmem
    · exact .inl htarget
    · exact .inr ⟨d, hmem, htarget⟩

end Reader

end Olake.MySQL
