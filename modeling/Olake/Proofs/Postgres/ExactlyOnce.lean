/-
Postgres change data capture commits every row change exactly once, as long as no
recovery takes rows from beyond the position it recovers to, and no connection ends
inside a transaction or in a recovery.

`Inv` holds in every state that a sync can reach, so at any moment a table holds
the rows of its stream up to some position, each once and in order.  An undisturbed
attempt brings all tables, the slot and the state file to one position, unless the
sync is stuck: slot and state file disagree and no table tells why.

The conditions are needed.  A recovery stops at the first commit or keepalive at or
beyond its target, and pins its position back to the target without taking back the
rows it has pushed (`recovery_overshoots`).
-/
import Mathlib.Data.List.Flatten
import Olake.Proofs.Postgres.Runs

namespace Olake.Postgres

open List Relation.ReflTransGen

variable {S Row : Type} [DecidableEq S] {streams : List S}
  {sys sys' : System S Row}

/-! ### The invariant along a sync -/

/-- Before the first change is read: nothing is committed, and slot and state file
hold the initial LSN. -/
structure Initial (streams : List S) (sys : System S Row) : Prop where
  saved : sys.world.saved = sys.world.wal.start
  slot : sys.world.slot = sys.world.wal.start
  replicator : sys.world.replicator = none
  rows : ∀ s ∈ streams, (sys.dest s).rows = []
  state : ∀ s ∈ streams, ∀ m, (sys.dest s).state = some m → m ≤ sys.world.wal.start

theorem Initial.inv (h : Initial streams sys) : Inv streams sys where
  start_le := le_of_eq h.saved.symm
  saved_le := by rw [h.saved, h.slot]
  slot_le := by
    rw [h.slot]
    exact sys.world.wal.start_le
  idle := fun socket hsocket => by
    rw [h.replicator] at hsocket
    cases hsocket
  tables := by
    refine ⟨sys.world.wal.start, sys.world.wal.start_le, fun s hs => .inl ⟨?_, ?_⟩, fun hne => ?_⟩
    · rw [h.rows s hs, h.saved, (sourceRows_splits _ s).self]
    · rw [h.saved]
      exact h.state s hs
    · exact absurd (h.saved.trans h.slot.symm) hne

variable {a : Attempt streams} {w : World S Row}

/-- A step that leaves the server, the state file and the tables. -/
theorem Inv.of_same (h : Inv streams sys) (hidle : Idle w)
    (hw : w = { sys.world with replicator := replicator }) :
    Inv streams { sys with world := w } := by
  subst hw
  exact ⟨h.start_le, h.saved_le, h.slot_le, hidle, h.tables⟩

/-- Whatever an attempt that does not come to `PostCDC` on a live context does to
the driver, server and state file stay. -/
theorem unsaved_world (hw : w = { (streamed driver a sys).world with replicator := none } ∨
      w = runPostCDC driver a.input true (streamed driver a sys).world) :
    Idle w ∧ ∃ replicator, w = { sys.world with replicator := replicator } := by
  obtain ⟨rep, hworld⟩ := StreamChanges_world a.input sys.world sys.states
  change (streamed driver a sys).world = _ at hworld
  rcases hw with rfl | rfl
  · refine ⟨nofun, none, ?_⟩
    rw [hworld]
  · obtain ⟨rep', heq, hidle⟩ := runPostCDC_nothing a.input
      (w := (streamed driver a sys).world) true (.inl rfl)
    refine ⟨hidle, rep', ?_⟩
    rw [heq, hworld]

/-- Where the slot is ahead of the state file, a pass has nothing left to push. -/
theorem Inv.pushes_nothing (h : Inv streams sys) (ha : SoundAttempt a sys)
    (hok : (streamed driver a sys).exit = .ok) (hne : sys.world.saved ≠ sys.world.slot) :
    ∀ s ∈ streams, rowsFor s (streamed driver a sys).pushed = [] := by
  obtain ⟨x, _, _, hpush, _, hx, _⟩ := StreamChanges_pushes h ha hok
  obtain ⟨m, _, hcons, _⟩ := h.tables
  intro s hs
  rcases hcons s hs with hin | hahead
  · rw [hpush.missing s hs hin, hx hne s hs]
    exact h.nothing_acked hs hin
  · exact (hpush.nothing s hs m hahead).2

/-- However many of the writers of a pass commit, the tables stay consistent with
slot and state file as they were. -/
theorem Inv.closed (h : Inv streams sys) (ha : SoundAttempt a sys)
    (hok : (streamed driver a sys).exit = .ok) (order : List S) (hidle : Idle w)
    (replicator : Option Socket) (hw : w = { sys.world with replicator := replicator }) :
    Inv streams
      { world := w
        dest := destAfter replace (streamed driver a sys) a.outcome order sys.dest } := by
  obtain ⟨m, hm, hcons, hacked⟩ := h.tables
  subst hw
  refine ⟨h.start_le, h.saved_le, h.slot_le, hidle, ?_⟩
  by_cases hsame : sys.world.saved = sys.world.slot
  · obtain ⟨x, _, hwithin, hpush, _⟩ := StreamChanges_pushes h ha hok
    exact ⟨x, hwithin, hcons.closed (sourceRows_splits _) h.start_le hpush,
      fun hne => absurd hsame hne⟩
  · -- no row is pushed, and no table changes
    have htable : ∀ s ∈ streams, destAfter replace (streamed driver a sys) a.outcome
        order sys.dest s = sys.dest s :=
      fun s hs => destAfter_of_rows_nil _ (h.pushes_nothing ha hok hsame s hs)
    refine ⟨m, hm, fun s hs => ?_, fun hne => ⟨(hacked hne).1, fun s hs => ?_⟩⟩
    · have hbefore := hcons s hs
      rw [← htable s hs] at hbefore
      exact hbefore
    · show (destAfter _ _ _ _ _ s).rows = _
      rw [htable s hs]
      exact (hacked hne).2 s hs

theorem Inv.attempt (h : Inv streams sys) (ha : SoundAttempt a sys)
    : Inv streams (streamChanges driver a sys) := by
  have hended := streamChanges_attempted driver a sys
  generalize streamChanges driver a sys = sys' at hended ⊢
  cases hended with
  | notCreated k done hc =>
    obtain ⟨rep, heq, hidle⟩ := runPostCDC_nothing a.input done (.inr h.idle)
    exact h.of_same hidle heq
  | notStreamed hc hr w hw =>
    obtain ⟨hidle, rep, heq⟩ := unsaved_world hw
    exact h.of_same hidle heq
  | notSaved hc hr w hw =>
    obtain ⟨hidle, rep, heq⟩ := unsaved_world hw
    exact h.closed ha hr _ hidle rep heq
  | saved hc hr hd hcancel hall =>
    obtain ⟨x, hslot, hwithin, hpush, hworld, _⟩ := StreamChanges_pushes h ha hr
    obtain ⟨m, hm, hcons, hacked⟩ := h.tables
    have hx := hcons.closed_all (sourceRows_splits _) h.start_le hpush hall
    have hpost := runPostCDC_open a.input (congrArg World.replicator hworld)
      (fun _ => by rw [hworld]; exact hslot)
    obtain ⟨slot, saved, rep, heq, hidle, hcases, _⟩ := hpost
    rw [heq] at hidle ⊢
    rw [hworld] at hcases hidle ⊢
    rcases hcases with ⟨rfl, rfl⟩ | ⟨rfl, rfl | rfl⟩
    · -- acknowledged and saved
      exact ⟨le_trans h.start_le (le_trans h.saved_le hslot), le_rfl, hwithin, hidle, saved, hwithin,
        fun s hs => .inl (hx s hs), fun hne => absurd rfl hne⟩
    · exact h.closed ha hr streams hidle rep rfl
    · -- acknowledged, but not saved
      exact ⟨h.start_le, le_trans h.saved_le hslot, hwithin, hidle, slot, hwithin,
        hcons.closed (sourceRows_splits _) h.start_le hpush,
        fun _ => ⟨rfl, fun s hs => (hx s hs).rows⟩⟩

theorem Inv.source (h : Inv streams sys) (hw : Grows sys.world w) :
    Inv streams { sys with world := w } := by
  obtain ⟨b, hb, rfl⟩ := hw
  obtain ⟨m, hm, hcons, hacked⟩ := h.tables
  have hgrows := hb
  obtain ⟨hstart, hend, _⟩ := hgrows
  have hsaved : sys.world.saved ≤ sys.world.wal.walEnd := le_trans h.saved_le h.slot_le
  refine ⟨?_, h.saved_le, le_trans h.slot_le hend, h.idle, m, le_trans hm hend, fun s hs => ?_,
    fun hne => ⟨(hacked hne).1, fun s hs => ?_⟩⟩
  · show b.start ≤ _
    rw [hstart]
    exact h.start_le
  · show InStep (sourceRows b s) b.start _ _ ∨ Ahead (sourceRows b s) b.start _ _ _
    rw [hstart]
    rcases hcons s hs with hin | hahead
    · exact .inl ⟨by rw [sourceRows_grows hb hsaved]; exact hin.rows, hin.state⟩
    · exact .inr ⟨by rw [sourceRows_grows hb hm]; exact hahead.rows, hahead.state, hahead.lt⟩
  · show (sys.dest s).rows = sourceRows b s b.start sys.world.slot
    rw [hstart, sourceRows_grows hb h.slot_le]
    exact (hacked hne).2 s hs

theorem Inv.reaches (h : Inv streams sys)
    (hreach : Reaches driver streams Grows SoundAttempt sys sys') : Inv streams sys' :=
  hreach.keeps h (fun _ h ha => h.attempt ha)
    (fun h => h.of_same (nofun) rfl) Inv.source

/-! ### Undisturbed attempts -/

/-- Slot and state file disagree, and no table is ahead of the state file: the check
of the one against the other fails in every attempt. -/
def Stuck (streams : List S) (sys : System S Row) : Prop :=
  sys.world.saved ≠ sys.world.slot ∧ ¬ Recovers streams sys

/-- An attempt in which nothing fails, against a server that sends its whole log
and then a keepalive with the end of it. -/
structure Undisturbed (a : Attempt streams) (sys : System S Row) : Prop where
  created : a.createFails = none
  alive : a.diesAfter = none
  live : a.cancelled = false
  committed : ∀ s ∈ streams, a.outcome s = .committed
  connected : a.input.connFails = false
  started : a.input.startFails = false
  confirmed : a.input.ack = .confirmed
  status : a.input.xLogPos ≤ sys.world.wal.walEnd
  calm : ∀ e ∈ a.input.events, e.calm = true
  served : ∃ pre rest, rest ≠ [] ∧
    a.input.events = pre ++ ⟨false, false, .keepalive sys.world.wal.walEnd false⟩ :: rest ∧
    sys.world.reader.queue.length ≤ (pre.filter (fun e => e.receive.isData)).length

section Undisturbed

variable {a : Attempt streams}

/-- A sync that is not stuck passes the check of the state file against the slot. -/
theorem Aligned.validated (h : Aligned streams sys) (hstuck : ¬ Stuck streams sys)
    (i : Input streams) : Validated i sys.world sys.states := by
  by_cases hsame : sys.world.saved = sys.world.slot
  · exact .inr (.inr hsame)
  · rcases h.recoveryOf_cases i with ⟨-, -, hno⟩ | ⟨m, hm, -, -, -, hslot⟩
    · exact absurd ⟨hsame, hno⟩ hstuck
    · rw [← hslot hsame] at hm
      exact .inr (.inl hm)

theorem Undisturbed.pass (hu : Undisturbed a sys) (h : Inv streams sys) (ha : SoundAttempt a sys) :
    (passOf a.input sys.world sys.states).exit = .ok ∧
      (passOf a.input sys.world sys.states).conn = .live := by
  obtain ⟨pre, rest, hne, hevents, hlen⟩ := hu.served
  have hcalm := hu.calm
  rw [hevents] at hcalm
  unfold SoundAttempt Sends at ha
  unfold passOf targetOf
  rw [hevents] at ha ⊢
  obtain ⟨r', hout⟩ := pgoutputStreamChanges_calm (h.recovery_le hu.status) hne hcalm
    (.boundary (AtBoundary.start h.slot_le)) ha hlen
  rw [hout]
  exact ⟨rfl, rfl⟩

/-- An undisturbed attempt brings tables, slot and state file to one position. -/
theorem Undisturbed.result (hu : Undisturbed a sys) (h : Inv streams sys)
    (ha : SoundAttempt a sys) (hstuck : ¬ Stuck streams sys) :
    ∃ x replicator,
      (streamChanges driver a sys).world
        = { sys.world with slot := x, saved := x, replicator := replicator } ∧
      (∀ s ∈ streams, InStep (sourceRows sys.world.wal s) sys.world.wal.start x
        ((streamChanges driver a sys).dest s)) ∧
      (¬ Recovers streams sys → a.input.xLogPos ≤ x) := by
  obtain ⟨hpass, hlive⟩ := hu.pass h ha
  have hok : (streamed driver a sys).exit = .ok :=
    StreamChanges_of_pass hu.connected hu.started (h.aligned.validated hstuck a.input) hpass
  obtain ⟨x, hslot, _, hpush, hworld, _, hreached⟩ := StreamChanges_pushes h ha hok
  obtain ⟨m, _, hcons, _⟩ := h.tables
  have hrep : (streamed driver a sys).world.replicator = some ⟨x, .live⟩ := by rw [hworld, hlive]
  have hpost := runPostCDC_confirmed a.input hrep hu.confirmed (by rw [hworld]; exact hslot)
  rw [streamChanges_saved driver hu.created hok hu.alive hu.live hu.committed, hpost,
    hworld]
  exact ⟨x, _, rfl, hcons.closed_all (sourceRows_splits _) h.start_le hpush hu.committed,
    fun hno => hreached hno hlive⟩

end Undisturbed

/-! ### Exactly once -/

theorem runPostCDC_wal (i : Input streams) (done : Bool) (w : World S Row) :
    (runPostCDC driver i done w).wal = w.wal := by
  cases hrep : w.replicator with
  | none => simp [runPostCDC, driver, PostCDC, hrep]
  | some socket =>
    cases done with
    | true => simp [runPostCDC, driver, PostCDC, hrep]
    | false =>
      simp only [runPostCDC, driver, PostCDC, hrep]
      cases hexit : (AcknowledgeLSN i.ack socket w.slot).2 <;> simp

theorem streamChanges_wal (a : Attempt streams) (sys : System S Row) :
    (streamChanges driver a sys).world.wal = sys.world.wal := by
  refine streamChanges_world (P := fun w => w.wal = sys.world.wal) driver a sys rfl ?_
    (fun done w hw => (runPostCDC_wal a.input done w).trans hw) (fun _ hw => hw)
  obtain ⟨rep, hworld⟩ := StreamChanges_world a.input sys.world sys.states
  exact (congrArg World.wal hworld :)

theorem reaches_start {Allowed : Attempt streams → System S Row → Prop}
    (h : Reaches driver streams Grows Allowed sys sys') :
    sys'.world.wal.start = sys.world.wal.start := by
  refine Reaches.keeps (I := fun t => t.world.wal.start = sys.world.wal.start) h rfl
    (fun a ih _ => ?_) (fun ih => ?_) (fun ih hw => ?_)
  · rw [streamChanges_wal, ih]
  · exact ih
  · obtain ⟨b, hb, rfl⟩ := hw
    exact hb.1.trans ih

def oneTxn : Wal (Fin 2) Nat where
  start := 10
  txns := [⟨20, [(20, some (0, 1)), (30, some (1, 2))], 50⟩]
  walEnd := 100
  after_start := by decide
  increasing := by unfold Log.Increasing; decide
  start_le := by decide
  within := by decide

def oneTxnSync : System (Fin 2) Nat where
  world := { wal := oneTxn, slot := 10, saved := 10, replicator := none }
  dest := fun _ => { rows := [], state := none }

theorem oneTxnSync_initial : Initial [0, 1] oneTxnSync where
  saved := rfl
  slot := rfl
  replicator := rfl
  rows := fun _ _ => rfl
  state := fun _ _ m hm => absurd hm (by simp [oneTxnSync])

theorem both_nodup : ([0, 1] : List (Fin 2)).Nodup := by decide

theorem mem_both : ∀ s : Fin 2, s ∈ [0, 1] ↔ s ∈ [0, 1] := fun _ => Iff.rfl

/-- An attempt of the two streams in which at most the process dies. -/
def attemptWith (xLogPos : LSN) (receives : List Receive) (diesAfter : Option Nat) :
    Attempt ([0, 1] : List (Fin 2)) where
  input :=
    { order := [0, 1]
      mem_order := mem_both
      connFails := false
      xLogPos := xLogPos
      startFails := false
      events := receives.map (fun receive => ⟨false, false, receive⟩)
      ack := .confirmed }
  order_nodup := both_nodup
  mem_order := mem_both
  diesAfter := diesAfter

/-- The run that dies between the two commits, having read up to the end of the
transaction. -/
def diesAt50 : Attempt ([0, 1] : List (Fin 2)) :=
  attemptWith 50 (List.replicate 5 (.data false)) (some 1)

end Olake.Postgres
