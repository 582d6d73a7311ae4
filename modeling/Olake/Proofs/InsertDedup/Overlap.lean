/-
Which syncs dedup the inserts of the overlap.

A sync begins with its flags on, and a backfill may end at any position and come at any
time.  From there, backfills, attempts, restarts and new changes at the source follow in
any order.  The result is about every attempt in every state that is reached, whatever
becomes of it: a row at or before the end of the backfill of its stream is emitted with
the flag on, and never as a plain create.

What the code lacks is a look at the position before it clears the flag.  So the result
holds for the syncs whose commits reach the end of the backfill, which each driver says
in its own terms as `CoversOverlap`, and it fails for a capture instance that starts
inside the overlap.  Of a MongoDB server it is assumed that it reports no token from
before the one it resumes after.  What a driver has saved it never reads again.
-/
import Olake.Proofs.CaptureInstances
import Olake.Proofs.InsertDedup.MongoDB
import Olake.Proofs.InsertDedup.MSSQL
import Olake.Proofs.InsertDedup.MySQL
import Olake.Proofs.InsertDedup.Postgres

namespace Olake

variable {S Row Meta σ In P : Type} [DecidableEq S] [LinearOrder P]

/-- Whatever an attempt emits at or before the end of the backfill of a stream, it emits
with the flag on, and not as a plain create. -/
def OverlapDeduped {streams : List S} (D : DriverInterface S Row Meta σ In) (kind : Row → ChangeKind)
    (cfg : S → StreamConfig) (emittedAt : Row → P) (a : Attempt streams In)
    (L : Synced σ S Row Meta P) : Prop :=
  ∀ s r op, (s, (r, op)) ∈ (streamed (withDedup D kind cfg) a L.sys).pushed →
    emittedAt r ≤ L.backfillEnd s → dedupInsertsOf (L.sys.dest s).state = true ∧ op ≠ .c

/-- The flag of every stream is on: a backfill has turned it on, or nothing has been
committed for the stream. -/
def FlagsOn (L : Synced σ S Row Meta P) : Prop :=
  ∀ s, dedupInsertsOf (L.sys.dest s).state = true

section Forward

variable [LinearOrder Meta] {streams : List S} {D : DriverInterface S Row Meta σ In}
  {kind : Row → ChangeKind} {cfg : S → StreamConfig} {Grows : σ → σ → Prop} {emittedAt : Row → Meta}
  {saved : σ → S → Meta} {Inv : System σ S Row Meta → Prop}
  {Served : Attempt streams In → System σ S Row Meta → Prop}
  {Allowed : Attempt streams In → Synced σ S Row Meta Meta → Prop}

theorem ReadsForward.overlapDeduped (hD : ReadsForward D streams Grows Served emittedAt saved Inv)
    (hAllowed : ∀ a L, Inv L.sys.erase → Allowed a L →
      Served a L.sys.erase ∧ ReachesEnd D a L) (hinv : Inv L₀.sys.erase) (hon : FlagsOn L₀)
    (hreach : SyncReaches D kind cfg streams Grows Allowed L₀ L) (a : Attempt streams In) :
    OverlapDeduped D kind cfg emittedAt a L := by
  have hstart : FlagHolds saved Inv L₀ := ⟨hinv, fun s => .inl (hon s)⟩
  have hflag := hstart.reaches hD hAllowed hreach
  intro s r op hr hend
  exact hflag.not_create hD a hr hend

/-- No position saved in `sys` goes back, and no row at or before it is emitted in a later state. -/
def NeverRereads (D : DriverInterface S Row Meta σ In) (streams : List S) (Grows : σ → σ → Prop)
    (Served : Attempt streams In → System σ S Row Meta → Prop) (emittedAt : Row → Meta)
    (saved : σ → S → Meta) (sys : System σ S Row Meta) : Prop :=
  ∀ sys', Reaches D streams Grows Served sys sys' → ∀ s, saved sys.world s ≤ saved sys'.world s ∧
    ∀ (a : Attempt streams In) r, (s, r) ∈ (streamed D a sys').pushed → saved sys.world s < emittedAt r

theorem ReadsForward.neverRereads (hD : ReadsForward D streams Grows Served emittedAt saved Inv)
    (hinv : Inv sys) : NeverRereads D streams Grows Served emittedAt saved sys := by
  intro sys' hrun
  have hlater : Inv sys' ∧ ∀ s, saved sys.world s ≤ saved sys'.world s := by
    induction hrun with
    | refl => exact ⟨hinv, fun _ => le_rfl⟩
    | tail _ hstep ih =>
      obtain ⟨hinv', hsaved⟩ := hD.step ih.1 hstep
      exact ⟨hinv', fun s => (ih.2 s).trans (hsaved s)⟩
  exact fun s => ⟨hlater.2 s, fun a r hr => (hlater.2 s).trans_lt (hD.pushed hlater.1 a hr).1⟩

end Forward

omit [DecidableEq S] in
theorem MSSQL.Initial.forward (h : MSSQL.Initial streams sys)
    (hstamped : MSSQL.Stamped lsnOf sys.world.tables) : MSSQL.Forward streams lsnOf sys where
  stamped := hstamped
  cursors := by
    refine ⟨fun _ => le_rfl, fun s hs l hl => ?_⟩
    rw [h.lsnMap s hs] at hl
    cases hl

/-- **In a sync whose commits reach the end of the backfill, no insert of the overlap is
emitted as a plain create.** -/
theorem no_create_in_overlap (streams : List S) (kind : Row → ChangeKind) (cfg : S → StreamConfig) :
    (∀ (lsnOf : Row → Nat) (L₀ L : Synced (MSSQL.World S Row) S Row Nat Nat),
      MSSQL.Initial streams L₀.sys.erase → MSSQL.Stamped lsnOf L₀.sys.world.tables → FlagsOn L₀ →
      SyncReaches MSSQL.driver kind cfg streams (MSSQL.StampedGrows lsnOf)
        MSSQL.CoversOverlap L₀ L →
      ∀ a : MSSQL.Attempt streams,
        OverlapDeduped MSSQL.driver kind cfg lsnOf a L) ∧
    (∀ (posOf : Row → MySQL.Position) (L₀ L : Synced (MySQL.World S Row) S Row MySQL.Position
        MySQL.Position),
      MySQL.Initial streams L₀.sys.erase → MySQL.Stamped posOf L₀.sys.world.binlog → FlagsOn L₀ →
      SyncReaches MySQL.driver kind cfg streams (MySQL.StampedGrows posOf)
        MySQL.CoversOverlap L₀ L →
      ∀ a : MySQL.Attempt streams,
        OverlapDeduped MySQL.driver kind cfg posOf a L) ∧
    (∀ (lsnOf : Row → Postgres.LSN) (L₀ L : Synced (Postgres.World S Row) S Row Postgres.LSN
        Postgres.LSN),
      Postgres.Initial streams L₀.sys.erase → Postgres.Stamped lsnOf L₀.sys.world.wal → FlagsOn L₀ →
      SyncReaches Postgres.driver kind cfg streams (Postgres.StampedGrows lsnOf)
        Postgres.CoversOverlap L₀ L →
      ∀ a : Postgres.Attempt streams,
        OverlapDeduped Postgres.driver kind cfg lsnOf a L) ∧
    (∀ (tokenOf : Row → String) (L₀ L : Synced (MongoDB.World S Row) S Row String String),
      MongoDB.Initial streams L₀.sys.erase → MongoDB.Stamped tokenOf L₀.sys.world.oplog → FlagsOn L₀ →
      SyncReaches MongoDB.driver kind cfg streams (MongoDB.StampedGrows tokenOf)
        (fun a L => MongoDB.ServesForward a L.sys.erase ∧ MongoDB.CoversOverlap a L) L₀ L →
      ∀ a : MongoDB.Attempt streams,
        OverlapDeduped MongoDB.driver kind cfg tokenOf a L) := by
  refine ⟨?_, ?_, ?_, ?_⟩
  · intro lsnOf L₀ L hinit hstamped hon hreach a
    exact (MSSQL.readsForward streams lsnOf).overlapDeduped (fun _ _ _ h => ⟨trivial, h.reachesEnd⟩)
      (hinit.forward hstamped) hon hreach a
  · intro posOf L₀ L hinit hstamped hon hreach a
    exact (MySQL.readsForward streams posOf).overlapDeduped (fun _ _ hinv h => ⟨trivial, h.reachesEnd hinv⟩)
      ⟨hinit.aligned, hstamped⟩ hon hreach a
  · intro lsnOf L₀ L hinit hstamped hon hreach a
    exact (Postgres.readsForward streams lsnOf).overlapDeduped (fun _ _ _ h => ⟨trivial, h.reachesEnd⟩)
      ⟨hinit.aligned, hstamped⟩ hon hreach a
  · intro tokenOf L₀ L hinit hstamped hon hreach a
    exact (MongoDB.readsForward streams tokenOf).overlapDeduped
      (fun _ _ _ h => ⟨h.1, h.2.reachesEnd⟩) (hinit.forward hstamped) hon hreach a

/-- **Whatever fails or dies, no driver reads again what it has saved**, from any state of a sync. -/
theorem saved_changes_never_reread (streams : List S) :
    (∀ (lsnOf : Row → Nat) sys, MSSQL.Forward streams lsnOf sys →
      NeverRereads MSSQL.driver streams (MSSQL.StampedGrows lsnOf) (fun (_ : MSSQL.Attempt streams) _ => True) lsnOf
        MSSQL.World.cursor sys) ∧
    (∀ (posOf : Row → MySQL.Position) sys, MySQL.Forward streams posOf sys →
      NeverRereads MySQL.driver streams (MySQL.StampedGrows posOf) (fun (_ : MySQL.Attempt streams) _ => True) posOf
        (fun w _ => w.saved.position) sys) ∧
    (∀ (lsnOf : Row → Postgres.LSN) sys, Postgres.Forward streams lsnOf sys →
      NeverRereads Postgres.driver streams (Postgres.StampedGrows lsnOf)
        (fun (_ : Postgres.Attempt streams) _ => True)
        lsnOf (fun w _ => w.slot) sys) ∧
    ∀ (tokenOf : Row → String) sys, MongoDB.Forward streams tokenOf sys →
      NeverRereads MongoDB.driver streams (MongoDB.StampedGrows tokenOf)
        MongoDB.ServesForward tokenOf MongoDB.World.cursor sys :=
  ⟨fun lsnOf _ => (MSSQL.readsForward streams lsnOf).neverRereads,
    fun posOf _ => (MySQL.readsForward streams posOf).neverRereads,
    fun lsnOf _ => (Postgres.readsForward streams lsnOf).neverRereads,
    fun tokenOf _ => (MongoDB.readsForward streams tokenOf).neverRereads⟩

/-! ### A capture instance that starts inside the overlap -/

section Orders

open MSSQL

/-- Orders 10 and 30 were inserted while the backfill ran, each at the LSN of its number. -/
def ordersTables : ChangeTables Unit Nat where
  changes := fun _ => [⟨10, [⟨2, 10⟩]⟩, ⟨30, [⟨2, 30⟩]⟩]
  maxLSN := 50
  increasing := fun _ => by unfold Log.Increasing; decide
  captured := fun _ => by decide

/-- The cursor was taken at LSN 5. -/
def ordersStart : Synced (World Unit Nat) Unit Nat Nat Nat where
  sys := { world := ⟨ordersTables, fun _ => 5, fun _ => none⟩, dest := fun _ => ⟨[], none⟩ }
  backfillEnd := fun _ => 0

/-- An attempt that finds capture instances at `starts`. -/
def ordersAttempt (starts : List Nat) (outcome : CloseOutcome) : MSSQL.Attempt [()] :=
  { MSSQL.passOver starts with outcome := fun _ => outcome }

def ordersConfig : Unit → StreamConfig :=
  fun _ => { sourceDefinedPrimaryKey := [], selectedColumns := none, resolveUpsertOp := false }

/-- The backfill ends at LSN 40, and an attempt follows. -/
def ordersAfter (a : MSSQL.Attempt [()]) : Synced (World Unit Nat) Unit Nat Nat Nat :=
  { ordersStart.backfilled () 40 with
    sys := streamChanges (withDedup driver (fun _ => .insert) ordersConfig) a
      (ordersStart.backfilled () 40).sys }

theorem ordersStart_initial : Initial [()] ordersStart.sys.erase where
  cursor_le := by decide
  lsnMap := by decide
  rows := fun _ _ => rfl
  state := nofun

theorem ordersTables_stamped : Stamped id ordersTables := by
  intro s
  cases s
  decide

theorem saved_orders_never_reread : NeverRereads driver [()] (StampedGrows id)
    (fun (_ : MSSQL.Attempt [()]) _ => True) id World.cursor ordersStart.sys.erase :=
  (saved_changes_never_reread [()]).1 id _ (ordersStart_initial.forward ordersTables_stamped)

theorem ordersAfter_reaches
    (a : MSSQL.Attempt [()]) (h : Allowed a (ordersStart.backfilled () 40)) :
    SyncReaches driver (fun _ => .insert) ordersConfig [()] (StampedGrows id) Allowed
      ordersStart (ordersAfter a) :=
  (Relation.ReflTransGen.single (.backfill () 40)).tail (.attempt a h)

/-- With one capture instance, an attempt whose commit fails is repeated with the flag on. -/
theorem no_create_after_failed_commit :
    ((), (30, OpType.i)) ∈ (streamed (withDedup driver (fun _ => .insert) ordersConfig)
        (ordersAttempt [0] .committed) (ordersAfter (ordersAttempt [0] .failed)).sys).pushed ∧
      CoversOverlap (ordersAttempt [0] .committed) (ordersAfter (ordersAttempt [0] .failed)) ∧
      OverlapDeduped driver (fun _ => .insert) ordersConfig id
        (ordersAttempt [0] .committed) (ordersAfter (ordersAttempt [0] .failed)) := by
  refine ⟨by decide, ?_, ?_⟩
  · intro _ _ _ _ starts captureIdx startLSN hstarts hsel _
    cases hstarts
    cases hsel
    exact ⟨by decide, nofun⟩
  · refine (no_create_in_overlap [()] (fun _ => .insert) ordersConfig).1 id ordersStart _
      ordersStart_initial ordersTables_stamped (fun _ => rfl) (ordersAfter_reaches _ ?_) _
    intro hcommits
    exact absurd hcommits.2 (by decide)

/-- The second capture instance starts at LSN 20, so the first attempt ends there and
turns the flag off.  The next one emits order 30, which the backfill has written, as a
plain create. -/
theorem plain_create_in_overlap :
    Initial [()] ordersStart.sys.erase ∧ Stamped id ordersStart.sys.world.tables ∧
      FlagsOn ordersStart ∧
      SyncReaches driver (fun _ => .insert) ordersConfig [()] (StampedGrows id)
        (fun (_ : MSSQL.Attempt [()]) _ => True) ordersStart (ordersAfter (ordersAttempt [0, 20] .committed)) ∧
      ((), (30, OpType.c)) ∈ (streamed (withDedup driver (fun _ => .insert) ordersConfig)
        (ordersAttempt [0, 20] .committed)
        (ordersAfter (ordersAttempt [0, 20] .committed)).sys).pushed ∧
      30 ≤ (ordersAfter (ordersAttempt [0, 20] .committed)).backfillEnd () :=
  ⟨ordersStart_initial, ordersTables_stamped, fun _ => rfl, ordersAfter_reaches _ trivial,
    by decide, by decide⟩

end Orders

end Olake
