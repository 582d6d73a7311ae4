/-
The position a recovery reads to, where every run selects streams of its own.

Both drivers that keep one position for all streams take it from whichever table they
find ahead of the state file last, in the order of a Go map.  A run that is given other
streams than the one before does not see the tables that run left ahead; it reads on
from the saved position and may leave its own tables ahead at a later one.

As long as every run selects the streams whose tables are ahead (`Covers`), those are
all at one position, and the order does not matter.  For Postgres this is part of
`Postgres.Aligned`.  For MySQL the connection of a failed attempt is in the way: a later
attempt of the same process that cannot create its writers saves that connection's
position.  It is never behind the state file (`MySQL.Aligned.conn`), so no table comes to
be ahead by that.
-/
import Olake.Proofs.MySQL.ExactlyOnce
import Olake.Proofs.Postgres.Resume

namespace Olake

open Log Relation.ReflTransGen

/-! ### Selections of streams -/

section Selections

variable {S Row P σ : Type} [DecidableEq S] {In : List S → Type}

/-- What any number of steps leads to, each of a run over streams that `Selects` allows. -/
def ReachesSelecting (D : ∀ streams, DriverInterface S Row P σ (In streams)) (Grows : σ → σ → Prop)
    (Selects : List S → System σ S Row P → Prop) : System σ S Row P → System σ S Row P → Prop :=
  Relation.ReflTransGen fun sys sys' =>
    ∃ streams, Selects streams sys ∧ Step (D streams) streams Grows (fun _ _ => True) sys sys'

variable [LinearOrder P] {position : σ → P} {all streams : List S} {sys : System σ S Row P}

/-- The streams of a run: no others than `all`, and of these every one whose table is
ahead of the state file. -/
structure Covers (position : σ → P) (all streams : List S) (sys : System σ S Row P) : Prop where
  subset : ∀ s ∈ streams, s ∈ all
  ahead : ∀ s ∈ all, IsAhead (position sys.world) sys.states s → s ∈ streams

omit [DecidableEq S] in
theorem Covers.aheadAt_iff (h : Covers position all streams sys) :
    AheadAt streams (position sys.world) sys.states m ↔
      AheadAt all (position sys.world) sys.states m :=
  ⟨fun hm s hs hahead => hm s (h.ahead s hs hahead) hahead, fun hm s hs => hm s (h.subset s hs)⟩

/-- An attempt that does not move the state file back leaves no other table ahead. -/
theorem Covers.attempt (h : Covers position all streams sys) (a : Attempt streams In')
    (hle : position sys.world ≤ position (streamChanges D a sys).world) :
    Covers position all streams (streamChanges D a sys) := by
  refine ⟨h.subset, fun s hs ⟨m, hm, hlt⟩ => ?_⟩
  by_contra hout
  rw [System.states, streamChanges_of_notMem D a sys hout] at hm
  exact hout (h.ahead s hs ⟨m, hm, hle.trans_lt hlt⟩)

/-- What attempts over covering streams keep, with the state file never going back, and
what does not depend on the streams as long as they cover the tables ahead. -/
theorem ReachesSelecting.keeps {A : List S → System σ S Row P → Prop}
    (hreach : ReachesSelecting D Grows (Covers position all) sys sys') (h : A all sys)
    (hiff : ∀ {streams sys}, Covers position all streams sys → (A streams sys ↔ A all sys))
    (hattempt : ∀ {streams sys} (a : Attempt streams (In streams)), A streams sys →
      A streams (streamChanges (D streams) a sys) ∧
        position sys.world ≤ position (streamChanges (D streams) a sys).world)
    (hrestart : ∀ {streams sys}, A all sys → A all { sys with world := (D streams).newProcess sys.world })
    (hsource : ∀ {sys w}, A all sys → Grows sys.world w → A all { sys with world := w }) :
    A all sys' := by
  induction hreach with
  | refl => exact h
  | tail _ hstep ih =>
    obtain ⟨streams, hcovers, hstep⟩ := hstep
    cases hstep with
    | attempt a _ =>
      obtain ⟨hkept, hle⟩ := hattempt a ((hiff hcovers).2 ih)
      exact (hiff (hcovers.attempt a hle)).1 hkept
    | restart => exact hrestart ih
    | source hw => exact hsource ih hw

end Selections

/-! ### MySQL -/

namespace MySQL

variable {S Row : Type} {streams : List S}
  {sys sys' : System S Row} {a : Attempt streams}

/-- The tables ahead of the state file are at one position, which is the end of an
event; the position of a connection left open is not behind the state file. -/
structure Aligned (streams : List S) (sys : System S Row) : Prop where
  saved : sys.world.binlog.Boundary sys.world.saved.position
  conn : ∀ c, sys.world.binlogConn = some c → sys.world.binlog.Boundary c.currentPos ∧
    sys.world.saved.position ≤ c.currentPos
  ahead : ∃ m, sys.world.binlog.Boundary m ∧
    AheadAt streams sys.world.saved.position sys.states m

theorem Initial.aligned (h : Initial streams sys) : Aligned streams sys where
  saved := .inl h.saved
  conn := fun c hc => by
    rw [h.conn] at hc
    cases hc
  ahead := by
    refine ⟨sys.world.binlog.start, .inl rfl, fun s hs ⟨m, hm, hlt⟩ => ?_⟩
    rw [h.saved] at hlt
    exact absurd hlt (not_lt.2 (h.state s hs m hm))

variable [DecidableEq S] {w : World S Row}

/-- However a pass ends, it stands at the end of an event, not behind the state file. -/
theorem passTo_boundary (hsaved : w.binlog.Boundary w.saved.position) (target : Position) :
    w.binlog.Boundary (passTo i w states target).currentPos ∧
      w.saved.position ≤ (passTo i w states target).currentPos := by
  obtain ⟨done, todo, hsplit, hpos⟩ := (passTo_runs target hsaved).pos
    (fun e he => (w.binlog.named e (mem_after.1 he).1).2.2)
  rw [hpos]
  exact boundary_reached hsaved hsplit

variable (h : Aligned streams sys)
include h

/-- What a call leaves in the connection is not behind the state file. -/
theorem Aligned.streamed_world : ∃ conn,
    (streamed driver a sys).world = { sys.world with binlogConn := conn } ∧
      ∀ c, conn = some c → sys.world.binlog.Boundary c.currentPos ∧
        sys.world.saved.position ≤ c.currentPos := by
  refine StreamChanges_world _ _ _ h.conn ⟨h.saved, le_rfl⟩ (passTo_boundary h.saved) fun target => ?_
  obtain ⟨m, hm, hahead⟩ := h.ahead
  unfold posAfter
  rcases metadataOf_cases h.saved hm hahead a.input with ⟨hnone, -⟩ | ⟨heq, hname, -, hlt, -⟩
  · rw [hnone]
    exact passTo_boundary h.saved target
  · rw [heq, if_pos hname]
    exact ⟨hm, le_of_lt hlt⟩

/-- A call that returned nil leaves a position that every table ahead is at. -/
theorem Aligned.finished (hok : (streamed driver a sys).exit = .ok) :
    ∃ x id, sys.world.binlog.Boundary x ∧ sys.world.saved.position ≤ x ∧
      (∀ s, (streamed driver a sys).final s = some x) ∧
      (streamed driver a sys).world = { sys.world with binlogConn := some ⟨id, x⟩ } ∧
      AheadAt streams sys.world.saved.position sys.states x := by
  obtain ⟨conn, hworld, hconn⟩ := h.streamed_world (a := a)
  obtain ⟨target, -, -, heq⟩ := StreamChanges_ok hok
  change streamed driver a sys = _ at heq
  rw [heq] at hworld ⊢
  obtain ⟨hx, hle⟩ := hconn _ (congrArg World.binlogConn hworld).symm
  refine ⟨_, _, hx, hle, fun _ => rfl, rfl, ?_⟩
  obtain ⟨m, hm, hahead⟩ := h.ahead
  rcases metadataOf_cases h.saved hm hahead a.input with ⟨-, hno⟩ | ⟨hmeta, hname, -⟩
  · exact fun s hs h' => absurd ⟨s, hs, h'⟩ hno
  · unfold posAfter
    rw [hmeta, if_pos hname]
    exact hahead

/-- No attempt, wherever it ends, leaves the positions unaligned, or the state file behind. -/
theorem Aligned.attempted (a : Attempt streams) :
    Aligned streams (streamChanges driver a sys) ∧
      sys.world.saved.position ≤ (streamChanges driver a sys).world.saved.position := by
  have hended := streamChanges_attempted driver a sys
  generalize streamChanges driver a sys = sys' at hended ⊢
  cases hended with
  | notCreated k done hc =>
    rcases runPostCDC_cases a.input done sys.world with heq | ⟨-, c, hconn, heq⟩
    · rw [heq]
      exact ⟨h, le_rfl⟩
    · -- the position of the open connection is saved
      obtain ⟨hc, hle⟩ := h.conn c hconn
      obtain ⟨m, hm, hahead⟩ := h.ahead
      rw [heq]
      refine ⟨⟨hc, fun c' hc' => ?_, m, hm, fun s hs ⟨y, hy, hlt⟩ => ?_⟩, hle⟩
      · obtain rfl := Option.some.inj (hconn.symm.trans hc')
        exact ⟨hc, le_rfl⟩
      · exact hahead s hs ⟨y, hy, lt_of_le_of_lt hle hlt⟩
  | notStreamed hc hr w hw =>
    obtain ⟨conn, rfl, hconn⟩ := unsaved_world h.streamed_world hw
    exact ⟨⟨h.saved, hconn, h.ahead⟩, le_rfl⟩
  | notSaved hc hr w hw =>
    obtain ⟨conn, rfl, hconn⟩ := unsaved_world h.streamed_world hw
    obtain ⟨x, id, hx, -, hfinal, -, hahead⟩ := h.finished hr
    exact ⟨⟨h.saved, hconn, x, hx, hahead.closed hfinal⟩, le_rfl⟩
  | saved hc hr hd hcancel hall =>
    obtain ⟨x, id, hx, hle, hfinal, hworld, hahead⟩ := h.finished hr
    rw [runPostCDC_some a.input (congrArg World.binlogConn hworld), hworld]
    refine ⟨⟨hx, fun c hc => ?_, x, hx, fun s hs h' => ?_⟩, hle⟩
    · cases hc
      exact ⟨hx, le_rfl⟩
    · exact absurd h' (hahead.not_ahead hfinal hle hs)

omit [DecidableEq S] in
theorem Aligned.restart :
    Aligned streams { sys with world := { sys.world with binlogConn := none } } :=
  ⟨h.saved, nofun, h.ahead⟩

omit [DecidableEq S] in
theorem Aligned.source (hw : Grows sys.world w) : Aligned streams { sys with world := w } := by
  obtain ⟨b, hb, rfl⟩ := hw
  obtain ⟨m, hm, hahead⟩ := h.ahead
  exact ⟨h.saved.grows hb, fun c hc => ⟨(h.conn c hc).1.grows hb, (h.conn c hc).2⟩,
    m, hm.grows hb, hahead⟩

omit h [DecidableEq S] in
theorem aligned_iff (h : Covers (fun w : World S Row => w.saved.position) all streams sys) :
    Aligned streams sys ↔ Aligned all sys :=
  ⟨fun ⟨hsaved, hconn, m, hm, hahead⟩ => ⟨hsaved, hconn, m, hm, h.aheadAt_iff.1 hahead⟩,
    fun ⟨hsaved, hconn, m, hm, hahead⟩ => ⟨hsaved, hconn, m, hm, h.aheadAt_iff.2 hahead⟩⟩

end MySQL

/-! ### Postgres -/

namespace Postgres

variable {S Row : Type} {streams : List S} {sys : System S Row}

theorem aligned_iff (h : Covers (fun w : World S Row => w.saved) all streams sys) :
    Aligned streams sys ↔ Aligned all sys := by
  have hrecovers : Recovers streams sys ↔ Recovers all sys :=
    ⟨fun ⟨s, hs, hahead⟩ => ⟨s, h.subset s hs, hahead⟩,
      fun ⟨s, hs, hahead⟩ => ⟨s, h.ahead s hs hahead, hahead⟩⟩
  exact ⟨fun ⟨hidle, hle, m, hm, hslot⟩ =>
      ⟨hidle, hle, m, h.aheadAt_iff.1 hm, fun hne hrec => hslot hne (hrecovers.2 hrec)⟩,
    fun ⟨hidle, hle, m, hm, hslot⟩ =>
      ⟨hidle, hle, m, h.aheadAt_iff.2 hm, fun hne hrec => hslot hne (hrecovers.1 hrec)⟩⟩

end Postgres

/-! ### Both drivers -/

section Agree

variable {S Row P : Type} [LinearOrder P] {streams : List S}

/-- The positions ahead of the saved one are equal, and whatever the order in which
the tables are looked at, the recovery position comes out the same. -/
def Agree (zero : P) (streams : List S) (saved : P) (states : S → Option P) : Prop :=
  (∀ s ∈ streams, ∀ t ∈ streams, ∀ x y, states s = some x → states t = some y →
      saved < x → saved < y → x = y) ∧
    ∀ order order' : List S, (∀ s, s ∈ order ↔ s ∈ streams) → (∀ s, s ∈ order' ↔ s ∈ streams) →
      (readMetadata zero saved states order).1 = (readMetadata zero saved states order').1

theorem AheadAt.agree (zero : P)
    (h : AheadAt streams saved states m) : Agree zero streams saved states := by
  refine ⟨fun s hs t ht x y hx hy hsx hty => ?_, fun order order' horder horder' => ?_⟩
  · have hxm := hx.symm.trans (h s hs ⟨x, hx, hsx⟩)
    have hym := hy.symm.trans (h t ht ⟨y, hy, hty⟩)
    exact Option.some.inj (hxm.trans hym.symm)
  · rcases h.recoveryPos zero horder with ⟨heq, hno⟩ | ⟨heq, -, -, hahead⟩
    · rcases h.recoveryPos zero horder' with ⟨heq', -⟩ | ⟨-, -, -, hahead⟩
      · rw [heq, heq']
      · exact absurd hahead hno
    · rcases h.recoveryPos zero horder' with ⟨-, hno⟩ | ⟨heq', -⟩
      · exact absurd hahead hno
      · rw [heq, heq']

/-- In every state that runs and crashes of the Postgres or of the MySQL driver reach, each
over streams of its own that cover the tables ahead, the metadata positions ahead of the
state file agree. -/
theorem ahead_positions_agree [DecidableEq S] (all : List S) :
    (∀ sys₀ sys : Postgres.System S Row, Postgres.Initial all sys₀ →
      ReachesSelecting (@Postgres.driver S Row _) Postgres.Grows
        (Covers (fun w : Postgres.World S Row => w.saved) all) sys₀ sys →
      Agree 0 all sys.world.saved (fun s => (sys.dest s).state)) ∧
    ∀ sys₀ sys : MySQL.System S Row, MySQL.Initial all sys₀ →
      ReachesSelecting (@MySQL.driver S Row _) MySQL.Grows
        (Covers (fun w : MySQL.World S Row => w.saved.position) all) sys₀ sys →
      Agree ⟨0, 0⟩ all sys.world.saved.position (fun s => (sys.dest s).state) := by
  refine ⟨fun sys₀ sys hinit hreach => ?_, fun sys₀ sys hinit hreach => ?_⟩
  · have haligned := hreach.keeps hinit.aligned Postgres.aligned_iff (fun a h => h.attempted a)
      Postgres.Aligned.restart Postgres.Aligned.source
    obtain ⟨m, hm, -⟩ := haligned.ahead
    exact hm.agree 0
  · have haligned := hreach.keeps hinit.aligned MySQL.aligned_iff (fun a h => h.attempted a)
      MySQL.Aligned.restart MySQL.Aligned.source
    obtain ⟨m, -, hm⟩ := haligned.ahead
    exact hm.agree ⟨0, 0⟩

end Agree

/-! ### Runs over two streams and over one -/

namespace MySQL

/-- A run over both streams that dies after it has closed the first writers. -/
def overBoth (closed : Nat) : Attempt ([0, 1] : List (Fin 2)) :=
  attemptWith (List.replicate 5 quiet) (some closed)

/-- A run over stream 1 alone, to (1, 400), that dies after it has closed its writer. -/
def overOne : Attempt ([1] : List (Fin 2)) where
  input := ⟨[1], fun _ => Iff.rfl, false, some ⟨1, 400⟩, false, List.replicate 5 quiet⟩
  diesAfter := some 1

/-- The log with two more rows. -/
def fourRows : Binlog (Fin 2) Nat where
  start := ⟨1, 4⟩
  events := [⟨1, 100, .rows 0 [10]⟩, ⟨1, 200, .rows 1 [20]⟩, ⟨1, 300, .rows 0 [30]⟩, ⟨1, 400, .rows 1 [40]⟩]
  after_start := by decide
  increasing := by unfold Log.Increasing; decide
  chained := ⟨rfl, rfl, rfl, rfl, trivial⟩
  named := by decide

/-- The sync after a run over both streams, and with the two rows. -/
def grownSync (closed : Nat) : System (Fin 2) Nat :=
  let sys := streamChanges driver (overBoth closed) twoRowsSync
  { sys with world := { sys.world with binlog := fourRows } }

theorem grownSync_step (closed : Nat) (streams : List (Fin 2)) :
    Step driver streams Grows (fun (_ : Attempt streams) _ => True)
      (streamChanges driver (overBoth closed) twoRowsSync) (grownSync closed) := by
  refine .source ⟨fourRows, ?_, rfl⟩
  rw [streamChanges_binlog]
  exact ⟨rfl, [⟨1, 300, .rows 0 [30]⟩, ⟨1, 400, .rows 1 [40]⟩], rfl⟩

end MySQL

/-- The first run dies with the table of stream 0 ahead at (1, 200), a run over stream 1
alone with that of stream 1 ahead at (1, 400).  What the next run over both reads to depends
on the order of the map, and from (1, 400) on the row 30 of stream 0 is never read. -/
theorem selections_leave_positions_apart :
    let sys := streamChanges MySQL.driver MySQL.overOne (MySQL.grownSync 1)
    let next := streamChanges MySQL.driver
      (MySQL.attemptWith (List.replicate 5 MySQL.quiet) none) sys
    MySQL.Initial [0, 1] MySQL.twoRowsSync ∧
      ReachesSelecting (@MySQL.driver (Fin 2) Nat _) MySQL.Grows (fun streams _ => ∀ s ∈ streams, s ∈ [0, 1])
        MySQL.twoRowsSync sys ∧
      sys.world.saved.position = ⟨1, 4⟩ ∧ sys.states 0 = some ⟨1, 200⟩ ∧ sys.states 1 = some ⟨1, 400⟩ ∧
      (readMetadata ⟨0, 0⟩ sys.world.saved.position sys.states [0, 1]).1 = ⟨1, 400⟩ ∧
      (readMetadata ⟨0, 0⟩ sys.world.saved.position sys.states [1, 0]).1 = ⟨1, 200⟩ ∧
      ¬ Agree ⟨0, 0⟩ [0, 1] sys.world.saved.position sys.states ∧
      next.world.saved.position = ⟨1, 400⟩ ∧ (next.dest 0).rows = [10] := by
  intro sys next
  have hreach : ReachesSelecting (@MySQL.driver (Fin 2) Nat _) MySQL.Grows
      (fun streams _ => ∀ s ∈ streams, s ∈ [0, 1])
      MySQL.twoRowsSync sys :=
    ((single ⟨[0, 1], fun _ hs => hs, .attempt _ trivial⟩).tail
      ⟨[], by simp, MySQL.grownSync_step 1 []⟩).tail ⟨[1], by simp, .attempt _ trivial⟩
  refine ⟨MySQL.twoRowsSync_initial, hreach, by decide, by decide, by decide, by decide, by decide,
    fun h => ?_, by decide, by decide⟩
  exact absurd (h.1 0 (by simp) 1 (by simp) ⟨1, 200⟩ ⟨1, 400⟩ (by decide) (by decide) (by decide) (by decide))
    (by decide)

/-- A run of Postgres that dies with both tables ahead; and a run over both streams of MySQL
that commits nothing, with a run over stream 1 after it. -/
theorem ahead_positions_agree_after_crash :
    let pg := streamChanges Postgres.driver
      (Postgres.attemptWith 50 (List.replicate 5 (.data false)) (some 2)) Postgres.oneTxnSync
    let my := streamChanges MySQL.driver MySQL.overOne (MySQL.grownSync 0)
    (pg.dest 0).state = some 50 ∧ (pg.dest 1).state = some 50 ∧
      Agree 0 [0, 1] pg.world.saved pg.states ∧
      (my.dest 0).state = none ∧ (my.dest 1).state = some ⟨1, 400⟩ ∧
      Agree ⟨0, 0⟩ [0, 1] my.world.saved.position my.states := by
  have hnone : ∀ s, (MySQL.grownSync 0).states s = none := by decide
  refine ⟨by decide, by decide, ?_, by decide, by decide, ?_⟩
  · exact (ahead_positions_agree [0, 1]).1 _ _ Postgres.oneTxnSync_initial
      (single ⟨[0, 1], ⟨fun _ hs => hs, fun _ hs _ => hs⟩, .attempt _ trivial⟩)
  · refine (ahead_positions_agree [0, 1]).2 _ _ MySQL.twoRowsSync_initial
      (((single ⟨[0, 1], ⟨fun _ hs => hs, fun _ hs _ => hs⟩, .attempt _ trivial⟩).tail
        ⟨[0, 1], ⟨fun _ hs => hs, fun _ hs _ => hs⟩, MySQL.grownSync_step 0 _⟩).tail
        ⟨[1], ⟨by simp, fun s _ ⟨m, hm, _⟩ => ?_⟩, .attempt _ trivial⟩)
    cases (hnone s).symm.trans hm

end Olake
