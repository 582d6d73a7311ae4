/-
SQL Server: a cursor in the state file never passes a change that is not committed,
as long as no writer fails to be created while `lsnMap` holds an LSN that was not
saved.

The invariant is the one-table picture of `Proofs/SharedPosition.lean` for each
stream with a cursor of its own.  `lsnMap` survives a failed attempt, so the
invariant also has to say what it can hold: never less than the cursor, and never
more than the capture agent has reached.  That is why an attempt that finds no
changes yet saves nothing new, although it saves what an earlier one has left.
-/
import Olake.Model.MSSQL
import Olake.Proofs.SharedPosition

namespace Olake.MSSQL

open List Function Option

variable {S Row : Type}

/-! ### What a pass reads -/

variable (t : ChangeTables S Row)

/-- The rows of stream `s` that the change tables hold after `p` and up to `q`. -/
def sourceRows (s : S) (p q : Nat) : List Row :=
  (Log.between Change.lsn p q (t.changes s)).flatMap Change.emitted

theorem sourceRows_splits (s : S) : Splits (sourceRows t s) := by
  intro p q r hpq hqr
  unfold sourceRows
  rw [Log.between_split (t.increasing s) hpq hqr, flatMap_append]

variable {t}

theorem sourceRows_grows (h : t.Grows t')
    (hq : q ≤ t.maxLSN) (s : S) (p : Nat) : sourceRows t' s p q = sourceRows t s p q := by
  obtain ⟨new, hnew, hlt⟩ := h.2 s
  unfold sourceRows
  rw [hnew, Log.between_extend (fun c hc => lt_of_le_of_lt hq (hlt c hc))]

theorem changesInLSNRange_eq_between (changes : List (Change Row)) (h : startLSN ≤ fromLSN) (toLSN : Nat) :
    changesInLSNRange changes startLSN fromLSN toLSN = Log.between Change.lsn fromLSN toLSN changes := by
  unfold changesInLSNRange Log.between advanceLSN
  congr 1
  funext c
  rw [decide_eq_decide]
  omega

variable (t)

theorem fetch_eq_sourceRows (s : S) (h : startLSN ≤ fromLSN) (toLSN : Nat) :
    fetchTableChangesInLSNRange (t.changes s) startLSN fromLSN toLSN
      = sourceRows t s fromLSN toLSN := by
  rw [fetchTableChangesInLSNRange, changesInLSNRange_eq_between _ h]
  rfl

theorem newestValidInstance_none (h : newestValidInstance instances currentLSN = none)
    (hl : l ∈ instances) : currentLSN < l := by
  induction instances with
  | nil => cases hl
  | cons a rest ih =>
    unfold newestValidInstance at h
    split at h
    · cases h
    · rename_i hrec
      split at h
      · cases h
      · rename_i hlt
        rcases mem_cons.1 hl with rfl | hmem
        · exact not_le.1 hlt
        · exact ih hrec hmem

/-- The instance selected starts at or before the current LSN, the next one after it. -/
theorem newestValidInstance_spec
    (h : newestValidInstance instances currentLSN = some (i, startLSN)) :
    instances[i]? = some startLSN ∧ startLSN ≤ currentLSN ∧
      ∀ l, instances[i + 1]? = some l → currentLSN < l := by
  induction instances generalizing i startLSN with
  | nil => cases h
  | cons a rest ih =>
    unfold newestValidInstance at h
    split at h
    · rename_i i' l' hrec
      obtain ⟨rfl, rfl⟩ := Prod.mk.inj (some.inj h)
      simpa using ih hrec
    · rename_i hrec
      split at h
      · rename_i hle
        obtain ⟨rfl, rfl⟩ := Prod.mk.inj (some.inj h)
        exact ⟨rfl, hle, fun l hl => newestValidInstance_none hrec (mem_of_getElem? hl)⟩
      · cases h

theorem clampTarget_bounds (h : newestValidInstance instances currentLSN = some (i, startLSN))
    (hmax : currentLSN < maxLSN) :
    currentLSN < clampTarget instances i maxLSN ∧ clampTarget instances i maxLSN ≤ maxLSN := by
  unfold clampTarget
  split
  · exact ⟨hmax, le_rfl⟩
  · rename_i l hl
    split
    · rename_i hlt
      exact ⟨(newestValidInstance_spec h).2.2 l hl, le_of_lt hlt⟩
    · exact ⟨hmax, le_rfl⟩

/-! ### One call of StreamChanges -/

section Stream

variable [DecidableEq S] {streams : List S}

/-- `lsnMap` after an LSN has been stored for stream `s`. -/
def World.store (w : World S Row) (s : S) (lsn : Nat) : World S Row :=
  { w with lsnMap := Function.update w.lsnMap s (some lsn) }

/-- A capture instance is selected whose changes can be fetched, and `x` is the target. -/
def Targets (i : Input streams) (w : World S Row) (x : Nat) : Prop :=
  i.fetch = .ok ∧ ∃ starts captureIdx startLSN, i.captureInstances = some starts ∧
    newestValidInstance starts (w.cursor i.stream) = some (captureIdx, startLSN) ∧
    x = clampTarget starts captureIdx w.tables.maxLSN

inductive StreamedAs (i : Input streams) (w : World S Row) (states : S → Option Nat) :
    Streamed (World S Row) S Row Nat → Prop
  | failed (exit : Exit) (hexit : exit ≠ .ok) :
      StreamedAs i w states ⟨w, [], fun _ => none, exit⟩
  /-- The table is ahead of the cursor: its LSN is taken over. -/
  | recovered (m : Nat) (hm : states i.stream = some m) (hlt : w.cursor i.stream < m) :
      StreamedAs i w states ⟨w.store i.stream m, [], fun _ => some m, .ok⟩
  /-- The capture agent has not passed the cursor. -/
  | noChanges (hm : ∀ m, states i.stream = some m → m ≤ w.cursor i.stream)
      (hmax : w.tables.maxLSN ≤ w.cursor i.stream) :
      StreamedAs i w states ⟨w, [], fun _ => none, .ok⟩
  /-- The changes after the cursor and up to `x` are read. -/
  | forward (x : Nat) (hm : ∀ m, states i.stream = some m → m ≤ w.cursor i.stream)
      (hlt : w.cursor i.stream < x) (hmax : x ≤ w.tables.maxLSN) (htarget : Targets i w x) :
      StreamedAs i w states
        ⟨w.store i.stream x,
          (sourceRows w.tables i.stream (w.cursor i.stream) x).map (fun r => (i.stream, r)),
          fun _ => some x, .ok⟩

theorem streamForward_as (i : Input streams) (w : World S Row) (states : S → Option Nat)
    (hm : ∀ m, states i.stream = some m → m ≤ w.cursor i.stream) :
    StreamedAs i w states (streamForward i w) := by
  unfold streamForward
  dsimp only
  split
  · exact .failed .err (by decide)
  split
  · rename_i hmax
    exact .noChanges hm hmax
  rename_i hmax
  split
  · exact .failed .err (by decide)
  rename_i hstarts
  split
  · exact .failed .err (by decide)
  rename_i hsel
  split
  · rename_i hfetch
    exact .failed i.fetch hfetch
  rename_i hfetch
  obtain ⟨hlt, hle⟩ := clampTarget_bounds hsel (not_le.1 hmax)
  rw [fetch_eq_sourceRows w.tables i.stream (newestValidInstance_spec hsel).2.1]
  exact .forward _ hm hlt hle ⟨not_not.1 hfetch, _, _, _, hstarts, hsel, rfl⟩

theorem StreamChanges_as (i : Input streams) (w : World S Row) (states : S → Option Nat) :
    StreamedAs i w states (StreamChanges i w states) := by
  unfold StreamChanges
  split
  · rename_i hnone
    refine streamForward_as i w states (fun m hm => ?_)
    rw [hnone] at hm
    cases hm
  · rename_i mtState hsome
    split
    · rename_i hlt
      exact .recovered mtState hsome hlt
    · rename_i hge
      refine streamForward_as i w states (fun m hm => ?_)
      rw [hsome] at hm
      rw [← some.inj hm]
      exact not_lt.1 hge

theorem streamed_as (a : Attempt streams) (sys : System S Row) :
    StreamedAs a.input sys.world sys.states (streamed driver a sys) :=
  StreamChanges_as a.input sys.world sys.states

/-! ### The invariant -/

/-- One table with its cursor: in step with it, or ahead at an LSN that the
capture agent has reached. -/
def Tracks (s : S) (start cursor : Nat) (table : Table Row Nat) : Prop :=
  InStep (sourceRows t s) start cursor table ∨
    ∃ m, m ≤ t.maxLSN ∧ Ahead (sourceRows t s) start cursor m table

structure Inv (streams : List S) (start : S → Nat) (sys : System S Row) : Prop where
  start_le : ∀ s ∈ streams, start s ≤ sys.world.cursor s
  cursor_le : ∀ s ∈ streams, sys.world.cursor s ≤ sys.world.tables.maxLSN
  cached : ∀ s ∈ streams, ∀ l, sys.world.lsnMap s = some l →
    sys.world.cursor s ≤ l ∧ l ≤ sys.world.tables.maxLSN
  tables : ∀ s ∈ streams, Tracks sys.world.tables s (start s) (sys.world.cursor s) (sys.dest s)

/-- Before the first change is read: nothing is committed, and the cursors stand at
LSNs that the capture agent has reached. -/
structure Initial (streams : List S) (sys : System S Row) : Prop where
  cursor_le : ∀ s ∈ streams, sys.world.cursor s ≤ sys.world.tables.maxLSN
  lsnMap : ∀ s ∈ streams, sys.world.lsnMap s = none
  rows : ∀ s ∈ streams, (sys.dest s).rows = []
  state : ∀ s ∈ streams, ∀ m, (sys.dest s).state = some m → m ≤ sys.world.cursor s

/-- The attempts for which the cursor is safe: no writer fails to be created while
an earlier attempt has left an LSN in `lsnMap` that was not saved. -/
def SoundAttempt (a : Attempt streams) (sys : System S Row) : Prop :=
  ∀ k, a.createFails = some (k, false) → ∀ l, sys.world.lsnMap a.input.stream = some l →
    l = sys.world.cursor a.input.stream

variable {start : S → Nat} {sys sys' : System S Row}
  {a : Attempt streams}

omit [DecidableEq S] in
theorem Initial.inv (h : Initial streams sys) : Inv streams sys.world.cursor sys where
  start_le := fun s _ => le_rfl
  cursor_le := h.cursor_le
  cached := fun s hs l hl => by
    rw [h.lsnMap s hs] at hl
    cases hl
  tables := fun s hs => .inl
    ⟨by rw [h.rows s hs, (sourceRows_splits _ s).self], h.state s hs⟩

omit [DecidableEq S] in
theorem Inv.in_step_of_meta_le (h : Inv streams start sys) (hs : s ∈ streams)
    (hm : ∀ m, (sys.dest s).state = some m → m ≤ sys.world.cursor s) :
    InStep (sourceRows sys.world.tables s) (start s) (sys.world.cursor s) (sys.dest s) := by
  rcases h.tables s hs with hin | ⟨m, _, hahead⟩
  · exact hin
  · exact absurd hahead.lt (not_lt.2 (hm m hahead.state))

omit [DecidableEq S] in
theorem Inv.ahead_of_lt (h : Inv streams start sys) (hs : s ∈ streams)
    (hm : (sys.dest s).state = some m) (hlt : sys.world.cursor s < m) :
    m ≤ sys.world.tables.maxLSN ∧
      Ahead (sourceRows sys.world.tables s) (start s) (sys.world.cursor s) m (sys.dest s) := by
  rcases h.tables s hs with hin | ⟨m', hle, hahead⟩
  · exact absurd hlt (not_lt.2 (hin.state m hm))
  · have heq : m = m' := some.inj (hm.symm.trans hahead.state)
    rw [heq]
    exact ⟨hle, hahead⟩

/-- What the driver holds after a call of `StreamChanges`: the change tables and the
cursors as before, and in `lsnMap` only what the invariant allows. -/
theorem streamed_world (h : Inv streams start sys) :
    (streamed driver a sys).world.tables = sys.world.tables ∧
    (streamed driver a sys).world.cursor = sys.world.cursor ∧
    ∀ s ∈ streams, ∀ l, (streamed driver a sys).world.lsnMap s = some l →
      sys.world.cursor s ≤ l ∧ l ≤ sys.world.tables.maxLSN := by
  have has := streamed_as a sys
  have hstore : ∀ x, sys.world.cursor a.input.stream ≤ x → x ≤ sys.world.tables.maxLSN →
      ∀ s ∈ streams, ∀ l, (sys.world.store a.input.stream x).lsnMap s = some l →
        sys.world.cursor s ≤ l ∧ l ≤ sys.world.tables.maxLSN := by
    intro x hge hle s hs l hl
    by_cases hst : s = a.input.stream
    · subst hst
      simp only [World.store, update_self] at hl
      rw [← some.inj hl]
      exact ⟨hge, hle⟩
    · simp only [World.store, update_of_ne hst] at hl
      exact h.cached s hs l hl
  generalize streamed driver a sys = r at has ⊢
  cases has with
  | failed exit hexit => exact ⟨rfl, rfl, h.cached⟩
  | recovered m hm hlt =>
    have hle := (h.ahead_of_lt a.input.mem_streams hm hlt).1
    exact ⟨rfl, rfl, hstore m (le_of_lt hlt) hle⟩
  | noChanges hm hmax => exact ⟨rfl, rfl, h.cached⟩
  | forward x hm hlt hmax _ => exact ⟨rfl, rfl, hstore x (le_of_lt hlt) hmax⟩

/-- However many of the writers commit, every table keeps tracking its cursor. -/
theorem streamed_tracks (h : Inv streams start sys) (outcome : S → CloseOutcome)
    (order : List S) : ∀ s ∈ streams, Tracks sys.world.tables s (start s) (sys.world.cursor s)
      (destAfter replace (streamed driver a sys) outcome order sys.dest s) := by
  intro s hs
  have has := streamed_as a sys
  generalize streamed driver a sys = r at has ⊢
  cases has with
  | failed | recovered | noChanges => rw [destAfter_of_rows_nil _ rfl]; exact h.tables s hs
  | forward x hm hlt hmax _ =>
    by_cases hst : s = a.input.stream
    · subst hst
      have hin := h.in_step_of_meta_le hs hm
      unfold destAfter
      split
      · rcases hin.commit_unsaved (sourceRows_splits _ _) (h.start_le _ hs) (le_of_lt hlt)
          (rowsFor_map_self a.input.stream _) with hin' | hahead
        · exact .inl hin'
        · exact .inr ⟨x, hmax, hahead⟩
      · exact .inl hin
    · rw [destAfter_of_rows_nil _ (rowsFor_map_of_ne hst _)]
      exact h.tables s hs

theorem runPostCDC_done (i : Input streams) (w : World S Row) : runPostCDC driver i true w = w := by
  simp [runPostCDC, driver, PostCDC]

theorem runPostCDC_live (i : Input streams) (w : World S Row) :
    runPostCDC driver i false w = match w.lsnMap i.stream with
      | none => w
      | some lsn => { w with cursor := Function.update w.cursor i.stream lsn } := by
  cases h : w.lsnMap i.stream <;> simp [runPostCDC, driver, PostCDC, h]

variable (h : Inv streams start sys)
include h

/-- `PostCDC` keeps the invariant when the LSN it saves is the one in place, or one
to which the table has come. -/
theorem Inv.post (i : Input streams)
    (hlsn : ∀ l, sys.world.lsnMap i.stream = some l → l = sys.world.cursor i.stream ∨
      InStep (sourceRows sys.world.tables i.stream) (start i.stream) l (sys.dest i.stream)) :
    Inv streams start { sys with world := runPostCDC driver i false sys.world } := by
  rw [runPostCDC_live]
  cases hl : sys.world.lsnMap i.stream with
  | none => exact h
  | some l =>
    dsimp only
    rcases hlsn l hl with rfl | hin
    · rw [update_eq_self]
      exact h
    obtain ⟨hge, hle⟩ := h.cached i.stream i.mem_streams l hl
    have hall : ∀ s ∈ streams, start s ≤ update sys.world.cursor i.stream l s ∧
        update sys.world.cursor i.stream l s ≤ sys.world.tables.maxLSN ∧
        (∀ l', sys.world.lsnMap s = some l' →
          update sys.world.cursor i.stream l s ≤ l' ∧ l' ≤ sys.world.tables.maxLSN) ∧
        Tracks sys.world.tables s (start s) (update sys.world.cursor i.stream l s) (sys.dest s) := by
      intro s hs
      by_cases hst : s = i.stream
      · subst hst
        rw [update_self]
        refine ⟨le_trans (h.start_le _ hs) hge, hle, fun l' hl' => ?_, .inl hin⟩
        rw [← some.inj (hl.symm.trans hl')]
        exact ⟨le_rfl, hle⟩
      · rw [update_of_ne hst]
        exact ⟨h.start_le s hs, h.cursor_le s hs, h.cached s hs, h.tables s hs⟩
    exact ⟨fun s hs => (hall s hs).1, fun s hs => (hall s hs).2.1, fun s hs => (hall s hs).2.2.1,
      fun s hs => (hall s hs).2.2.2⟩

/-- What closing all writers leaves: the table of the stream stands at the LSN that
`PostCDC` will save. -/
theorem streamed_saved (hok : (streamed driver a sys).exit = .ok)
    (hall : ∀ s ∈ streams, a.outcome s = .committed) :
    ∀ l, (streamed driver a sys).world.lsnMap a.input.stream = some l →
      l = sys.world.cursor a.input.stream ∨
      InStep (sourceRows sys.world.tables a.input.stream) (start a.input.stream) l
        (destAfter replace (streamed driver a sys) a.outcome streams sys.dest
          a.input.stream) := by
  have hs := a.input.mem_streams
  have hdurable : (a.outcome a.input.stream).durable = true := by rw [hall _ hs]; rfl
  have has := streamed_as a sys
  generalize streamed driver a sys = r at has hok ⊢
  intro l hl
  unfold destAfter
  rw [if_pos ⟨hs, hdurable⟩]
  cases has with
  | failed exit hexit => exact absurd hok hexit
  | recovered m hm hlt =>
    right
    simp only [World.store, update_self] at hl
    rw [← some.inj hl]
    exact (h.ahead_of_lt hs hm hlt).2.inStep
  | noChanges hm hmax =>
    -- whatever an earlier attempt has left is the cursor itself
    left
    obtain ⟨hge, hle⟩ := h.cached _ hs l hl
    exact le_antisymm (le_trans hle hmax) hge
  | forward x hm hlt hmax _ =>
    right
    simp only [World.store, update_self] at hl
    rw [← some.inj hl]
    exact (h.in_step_of_meta_le hs hm).commit (sourceRows_splits _ _) (h.start_le _ hs)
      (le_of_lt hlt) (rowsFor_map_self a.input.stream _)

omit [DecidableEq S] in
/-- A step that leaves the change tables and the cursors alone. -/
theorem Inv.of_unsaved
    (htables : sys'.world.tables = sys.world.tables) (hcursor : sys'.world.cursor = sys.world.cursor)
    (hcached : ∀ s ∈ streams, ∀ l, sys'.world.lsnMap s = some l →
      sys.world.cursor s ≤ l ∧ l ≤ sys.world.tables.maxLSN)
    (htracks : ∀ s ∈ streams,
      Tracks sys.world.tables s (start s) (sys.world.cursor s) (sys'.dest s)) :
    Inv streams start sys' := by
  obtain ⟨⟨tables, cursor, lsnMap⟩, dest⟩ := sys'
  obtain rfl : tables = _ := htables
  obtain rfl : cursor = _ := hcursor
  exact ⟨h.start_le, h.cursor_le, hcached, htracks⟩

omit [DecidableEq S] in
theorem Inv.restart :
    Inv streams start { sys with world := { sys.world with lsnMap := fun _ => none } } :=
  h.of_unsaved rfl rfl (nofun) h.tables

theorem Inv.attempt (ha : SoundAttempt a sys) : Inv streams start (streamChanges driver a sys) := by
  obtain ⟨htables, hcursor, hcached⟩ := streamed_world (a := a) h
  -- what is left when `PostCDC` saves nothing
  have hunsaved : ∀ dest : S → Table Row Nat, (∀ s ∈ streams,
      Tracks sys.world.tables s (start s) (sys.world.cursor s) (dest s)) →
      Inv streams start { world := (streamed driver a sys).world, dest := dest } :=
    fun dest hdest => h.of_unsaved htables hcursor hcached hdest
  have hended := streamChanges_attempted driver a sys
  generalize streamChanges driver a sys = sys' at hended ⊢
  cases hended with
  | notCreated k done hc =>
    cases done with
    | true =>
      rw [runPostCDC_done]
      exact h
    | false => exact h.post a.input (fun l hl => .inl (ha k hc l hl))
  | notStreamed hc hr w hw =>
    have hinv := hunsaved sys.dest h.tables
    rcases hw with rfl | rfl
    · exact hinv.restart
    · rw [runPostCDC_done]
      exact hinv
  | notSaved hc hr w hw =>
    have hinv := hunsaved _ (streamed_tracks (a := a) h a.outcome a.visited)
    rcases hw with rfl | rfl
    · exact hinv.restart
    · rw [runPostCDC_done]
      exact hinv
  | saved hc hr hd hcancel hall =>
    have hinv := hunsaved _ (streamed_tracks (a := a) h a.outcome streams)
    refine hinv.post a.input (fun l hl => ?_)
    rw [hcursor, htables]
    exact streamed_saved h hr hall l hl

omit [DecidableEq S] in
theorem Inv.source (hw : Grows sys.world w) : Inv streams start { sys with world := w } := by
  obtain ⟨t, ht, rfl⟩ := hw
  refine ⟨h.start_le, fun s hs => le_trans (h.cursor_le s hs) ht.1, fun s hs l hl => ?_,
    fun s hs => ?_⟩
  · obtain ⟨hge, hle⟩ := h.cached s hs l hl
    exact ⟨hge, le_trans hle ht.1⟩
  · rcases h.tables s hs with hin | ⟨m, hm, hahead⟩
    · left
      exact ⟨by rw [sourceRows_grows ht (h.cursor_le s hs)]; exact hin.rows, hin.state⟩
    · right
      exact ⟨m, le_trans hm ht.1,
        by rw [sourceRows_grows ht hm]; exact hahead.rows, hahead.state, hahead.lt⟩

theorem Inv.reaches (hreach : Reaches driver streams Grows SoundAttempt sys sys') :
    Inv streams start sys' :=
  hreach.keeps h (fun _ h ha => h.attempt ha) Inv.restart (fun h hw => h.source hw)

end Stream

end Olake.MSSQL
