/-
SQL Server: each change is read once, and from one capture instance.

The passes by which a cursor has moved are windows laid end to end from the initial
LSN to the cursor.  That is carried by one fact about selection: the instance a pass
reads from starts at or before the cursor, so it holds the whole window, however the
instances before and after it were created, dropped or cleaned up.  The clamp at the
start of the next instance only moves the end of a window, and the next window begins
where the last one has ended.

A failed attempt can leave its LSN in the metadata or in `lsnMap`, from where a later
attempt saves it.  The invariant says that such an LSN is the end of the last pass,
and that this pass began at the cursor.
-/
import Olake.Model.CaptureInstances
import Olake.Proofs.MSSQL

namespace Olake.MSSQL

open List Function Log

variable {S Row : Type}

/-! ### One pass -/

def Pass.rows (p : Pass Row) : List Row := p.changes.flatMap Change.emitted

/-- The LSNs a pass has read, with the instance they were read from. -/
def Pass.readings (p : Pass Row) : List (CaptureInstance × Nat) :=
  p.changes.map (fun c => (p.capture, c.lsn))

def readings (passes : List (Pass Row)) : List (CaptureInstance × Nat) :=
  passes.flatMap Pass.readings

/-- The change LSNs of stream `s` after `p` and up to `q`. -/
def changeLSNs (t : ChangeTables S Row) (s : S) (p q : Nat) : List Nat :=
  (Log.between Change.lsn p q (t.changes s)).map Change.lsn

/-- The pass found every change of its window, in an instance that holds the window. -/
structure Pass.Whole (p : Pass Row) (t : ChangeTables S Row) (s : S) : Prop where
  held : p.capture.startLSN ≤ p.fromLSN
  lt : p.fromLSN < p.toLSN
  le_max : p.toLSN ≤ t.maxLSN
  changes : p.changes = Log.between Change.lsn p.fromLSN p.toLSN (t.changes s)

theorem changeLSNs_split (t : ChangeTables S Row) (s : S) (hpq : p ≤ q)
    (hqr : q ≤ r) : changeLSNs t s p r = changeLSNs t s p q ++ changeLSNs t s q r := by
  unfold changeLSNs
  rw [between_split (t.increasing s) hpq hqr, map_append]

theorem between_grows {t t' : ChangeTables S Row} (h : t.Grows t') (hq : q ≤ t.maxLSN) (s : S) (p : Nat) :
    Log.between Change.lsn p q (t'.changes s) = Log.between Change.lsn p q (t.changes s) := by
  obtain ⟨new, hnew, hlt⟩ := h.2 s
  rw [hnew, between_extend (fun c hc => lt_of_le_of_lt hq (hlt c hc))]

theorem Pass.Whole.grows {p : Pass Row} (h : p.Whole t s) (ht : t.Grows t') : p.Whole t' s where
  held := h.held
  lt := h.lt
  le_max := le_trans h.le_max ht.1
  changes := by rw [h.changes, between_grows ht h.le_max]

theorem Pass.Whole.readings {p : Pass Row} (h : p.Whole t s) :
    p.readings.map Prod.snd = changeLSNs t s p.fromLSN p.toLSN := by
  rw [Pass.readings, map_map, h.changes]
  rfl

@[simp] theorem readings_append (l l' : List (Pass Row)) : readings (l ++ l') = readings l ++ readings l' :=
  flatMap_append

@[simp] theorem readings_singleton (p : Pass Row) : readings [p] = p.readings := by simp [readings]

/-! ### One stream -/

/-- An LSN that is not saved yet is the end of the last pass, which began at the
cursor. -/
def Pending (t : ChangeTables S Row) (s : S) (cursor : Nat) (last : Option (Pass Row)) (lsn : Nat) : Prop :=
  ∃ p, last = some p ∧ p.Whole t s ∧ p.fromLSN = cursor ∧ p.toLSN = lsn

/-- The passes over stream `s` tile what lies between the initial LSN and the cursor. -/
structure Tiled (t : ChangeTables S Row) (s : S) (initial cursor : Nat)
    (cached state : Option Nat) (last : Option (Pass Row)) (passes : List (Pass Row)) : Prop where
  initial_le : initial ≤ cursor
  cursor_le : cursor ≤ t.maxLSN
  cached : ∀ l, cached = some l → l = cursor ∨ Pending t s cursor last l
  state : ∀ m, state = some m → m ≤ cursor ∨ Pending t s cursor last m
  read : (readings passes).map Prod.snd = changeLSNs t s initial cursor
  held : ∀ r ∈ readings passes, r.1.startLSN ≤ r.2

section OneStream

variable {t t' : ChangeTables S Row} {s : S} {initial cursor : Nat} {cached state : Option Nat}
  {last : Option (Pass Row)} {passes : List (Pass Row)}

theorem Pending.lt (h : Pending t s cursor last lsn) : cursor < lsn := by
  obtain ⟨p, -, hp, rfl, rfl⟩ := h
  exact hp.lt

theorem Pending.grows (h : Pending t s cursor last lsn) (ht : t.Grows t') :
    Pending t' s cursor last lsn := by
  obtain ⟨p, hlast, hp, hfrom, hto⟩ := h
  exact ⟨p, hlast, hp.grows ht, hfrom, hto⟩

theorem Pending.unique (hl : Pending t s cursor last l)
    (hm : Pending t s cursor last m) : l = m := by
  obtain ⟨p, hp, -, -, rfl⟩ := hl
  obtain ⟨q, hq, -, -, rfl⟩ := hm
  rw [Option.some.inj (hp.symm.trans hq)]

variable (h : Tiled t s initial cursor cached state last passes)
include h

theorem Tiled.grows (ht : t.Grows t') : Tiled t' s initial cursor cached state last passes :=
  { h with
    cursor_le := le_trans h.cursor_le ht.1
    cached := fun l hl => (h.cached l hl).imp_right (fun hp => hp.grows ht)
    state := fun m hm => (h.state m hm).imp_right (fun hp => hp.grows ht)
    read := by rw [h.read, changeLSNs, changeLSNs, between_grows ht h.cursor_le] }

theorem Tiled.forget : Tiled t s initial cursor none state last passes :=
  { h with cached := nofun }

theorem Tiled.recover (hm : state = some m) (hlt : cursor < m) :
    Tiled t s initial cursor (some m) state last passes := by
  refine { h with cached := fun l hl => ?_ }
  rw [← Option.some.inj hl]
  exact .inr ((h.state m hm).resolve_left (not_le.2 hlt))

/-- A pass that begins at the cursor, whether or not its rows are committed. -/
theorem Tiled.pass
    (hp : p.Whole t s) (hfrom : p.fromLSN = cursor) (hm : ∀ m, state = some m → m ≤ cursor)
    (hstate : state' = state ∨ state' = some p.toLSN) :
    Tiled t s initial cursor (some p.toLSN) state' (some p) passes := by
  have hpending : Pending t s cursor (some p) p.toLSN := ⟨p, rfl, hp, hfrom, rfl⟩
  refine ⟨h.initial_le, h.cursor_le, ?_, ?_, h.read, h.held⟩
  · intro l hl
    rw [← Option.some.inj hl]
    exact .inr hpending
  · intro m hm'
    rcases hstate with rfl | rfl
    · exact .inl (hm m hm')
    · rw [← Option.some.inj hm']
      exact .inr hpending

omit h

theorem Tiled.save (h : Tiled t s initial cursor (some l) state last passes)
    (hne : l ≠ cursor) : Tiled t s initial l (some l) state last (passes ++ last.toList) := by
  have hpending := (h.cached l rfl).resolve_left hne
  have hlt := hpending.lt
  obtain ⟨p, rfl, hp, hfrom, rfl⟩ := id hpending
  refine ⟨by have := h.initial_le; omega, hp.le_max, fun l hl => ?_, fun m hm => ?_, ?_, ?_⟩
  · exact .inl (Option.some.inj hl).symm
  · left
    rcases h.state m hm with hle | hm'
    · omega
    · exact le_of_eq (hm'.unique hpending)
  · rw [Option.toList_some, readings_append, readings_singleton, map_append, h.read,
      hp.readings, hfrom, ← changeLSNs_split t s h.initial_le (le_of_lt hlt)]
  · intro r hr
    rw [Option.toList_some, readings_append, readings_singleton] at hr
    rcases mem_append.1 hr with hr | hr
    · exact h.held r hr
    · -- what the pass found lies behind its start, which the instance holds
      obtain ⟨c, hc, rfl⟩ := mem_map.1 hr
      rw [hp.changes] at hc
      have hgt := (mem_between.1 hc).2.1
      have hheld := hp.held
      show p.capture.startLSN ≤ c.lsn
      omega

end OneStream

/-! ### One call of StreamChanges -/

section Attempt

variable [DecidableEq S] {streams : List S}

/-- The ways `StreamChanges` can end, with the pass it has made.  It pushes the rows of the
changes that the pass has read. -/
inductive ReadAs (a : Attempt streams) (sys : System S Row) :
    Streamed (World S Row) S Row Nat → Option (Pass Row) → Prop
  | failed (exit : Exit) (hexit : exit ≠ .ok) :
      ReadAs a sys ⟨sys.world, [], fun _ => none, exit⟩ none
  | recovered (m : Nat) (hm : (sys.dest a.input.stream).state = some m)
      (hlt : sys.world.cursor a.input.stream < m) :
      ReadAs a sys ⟨sys.world.store a.input.stream m, [], fun _ => some m, .ok⟩ none
  | noChanges : ReadAs a sys ⟨sys.world, [], fun _ => none, .ok⟩ none
  | forward (p : Pass Row)
      (hm : ∀ m, (sys.dest a.input.stream).state = some m → m ≤ sys.world.cursor a.input.stream)
      (hp : p.Whole sys.world.tables a.input.stream)
      (hfrom : p.fromLSN = sys.world.cursor a.input.stream) :
      ReadAs a sys
        ⟨sys.world.store a.input.stream p.toLSN, p.rows.map (fun r => (a.input.stream, r)),
          fun _ => some p.toLSN, .ok⟩ (some p)

variable {a : Attempt streams} {sys : System S Row} {instances : List CaptureInstance}

theorem StreamChanges_forward
    (hm : ∀ m, (sys.dest a.input.stream).state = some m → m ≤ sys.world.cursor a.input.stream) :
    streamed driver a sys = streamForward a.input sys.world := by
  show StreamChanges a.input sys.world sys.states = _
  unfold StreamChanges
  cases hs : (sys.dest a.input.stream).state with
  | none => simp only [hs]
  | some m => simp only [hs, if_neg (not_lt.2 (hm m hs))]

theorem readAs (hc : a.createFails = none) (hlist : ∀ starts,
      a.input.captureInstances = some starts → starts = instances.map CaptureInstance.startLSN) :
    ReadAs a sys (streamed driver a sys) (passOf a instances sys) := by
  by_cases hahead : ∃ m, (sys.dest a.input.stream).state = some m ∧
      sys.world.cursor a.input.stream < m
  · -- metadata ahead of the cursor
    obtain ⟨m, hm, hlt⟩ := hahead
    have hstream : streamed driver a sys
        = ⟨sys.world.store a.input.stream m, [], fun _ => some m, .ok⟩ := by
      show StreamChanges a.input sys.world sys.states = _
      unfold StreamChanges
      simp only [hm, if_pos hlt]
      rfl
    have hpass : passOf a instances sys = none := by
      unfold passOf
      rw [if_pos (.inr (.inl (by rw [hm]; exact decide_eq_true hlt)))]
    rw [hstream, hpass]
    exact .recovered m hm hlt
  · have hm : ∀ m, (sys.dest a.input.stream).state = some m →
        m ≤ sys.world.cursor a.input.stream := by
      intro m hm
      by_contra hlt
      exact hahead ⟨m, hm, not_le.1 hlt⟩
    have hany : (sys.dest a.input.stream).state.any
        (fun mtState => decide (sys.world.cursor a.input.stream < mtState)) = false := by
      rw [Option.any_eq_false]
      intro m hm'
      exact decide_eq_false (not_lt.2 (hm m hm'))
    have hforward := StreamChanges_forward hm
    change StreamChanges a.input sys.world sys.states = _ at hforward
    have hpass : passOf a instances sys = if (streamForward a.input sys.world).exit ≠ .ok then none else
        ((streamForward a.input sys.world).final a.input.stream).bind
          (passTo instances (sys.world.tables.changes a.input.stream)
            (sys.world.cursor a.input.stream)) := by
      unfold passOf
      dsimp only
      rw [hforward]
      simp [hc, hany]
    rw [StreamChanges_forward hm, hpass]
    generalize hr : streamForward a.input sys.world = r
    unfold streamForward at hr
    dsimp only at hr
    repeat' split at hr
    all_goals subst hr
    · exact .failed .err (by decide)
    · exact .noChanges
    · exact .failed .err (by decide)
    · exact .failed .err (by decide)
    · next hfetch =>
      rw [if_pos hfetch]
      exact .failed _ hfetch
    · next hmax _ starts hstarts _ captureIdx startLSN hsel _ =>
      -- the instance at the index found is the one with this start
      obtain ⟨hget, hheld, -⟩ := newestValidInstance_spec hsel
      obtain ⟨hlt, hle⟩ := clampTarget_bounds hsel (not_le.1 hmax)
      rw [hlist starts hstarts] at hsel
      rw [hlist starts hstarts, getElem?_map] at hget
      obtain ⟨capture, hcapture, rfl⟩ := Option.map_eq_some_iff.1 hget
      simp only [ne_eq, not_true_eq_false, if_false, Option.bind_some, passTo, hsel, hcapture, Option.map_some]
      exact .forward ⟨capture, _, _, _⟩ hm
        ⟨hheld, hlt, hle, changesInLSNRange_eq_between _ hheld _⟩ rfl

/-! ### Whole systems -/

def Captured.Holds (streams : List S) (initial : S → Nat) (L : Captured S Row) : Prop :=
  ∀ s ∈ streams, Tiled L.sys.world.tables s (initial s) (L.sys.world.cursor s)
    (L.sys.world.lsnMap s) (L.sys.dest s).state (L.lastPass s) (L.passes s)

/-- A sync before its first pass. -/
structure CapturedInitial (streams : List S) (L : Captured S Row) : Prop where
  initial : Initial streams L.sys
  lastPass : ∀ s, L.lastPass s = none
  passes : ∀ s, L.passes s = []

variable {L L' : Captured S Row} {initial : S → Nat}

omit [DecidableEq S] in
theorem CapturedInitial.holds (h : CapturedInitial streams L) :
    L.Holds streams L.sys.world.cursor := by
  intro s hs
  refine ⟨le_rfl, h.initial.cursor_le s hs, ?_, ?_, ?_, ?_⟩
  · intro l hl
    rw [h.initial.lsnMap s hs] at hl
    cases hl
  · intro m hm
    exact .inl (h.initial.state s hs m hm)
  · rw [h.passes s, changeLSNs, between_self]
    rfl
  · intro r hr
    rw [h.passes s] at hr
    cases hr

/-- A sync after `StreamChanges` and the close of some of the writers. -/
def Captured.streamedTo (L : Captured S Row) (a : Attempt streams)
    (order : List S) : Captured S Row where
  sys :=
    { world := (streamed driver a L.sys).world
      dest := destAfter replace (streamed driver a L.sys) a.outcome order L.sys.dest }
  instances := L.instances
  lastPass := Function.update L.lastPass a.input.stream
    ((passOf a (L.instances a.input.stream) L.sys).orElse (fun _ => L.lastPass a.input.stream))
  passes := L.passes

variable {a : Attempt streams}

theorem Captured.Holds.streamedTo (h : L.Holds streams initial) (hc : a.createFails = none)
    (hlist : ∀ starts, a.input.captureInstances = some starts →
      starts = (L.instances a.input.stream).map CaptureInstance.startLSN) (order : List S) :
    (L.streamedTo a order).Holds streams initial := by
  have hread : ReadAs a L.sys (streamed driver a L.sys)
      (passOf a (L.instances a.input.stream) L.sys) := readAs hc hlist
  intro s hs
  have htiled := h s hs
  unfold Captured.streamedTo
  dsimp only
  generalize streamed driver a L.sys = r at hread ⊢
  generalize passOf a (L.instances a.input.stream) L.sys = pass at hread ⊢
  have hsame : update L.lastPass a.input.stream (L.lastPass a.input.stream) = L.lastPass :=
    update_eq_self _ _
  cases hread with
  | failed | noChanges =>
    rw [destAfter_of_rows_nil _ rfl, Option.orElse_none, hsame]
    exact htiled
  | recovered m hm hlt =>
    rw [destAfter_of_rows_nil _ rfl]
    by_cases hst : s = a.input.stream
    · subst hst
      simp only [World.store, update_self]
      exact htiled.recover hm hlt
    · simp only [World.store, update_of_ne hst]
      exact htiled
  | forward p hm hp hfrom =>
    by_cases hst : s = a.input.stream
    · subst hst
      simp only [World.store, update_self]
      exact htiled.pass hp hfrom hm ((state_destAfter _ _ _ (fun _ => rfl) _).imp_right And.left)
    · rw [destAfter_of_rows_nil _ (rowsFor_map_of_ne hst _)]
      simp only [World.store, update_of_ne hst]
      exact htiled

theorem streamed_cursor : (streamed driver a sys).world.cursor = sys.world.cursor := by
  have has := streamed_as a sys
  generalize streamed driver a sys = r at has ⊢
  cases has with
  | failed | recovered | noChanges | forward => rfl

/-- The passes of a stream after its cursor has come to `cursor`. -/
def Captured.passesAt (L : Captured S Row) (s : S) (cursor : Nat) : S → List (Pass Row) :=
  if cursor = L.sys.world.cursor s then L.passes
  else Function.update L.passes s (L.passes s ++ (L.lastPass s).toList)

variable (h : L.Holds streams initial)
include h

theorem Captured.Holds.post (i : Input streams) :
    Captured.Holds streams initial
      { L with
        sys := { L.sys with world := runPostCDC driver i false L.sys.world }
        passes := L.passesAt i.stream
          ((runPostCDC driver i false L.sys.world).cursor i.stream) } := by
  intro s hs
  have htiled := h s hs
  rw [runPostCDC_live]
  unfold Captured.passesAt
  cases hl : L.sys.world.lsnMap i.stream with
  | none =>
    rw [if_pos rfl]
    exact htiled
  | some l =>
    simp only [update_self]
    by_cases hcur : l = L.sys.world.cursor i.stream
    · rw [if_pos hcur, hcur, update_eq_self]
      exact htiled
    · rw [if_neg hcur]
      by_cases hst : s = i.stream
      · subst hst
        rw [update_self, update_self, hl]
        rw [hl] at htiled
        exact htiled.save hcur
      · rw [update_of_ne hst, update_of_ne hst]
        exact htiled

omit [DecidableEq S] in
theorem Captured.Holds.restart :
    Captured.Holds streams initial
      { L with sys := { L.sys with world := { L.sys.world with lsnMap := fun _ => none } } } :=
  fun s hs => (h s hs).forget

theorem Captured.Holds.after (hlist : ∀ starts, a.input.captureInstances = some starts →
      starts = (L.instances a.input.stream).map CaptureInstance.startLSN) :
    (L.after a).Holds streams initial := by
  have hended := streamChanges_attempted driver a L.sys
  -- a new process has the cursors of the old one
  have hnew : ((@driver S Row _ streams).newProcess (streamed driver a L.sys).world).cursor
      a.input.stream = L.sys.world.cursor a.input.stream := congrFun streamed_cursor _
  unfold Captured.after
  dsimp only
  generalize streamChanges driver a L.sys = sys' at hended ⊢
  cases hended with
  | notCreated k done hc =>
    have hpass : passOf a (L.instances a.input.stream) L.sys = none := by
      unfold passOf
      rw [if_pos (.inl (by rw [hc]; rfl))]
    rw [hpass, Option.orElse_none, update_eq_self]
    cases done with
    | true =>
      rw [runPostCDC_done, if_pos rfl]
      exact h
    | false => exact h.post a.input
  | notStreamed hc hr w hw =>
    have hstreamed := h.streamedTo hc hlist []
    have hdest : destAfter replace (streamed driver a L.sys) a.outcome [] L.sys.dest
        = L.sys.dest := by
      funext s
      simp [destAfter]
    unfold Captured.streamedTo at hstreamed
    rw [hdest] at hstreamed
    rcases hw with rfl | rfl
    · dsimp only
      rw [if_pos hnew]
      exact hstreamed.restart
    · rw [runPostCDC_done, if_pos (congrFun streamed_cursor _)]
      exact hstreamed
  | notSaved hc hr w hw =>
    have hstreamed := h.streamedTo hc hlist a.visited
    rcases hw with rfl | rfl
    · dsimp only
      rw [if_pos hnew]
      exact hstreamed.restart
    · rw [runPostCDC_done, if_pos (congrFun streamed_cursor _)]
      exact hstreamed
  | saved hc hr hd hcancel hall =>
    have hpost := (h.streamedTo hc hlist streams).post a.input
    unfold Captured.passesAt Captured.streamedTo at hpost
    dsimp only at hpost
    rw [streamed_cursor, update_self] at hpost
    exact hpost

theorem Captured.Holds.step (hstep : CaptureStep streams L L') : L'.Holds streams initial := by
  cases hstep with
  | attempt a hlist => exact h.after hlist
  | manage | outside => exact h
  | restart => exact h.restart
  | source hw =>
    obtain ⟨t, ht, rfl⟩ := hw
    exact fun s hs => (h s hs).grows ht

theorem Captured.Holds.reaches (hrun : CaptureReaches streams L L') : L'.Holds streams initial := by
  induction hrun with
  | refl => exact h
  | tail _ hstep ih => exact ih.step hstep

omit h

/-! ### Each change once -/

theorem filter_snd_eq_singleton {A : Type} {l : List (A × Nat)} (hnodup : (l.map Prod.snd).Nodup)
    (hx : x ∈ l.map Prod.snd) : ∃ a, l.filter (fun r => decide (r.2 = x)) = [(a, x)] := by
  have hmap : (l.filter (fun r => decide (r.2 = x))).map Prod.snd = [x] := by
    have hfilter := filter_map (f := Prod.snd) (p := fun y => decide (y = x)) (l := l)
    rw [filter_eq, count_eq_one_of_mem hnodup hx] at hfilter
    exact hfilter.symm
  obtain ⟨⟨a, y⟩, hr, rfl⟩ := map_eq_singleton_iff.1 hmap
  exact ⟨a, hr⟩

omit [DecidableEq S] in
theorem changeLSNs_nodup (t : ChangeTables S Row) (s : S) (p q : Nat) :
    (changeLSNs t s p q).Nodup := by
  have hsorted : (changeLSNs t s p q).Pairwise (· < ·) := by
    unfold changeLSNs
    rw [pairwise_map]
    exact (t.increasing s).sublist filter_sublist
  exact hsorted.imp (fun h => ne_of_lt h)

omit [DecidableEq S] in
theorem mem_changeLSNs
    (hc : c ∈ t.changes s) (hp : p < c.lsn) (hq : c.lsn ≤ q) : c.lsn ∈ changeLSNs t s p q :=
  mem_map.2 ⟨c, mem_between.2 ⟨hc, hp, hq⟩, rfl⟩

/-- **Each change is read once, and from one capture instance**, in every state of
every run: with any failures and crashes, while instances are created and dropped. -/
theorem changes_read_once {L₀ : Captured S Row} (h₀ : CapturedInitial streams L₀)
    (hrun : CaptureReaches streams L₀ L) {s : S} (hs : s ∈ streams) {c : Change Row}
    (hc : c ∈ L.sys.world.tables.changes s) (hlo : L₀.sys.world.cursor s < c.lsn)
    (hhi : c.lsn ≤ L.sys.world.cursor s) :
    ∃ capture, (readings (L.passes s)).filter (fun r => decide (r.2 = c.lsn)) = [(capture, c.lsn)] ∧
      capture.startLSN ≤ c.lsn := by
  have htiled := h₀.holds.reaches hrun s hs
  have hnodup : ((readings (L.passes s)).map Prod.snd).Nodup := by
    rw [htiled.read]
    exact changeLSNs_nodup _ s _ _
  have hmem : c.lsn ∈ (readings (L.passes s)).map Prod.snd := by
    rw [htiled.read]
    exact mem_changeLSNs hc hlo hhi
  obtain ⟨capture, hone⟩ := filter_snd_eq_singleton hnodup hmem
  refine ⟨capture, hone, ?_⟩
  have hin : (capture, c.lsn) ∈ (readings (L.passes s)).filter (fun r => decide (r.2 = c.lsn)) := by
    rw [hone]
    exact mem_cons_self
  exact htiled.held _ (mem_filter.1 hin).1

end Attempt

/-! ### A table whose instance is replaced -/

/-- A table with changes at the LSNs 10 and 30, two instances, and a cursor at 5. -/
def twoInstances : Captured Unit Nat where
  sys :=
    { world :=
        { tables :=
            { changes := fun _ => [⟨10, [⟨2, 1⟩]⟩, ⟨30, [⟨2, 2⟩]⟩]
              maxLSN := 40
              increasing := fun _ => by simp [Log.Increasing]
              captured := fun _ => by simp }
          cursor := fun _ => 5
          lsnMap := fun _ => none }
      dest := fun _ => { rows := [], state := none } }
  instances := fun _ => [⟨"old", 0⟩, ⟨"new", 20⟩]
  lastPass := fun _ => none
  passes := fun _ => []

theorem twoInstances_initial : CapturedInitial [()] twoInstances where
  initial :=
    ⟨fun _ _ => show 5 ≤ 40 by omega, fun _ _ => rfl, fun _ _ => rfl, nofun⟩
  lastPass := fun _ => rfl
  passes := fun _ => rfl

theorem mem_unit : ∀ s : Unit, s ∈ [()] ↔ s ∈ [()] := fun _ => Iff.rfl

/-- An attempt that lists instances with these start LSNs, and in which nothing fails. -/
def passOver (starts : List Nat) : Attempt [()] where
  order_nodup := List.nodup_singleton ()
  mem_order := mem_unit
  input :=
    { stream := (), mem_streams := List.mem_cons_self, maxLSNFails := false
      captureInstances := some starts, fetch := .ok }

/-- The first sync stops at the start of the new instance; then the old one is dropped. -/
def oldDropped : Captured Unit Nat :=
  { twoInstances.after (passOver [0, 20]) with instances := fun _ => [⟨"new", 20⟩] }

/-- The change at 10 was read from the old instance, the one at 30 from the new one. -/
theorem changes_read_once_replaced :
    readings ((oldDropped.after (passOver [20])).passes ())
        = [(⟨"old", 0⟩, 10), (⟨"new", 20⟩, 30)] ∧
      ∃ capture, (readings ((oldDropped.after (passOver [20])).passes ())).filter
        (fun r => decide (r.2 = 30)) = [(capture, 30)] ∧ capture.startLSN ≤ 30 := by
  have hrun : CaptureReaches [()] twoInstances (oldDropped.after (passOver [20])) := by
    refine ((Relation.ReflTransGen.single (.attempt (passOver [0, 20]) ?_)).tail
      (.outside _)).tail (.attempt (passOver [20]) ?_)
    · intro starts h
      exact (Option.some.inj h).symm
    · intro starts h
      exact (Option.some.inj h).symm
  refine ⟨by decide, ?_⟩
  have hmem : (⟨30, [⟨2, 2⟩]⟩ : Change Nat) ∈
      (oldDropped.after (passOver [20])).sys.world.tables.changes () := by decide
  exact changes_read_once twoInstances_initial hrun mem_cons_self hmem (by decide) (by decide)

end Olake.MSSQL
