/-
MongoDB: the insert-dedup flag of a stream.

The driver reads forward: a change stream resumes after the cursor, and the tokens that
the server reports on the way are not before it.  A pass ends at the first token whose
operation time has reached that of the cluster.  The events of one transaction have the
same operation time, so a pass can end inside a transaction that the backfill has read
as a whole.
-/
import Olake.Model.MongoDB
import Olake.Proofs.InsertDedup.Flag

namespace Olake.MongoDB

open List Function Option

variable {S Row : Type}

/-- Every row carries the token of its event. -/
def Stamped (tokenOf : Row → String) (o : Oplog S Row) : Prop :=
  ∀ s, ∀ e ∈ o.events s, tokenOf e.row = e.token

/-- More has been written, with stamped rows. -/
def StampedGrows (tokenOf : Row → String) (w w' : World S Row) : Prop :=
  Grows w w' ∧ Stamped tokenOf w'.oplog

/-- A process that has just started: nothing is cached. -/
def Initial (streams : List S) (sys : System S Row) : Prop :=
  ∀ s ∈ streams, sys.world.cdcCursor s = none

/-- The server reports no token from before the cursor it was asked to resume after. -/
def ServesForward {streams : List S} (a : Attempt streams) (sys : System S Row) : Prop :=
  ∀ t ∈ a.input.ticks, ∀ token, t.token = some token → sys.world.cursor a.input.stream ≤ token

/-! ### Reading forward -/

def Turn.reader : Turn Row → Reader Row
  | .goesOn r => r
  | .caughtUp r _ => r
  | .failed r => r

/-- What a reader that starts as `r` and is told the given tokens may become. -/
structure ReadsOn (tokens : Set String) (r r' : Reader Row) : Prop where
  cached : r'.cdcCursor = r.cdcCursor ∨ ∃ token ∈ tokens, r'.cdcCursor = some token
  queue : ∀ e ∈ r'.queue, e ∈ r.queue
  pushed : ∀ row ∈ r'.pushed, row ∈ r.pushed ∨ ∃ e ∈ r.queue, e.row = row

theorem ReadsOn.refl (tokens : Set String) (r : Reader Row) : ReadsOn tokens r r :=
  ⟨.inl rfl, fun _ h => h, fun _ h => .inl h⟩

variable {r' r : Reader Row}

theorem ReadsOn.trans (h : ReadsOn tokens r r')
    (h' : ReadsOn tokens r' r'') : ReadsOn tokens r r'' := by
  refine ⟨?_, fun e he => h.queue e (h'.queue e he), fun row hrow => ?_⟩
  · rcases h'.cached with heq | htoken
    · rw [heq]
      exact h.cached
    · exact .inr htoken
  · rcases h'.pushed row hrow with hrow | ⟨e, he, heq⟩
    · exact h.pushed row hrow
    · exact .inr ⟨e, h.queue e he, heq⟩

theorem ReadsOn.mono (h : ReadsOn tokens r r') (hsub : tokens ⊆ tokens') : ReadsOn tokens' r r' :=
  ⟨h.cached.imp_right (fun ⟨token, hmem, heq⟩ => ⟨token, hsub hmem, heq⟩), h.queue, h.pushed⟩

/-- By the end of the turn the reader has handed over a row. -/
def HasRows (t : Tick) (r : Reader Row) : Prop :=
  r.pushed ≠ [] ∨ t.fetch = .event false ∧ r.queue ≠ []

/-- A turn at which a pass ends well has a token that has reached the cluster's time. -/
def Reached (last : Timestamp) (token : Option String) (x : String) : Prop :=
  token = some x ∧ ∃ op, decodeResumeTokenOpTime x = some op ∧ last.after op = false

theorem handleStreamCatchup_spec (last : Timestamp) (token : Option String) (r : Reader Row) :
    ReadsOn { x | token = some x } r (handleStreamCatchup last token r).reader ∧
    ∀ r' x, handleStreamCatchup last token r = .caughtUp r' x →
      r'.pushed = r.pushed ∧ Reached last token x := by
  unfold handleStreamCatchup
  cases token with
  | none => exact ⟨ReadsOn.refl _ r, nofun⟩
  | some token =>
    have hstored : ReadsOn { x | some token = some x } r { r with cdcCursor := some token } :=
      ⟨.inr ⟨token, rfl, rfl⟩, fun _ h => h, fun _ h => .inl h⟩
    dsimp only
    split
    · exact ⟨hstored, nofun⟩
    rename_i op hop
    split
    · exact ⟨hstored, nofun⟩
    · rename_i hlast
      refine ⟨hstored, fun r' x h => ?_⟩
      cases h
      exact ⟨rfl, rfl, op, hop, by simpa using hlast⟩

theorem turn_spec (last : Timestamp) (t : Tick) (r : Reader Row) :
    ReadsOn { x | t.token = some x } r (turn last t r).reader ∧
    ∀ r' x, turn last t r = .caughtUp r' x →
      (r'.pushed ≠ [] → HasRows t r) ∧ Reached last t.token x := by
  have hidle : ReadsOn { x | t.token = some x } r (handleStreamCatchup last t.token r).reader ∧
      ∀ r' x, handleStreamCatchup last t.token r = .caughtUp r' x →
        (r'.pushed ≠ [] → HasRows t r) ∧ Reached last t.token x := by
    obtain ⟨hreads, hends⟩ := handleStreamCatchup_spec last t.token r
    refine ⟨hreads, fun r' x h => ?_⟩
    obtain ⟨hpushed, hend⟩ := hends r' x h
    rw [hpushed]
    exact ⟨.inl, hend⟩
  unfold turn
  split
  · exact ⟨ReadsOn.refl _ r, nofun⟩
  · exact hidle
  rename_i rejected hfetch
  split
  · exact hidle
  · rename_i e queue hq
    have hmem : ∀ d ∈ queue, d ∈ r.queue := by
      rw [hq]
      exact fun d hd => mem_cons_of_mem e hd
    split
    · exact ⟨⟨.inl rfl, hmem, fun _ h => .inl h⟩, nofun⟩
    · rename_i r₁ hdoc
      obtain ⟨hreads, hends⟩ := handleStreamCatchup_spec last t.token r₁
      cases rejected with
      | true => cases hdoc
      | false =>
        obtain ⟨token, htoken, rfl⟩ := map_eq_some_iff.1 hdoc
        refine ⟨ReadsOn.trans ⟨.inr ⟨token, htoken, rfl⟩, hmem, fun row hrow => ?_⟩ hreads,
          fun r' x h => ⟨fun _ => .inr ⟨hfetch, by rw [hq]; exact cons_ne_nil e queue⟩, (hends r' x h).2⟩⟩
        rcases mem_append.1 hrow with hrow | hrow
        · exact .inl hrow
        · refine .inr ⟨e, ?_, (mem_singleton.1 hrow).symm⟩
          rw [hq]
          exact mem_cons_self

/-- However a pass ends, it has read on. -/
theorem followStream_readsOn (lastOplogTime : Timestamp) (ticks : List Tick) (r : Reader Row) :
    ReadsOn { x | ∃ t ∈ ticks, t.token = some x } r (followStream lastOplogTime ticks r).reader := by
  induction ticks generalizing r with
  | nil => exact ReadsOn.refl _ r
  | cons t ticks ih =>
    have hturn : ReadsOn { x | ∃ t' ∈ t :: ticks, t'.token = some x } r
        (turn lastOplogTime t r).reader :=
      (turn_spec lastOplogTime t r).1.mono (fun x hx => ⟨t, mem_cons_self, hx⟩)
    unfold followStream
    cases hres : turn lastOplogTime t r with
    | goesOn r' =>
      rw [hres] at hturn
      refine hturn.trans ((ih r').mono ?_)
      rintro x ⟨t', ht', hx⟩
      exact ⟨t', mem_cons_of_mem _ ht', hx⟩
    | caughtUp | failed =>
      rw [hres] at hturn
      exact hturn

variable [DecidableEq S] {streams : List S} (i : Input streams)

/-- The pass of a call that follows the change stream. -/
def passOf (w : World S Row) (last : Timestamp) : Pass Row :=
  followStream last i.ticks (w.reader i.stream)

omit [DecidableEq S] in
theorem passOf_readsOn (w : World S Row) (last : Timestamp) :
    ReadsOn { x | ∃ t ∈ i.ticks, t.token = some x } (w.reader i.stream) (passOf i w last).reader :=
  followStream_readsOn last i.ticks (w.reader i.stream)

inductive StreamedAs (i : Input streams) (w : World S Row) (states : S → Option String) :
    Streamed (World S Row) S Row String → Prop
  | failed : StreamedAs i w states
      { world := w, pushed := [], final := fun _ => none, exit := .err }
  /-- The metadata is ahead of the state. -/
  | recovered (m : String) (h : w.cursor i.stream < m) : StreamedAs i w states
      { world := { w with cdcCursor := Function.update w.cdcCursor i.stream (some m) }
        pushed := [], final := fun _ => some m, exit := .ok }
  | followed (last : Timestamp) (hlast : i.lastOplogTime = some last)
      (hmeta : ∀ m, states i.stream = some m → m ≤ w.cursor i.stream) :
      StreamedAs i w states
        { world :=
            { w with
              cdcCursor := Function.update w.cdcCursor i.stream (passOf i w last).reader.cdcCursor }
          pushed := (passOf i w last).reader.pushed.map (fun r => (i.stream, r))
          final := fun _ => (passOf i w last).final
          exit := (passOf i w last).exit }

theorem StreamChanges_as (w : World S Row) (states : S → Option String) :
    StreamedAs i w states (StreamChanges i w states) := by
  have hforward : (∀ m, states i.stream = some m → m ≤ w.cursor i.stream) →
      StreamedAs i w states (streamForward i w) := by
    intro hmeta
    unfold streamForward
    split
    · exact .failed
    split
    · exact .failed
    · rename_i last hlast _
      exact .followed last hlast hmeta
  unfold StreamChanges
  split
  · rename_i hnone
    refine hforward (fun m hm => ?_)
    rw [hnone] at hm
    cases hm
  · rename_i mtState hsome
    split
    · rename_i hlt
      exact .recovered mtState hlt
    · rename_i hge
      refine hforward (fun m hm => ?_)
      rw [← some.inj (hsome.symm.trans hm)]
      exact not_lt.1 hge

theorem streamed_as (a : Attempt streams) (sys : System S Row) :
    StreamedAs a.input sys.world sys.states (streamed driver a sys) :=
  StreamChanges_as a.input sys.world sys.states

/-- What the driver holds in the course of an attempt that found it as `w`. -/
structure Onward (streams : List S) (w w' : World S Row) : Prop where
  oplog : w'.oplog = w.oplog
  cursors : CursorsOnward streams w.cursor w'.cursor w'.cdcCursor

theorem Onward.post (h : Onward streams w w') (i : Input streams) (done : Bool) :
    Onward streams w (runPostCDC driver i done w') := by
  cases done with
  | true => simpa [runPostCDC, driver, PostCDC] using h
  | false =>
    cases hl : w'.cdcCursor i.stream with
    | none => simpa [runPostCDC, driver, PostCDC, hl] using h
    | some token =>
      have hsaved : runPostCDC driver i false w'
          = { w' with cursor := update w'.cursor i.stream token } := by
        simp [runPostCDC, driver, PostCDC, hl]
      rw [hsaved]
      exact ⟨h.oplog, h.cursors.save i.mem_streams hl⟩

structure Forward (streams : List S) (tokenOf : Row → String) (sys : System S Row) : Prop where
  stamped : Stamped tokenOf sys.world.oplog
  cursors : CursorsOnward streams sys.world.cursor sys.world.cursor sys.world.cdcCursor

variable {sys : System S Row} {tokenOf : Row → String}

omit [DecidableEq S] in
theorem Initial.forward (h : Initial streams sys) (hstamped : Stamped tokenOf sys.world.oplog) :
    Forward streams tokenOf sys where
  stamped := hstamped
  cursors := by
    refine ⟨fun _ => le_rfl, fun s hs l hl => ?_⟩
    rw [h s hs] at hl
    cases hl

variable {a : Attempt streams}

theorem Forward.streamed (h : Forward streams tokenOf sys) (hserved : ServesForward a sys) :
    Onward streams sys.world (streamed driver a sys).world := by
  have has := streamed_as a sys
  generalize Olake.streamed driver a sys = r at has ⊢
  cases has with
  | failed => exact ⟨rfl, h.cursors⟩
  | recovered m hlt => exact ⟨rfl, h.cursors.store (le_of_lt hlt)⟩
  | followed last hlast hmeta =>
    refine ⟨rfl, ?_⟩
    rcases (passOf_readsOn a.input sys.world last).cached with heq | ⟨token, ⟨t, ht, htoken⟩, heq⟩
    · rw [heq]
      show CursorsOnward streams _ _ (update _ _ (sys.world.cdcCursor a.input.stream))
      rw [update_eq_self]
      exact h.cursors
    · rw [heq]
      exact h.cursors.store (hserved t ht token htoken)

theorem Forward.attempted (h : Forward streams tokenOf sys) (hserved : ServesForward a sys) :
    Onward streams sys.world (streamChanges driver a sys).world :=
  streamChanges_world driver a sys ⟨rfl, h.cursors⟩ (h.streamed hserved)
    (fun done _ hw => hw.post a.input done) (fun _ hw => ⟨hw.oplog, hw.cursors.forget⟩)

theorem readsForward (streams : List S) (tokenOf : Row → String) :
    ReadsForward driver streams (StampedGrows tokenOf) ServesForward tokenOf World.cursor
      (Forward streams tokenOf) where
  step := by
    intro sys sys' h hstep
    cases hstep with
    | attempt a hserved =>
      have ha := h.attempted hserved
      refine ⟨⟨?_, fun _ => le_rfl, ha.cursors.cached_ge⟩, ha.cursors.cursor_le⟩
      rw [ha.oplog]
      exact h.stamped
    | restart => exact ⟨⟨h.stamped, h.cursors.forget⟩, fun _ => le_rfl⟩
    | source hw =>
      obtain ⟨⟨o, -, rfl⟩, hstamped⟩ := hw
      exact ⟨⟨hstamped, h.cursors⟩, fun _ => le_rfl⟩
  merge := fun _ _ => rfl
  pushed := by
    intro sys h a s r hr
    have has := streamed_as a sys
    generalize streamed driver a sys = out at has hr
    cases has with
    | failed | recovered => exact absurd hr not_mem_nil
    | followed last hlast hmeta =>
      obtain ⟨row, hrow, heq⟩ := mem_map.1 hr
      cases heq
      refine ⟨?_, hmeta⟩
      rcases (passOf_readsOn a.input sys.world last).pushed r hrow with hnil | ⟨e, he, rfl⟩
      · cases hnil
      · obtain ⟨hmem, hlt⟩ := Log.mem_after.1 he
        rw [h.stamped _ e hmem]
        exact hlt

/-! ### Where a pass ends -/

/-- The condition `P` holds at every turn the loop comes to. -/
def Along (lastOplogTime : Timestamp) (P : Tick → Reader Row → Prop) :
    List Tick → Reader Row → Prop
  | [], _ => True
  | t :: ticks, r => P t r ∧
      match turn lastOplogTime t r with
      | .goesOn r' => Along lastOplogTime P ticks r'
      | _ => True

variable {last : Timestamp}

/-- A pass that ends well has come to a turn where it caught up. -/
theorem Along.caughtUp (h : Along last P ticks r)
    (hfinal : (followStream last ticks r).final = some x)
    (hpushed : (followStream last ticks r).reader.pushed ≠ []) :
    ∃ t r', P t r' ∧ HasRows t r' ∧ Reached last t.token x := by
  induction ticks generalizing r with
  | nil => cases hfinal
  | cons t ticks ih =>
    obtain ⟨hP, hrest⟩ := h
    unfold followStream at hfinal hpushed
    cases hturn : turn last t r with
    | goesOn r' =>
      simp only [hturn] at hfinal hpushed hrest
      exact ih hrest hfinal hpushed
    | caughtUp r' token =>
      simp only [hturn] at hfinal hpushed
      obtain ⟨hrows, hend⟩ := (turn_spec last t r).2 r' token hturn
      rw [some.inj hfinal] at hend
      exact ⟨t, r, hP, hrows hpushed, hend⟩
    | failed r' =>
      simp only [hturn] at hfinal
      cases hfinal

/-- A pass over a stream whose flag is on, that has rows and commits them, does not end
before the end of the backfill: a token that has reached the cluster's time is not before.
Nothing is asked of a recovery, which reads nothing. -/
def CoversOverlap (a : Attempt streams) (L : Synced (World S Row) S Row String String) : Prop :=
  let s := a.input.stream
  let w := L.sys.world
  a.Commits s → dedupInsertsOf (L.sys.dest s).state = true →
    (∀ m, (L.sys.erase.dest s).state = some m → m ≤ w.cursor s) →
    ∀ last, a.input.lastOplogTime = some last →
      Along last (fun t r => HasRows t r → ∀ token op, t.token = some token →
        decodeResumeTokenOpTime token = some op → last.after op = false → L.backfillEnd s ≤ token)
        a.input.ticks (w.reader s)

theorem CoversOverlap.reachesEnd (h : CoversOverlap a L) : ReachesEnd driver a L := by
  intro s x hcommits hon _ hrows hfinal
  have has := streamed_as a L.sys.erase
  generalize streamed driver a L.sys.erase = out at has hrows hfinal
  cases has with
  | failed | recovered => exact absurd rfl hrows
  | followed last hlast hmeta =>
    by_cases hs : s = a.input.stream
    · subst hs
      have hpushed : (passOf a.input L.sys.erase.world last).reader.pushed ≠ [] := by
        intro hnil
        rw [hnil] at hrows
        exact hrows rfl
      obtain ⟨t, r', hP, hhas, htoken, op, hop, hreached⟩ :=
        (h hcommits hon hmeta last hlast).caughtUp hfinal hpushed
      exact hP hhas x op htoken hop hreached
    · exact absurd (rowsFor_map_of_ne hs _) hrows

end Olake.MongoDB
