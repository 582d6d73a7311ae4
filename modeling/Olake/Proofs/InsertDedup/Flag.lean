/-
The insert-dedup flag, for every driver that reads forward.

Forgetting operations and flags turns a sync into one of the driver alone
(`erase_streamChanges`), so whatever is known about the driver's runs still holds.  What a
driver has to offer is that it reads forward: it emits nothing at or before a position
that it has saved or that is recorded in the table's metadata.  Then the flag is right as
long as it is on or one of the two positions has passed the end of the backfill.  A commit
is the only thing that can break this: it turns the flag off whatever position it carries.
-/
import Olake.Model.InsertDedup
import Olake.Proofs.StreamChanges

namespace Olake

open List Option

variable {S Row Meta σ In P : Type} [DecidableEq S]

/-! ### Forgetting operations and flags -/

/-- The table of the driver alone. -/
def Table.erase (t : Table (Row × OpType) (MetadataState Meta)) : Table Row Meta where
  rows := t.rows.map Prod.fst
  state := t.state.bind MetadataState.state

def System.erase (sys : System σ S (Row × OpType) (MetadataState Meta)) : System σ S Row Meta where
  world := sys.world
  dest := fun s => (sys.dest s).erase

/-- The metadata state that a change writer is closed with. -/
def cleared (state : Meta) : MetadataState Meta := ⟨some state, some false⟩

theorem mergeState_erase (merge : Meta → Meta → Meta) (current : Option (MetadataState Meta))
    (final : Option Meta) :
    (mergeState (mergeStreamMetadataState merge) current (final.map cleared)).bind
        MetadataState.state = mergeState merge (current.bind MetadataState.state) final := by
  cases current with
  | none => cases final <;> rfl
  | some c =>
    cases final with
    | none => cases hc : c.state <;> simp [mergeState]
    | some f => rfl

theorem commit_erase (merge : Meta → Meta → Meta) (t : Table (Row × OpType) (MetadataState Meta))
    (rows : List (Row × OpType)) (final : Option Meta) :
    (t.commit (mergeStreamMetadataState merge) rows (final.map cleared)).erase
      = t.erase.commit merge (rows.map Prod.fst) final := by
  by_cases hrows : rows = []
  · subst hrows
    rw [commit_nil, map_nil, commit_nil]
  · have hmap : rows.map Prod.fst ≠ [] := by simpa using hrows
    rw [commit_of_ne_nil _ _ hrows, commit_of_ne_nil _ _ hmap]
    unfold Table.erase
    rw [map_append, mergeState_erase]

section Erase

variable (D : DriverInterface S Row Meta σ In) (kind : Row → ChangeKind) (cfg : S → StreamConfig)
  {streams : List S}

theorem rowsFor_withDedup (a : Attempt streams In)
    (sys : System σ S (Row × OpType) (MetadataState Meta)) (s : S) :
    (rowsFor s (streamed (withDedup D kind cfg) a sys).pushed).map Prod.fst
      = rowsFor s (streamed D a sys.erase).pushed := by
  show (rowsFor s ((streamed D a sys.erase).pushed.map _)).map Prod.fst = _
  unfold rowsFor
  rw [filterMap_map, map_filterMap]
  congr 1
  funext change
  by_cases hs : change.1 = s
  · simp
  · simp

/-- **An attempt does to the driver alone what it does to the driver with the flag.** -/
theorem erase_streamChanges (a : Attempt streams In)
    (sys : System σ S (Row × OpType) (MetadataState Meta)) :
    (streamChanges (withDedup D kind cfg) a sys).erase = streamChanges D a sys.erase := by
  have hcommit : ∀ s (t : Table _ _), Table.erase (t.commit (withDedup D kind cfg).merge
        (rowsFor s (streamed (withDedup D kind cfg) a sys).pushed)
        ((streamed (withDedup D kind cfg) a sys).final s))
      = t.erase.commit D.merge (rowsFor s (streamed D a sys.erase).pushed)
        ((streamed D a sys.erase).final s) := by
    intro s t
    rw [← rowsFor_withDedup D kind cfg]
    exact commit_erase D.merge t _ _
  have hexit : (streamed (withDedup D kind cfg) a sys).exit = (streamed D a sys.erase).exit := rfl
  unfold streamChanges
  cases a.createFails with
  | some kd => rfl
  | none =>
    show (runDeferred _ a sys.dest (streamed (withDedup D kind cfg) a sys)).erase =
      runDeferred D a (fun s => (sys.dest s).erase) (streamed D a sys.erase)
    unfold runDeferred
    simp only [hexit, closeWriters_map Table.erase hcommit]
    cases (streamed D a sys.erase).exit <;> cases a.diesAfter <;> rfl

end Erase

/-! ### Drivers that read forward -/

section Forward

variable [LinearOrder Meta] {streams : List S}

/-- A driver whose metadata states are positions: the position `emittedAt` of a row and the
position `saved` for a stream.  In every state that `Inv` describes the saved position never
goes back, and rows are emitted for a stream only behind it, and only when the position in the
metadata is not ahead of it.  `Served` is what the server is assumed to do in an attempt. -/
structure ReadsForward (D : DriverInterface S Row Meta σ In) (streams : List S)
    (Grows : σ → σ → Prop) (Served : Attempt streams In → System σ S Row Meta → Prop)
    (emittedAt : Row → Meta) (saved : σ → S → Meta) (Inv : System σ S Row Meta → Prop) : Prop where
  step : ∀ {sys sys' : System σ S Row Meta}, Inv sys → Step D streams Grows Served sys sys' →
    Inv sys' ∧ ∀ s, saved sys.world s ≤ saved sys'.world s
  merge : ∀ current final, D.merge current final = final
  pushed : ∀ {sys : System σ S Row Meta}, Inv sys → ∀ (a : Attempt streams In) {s : S} {r : Row},
    (s, r) ∈ (streamed D a sys).pushed →
      saved sys.world s < emittedAt r ∧ ∀ m, (sys.dest s).state = some m → m ≤ saved sys.world s

variable {D : DriverInterface S Row Meta σ In} {kind : Row → ChangeKind} {cfg : S → StreamConfig}
  {Grows : σ → σ → Prop} {emittedAt : Row → Meta} {saved : σ → S → Meta}
  {Inv : System σ S Row Meta → Prop} {Served : Attempt streams In → System σ S Row Meta → Prop}
  {Allowed : Attempt streams In → Synced σ S Row Meta Meta → Prop}

/-- The position saved for the stream, or the one recorded for it, has passed the end of
its backfill. -/
def Passed (saved : σ → S → Meta) (L : Synced σ S Row Meta Meta) (s : S) : Prop :=
  L.backfillEnd s ≤ saved L.sys.world s ∨
    ∃ m, (L.sys.dest s).state.bind MetadataState.state = some m ∧ L.backfillEnd s ≤ m

/-- The attempt commits what it streams for `s`, if it streams at all. -/
def Attempt.Commits (a : Attempt streams In) (s : S) : Prop :=
  a.createFails = none ∧ (a.outcome s).durable = true

/-- A commit for a stream whose flag is on carries a position at or behind the end of its
backfill. -/
def ReachesEnd (D : DriverInterface S Row Meta σ In) (a : Attempt streams In) (L : Synced σ S Row Meta Meta) : Prop :=
  ∀ s x, a.Commits s → dedupInsertsOf (L.sys.dest s).state = true →
    (streamed D a L.sys.erase).exit = .ok →
    rowsFor s (streamed D a L.sys.erase).pushed ≠ [] →
    (streamed D a L.sys.erase).final s = some x → L.backfillEnd s ≤ x

/-- The flag is on as long as the change stream can meet rows of the backfill. -/
structure FlagHolds (saved : σ → S → Meta) (Inv : System σ S Row Meta → Prop)
    (L : Synced σ S Row Meta Meta) : Prop where
  inv : Inv L.sys.erase
  flag : ∀ s, dedupInsertsOf (L.sys.dest s).state = true ∨ Passed saved L s

omit [LinearOrder Meta] in
theorem Synced.backfilled_erase (L : Synced σ S Row Meta Meta) (s : S) (p : Meta) :
    (L.backfilled s p).sys.erase = L.sys.erase := by
  unfold Synced.backfilled System.erase
  congr 1
  funext s'
  by_cases hs : s' = s
  · subst hs
    simp [Table.erase, commitBackfillMetadata]
  · simp [hs]

variable {L : Synced σ S Row Meta Meta}

theorem FlagHolds.backfill (h : FlagHolds saved Inv L) (s : S) (p : Meta)
    : FlagHolds saved Inv (L.backfilled s p) := by
  refine ⟨?_, fun s' => ?_⟩
  · rw [L.backfilled_erase s p]
    exact h.inv
  · by_cases hs : s' = s
    · subst hs
      simp [Synced.backfilled, commitBackfillMetadata, dedupInsertsOf]
    · have hs' := h.flag s'
      simpa [Synced.backfilled, Passed, hs] using hs'

theorem FlagHolds.move (hD : ReadsForward D streams Grows Served emittedAt saved Inv)
    (h : FlagHolds saved Inv L)
    (hstep : Step D streams Grows Served L.sys.erase { L.sys.erase with world := w }) :
    FlagHolds saved Inv { L with sys := { L.sys with world := w } } := by
  obtain ⟨hinv, hsaved⟩ := hD.step h.inv hstep
  exact ⟨hinv, fun s => (h.flag s).imp_right fun hp => hp.imp_left (le_trans · (hsaved s))⟩

omit [DecidableEq S] [LinearOrder Meta] in
theorem mem_pushed_withDedup : (s, (r, op)) ∈ (streamed (withDedup D kind cfg) a sys).pushed ↔
      (s, r) ∈ (streamed D a sys.erase).pushed ∧
        op = mapChangeKindToOperationType (kind r) (dedupInsertsOf (sys.dest s).state) (cfg s) := by
  show (s, (r, op)) ∈ (streamed D a sys.erase).pushed.map _ ↔ _
  rw [List.mem_map]
  constructor
  · rintro ⟨⟨s', r'⟩, hmem, heq⟩
    cases heq
    exact ⟨hmem, rfl⟩
  · rintro ⟨hmem, rfl⟩
    exact ⟨(s, r), hmem, rfl⟩

variable (hD : ReadsForward D streams Grows Served emittedAt saved Inv)
include hD

theorem FlagHolds.attempt (h : FlagHolds saved Inv L) (a : Attempt streams In)
    (hserved : Served a L.sys.erase) (ha : ReachesEnd D a L) :
    FlagHolds saved Inv { L with sys := streamChanges (withDedup D kind cfg) a L.sys } := by
  have hstep : Step D streams Grows Served L.sys.erase
      (streamChanges (withDedup D kind cfg) a L.sys).erase := by
    rw [erase_streamChanges]
    exact .attempt a hserved
  have hdest := streamChanges_dest (withDedup D kind cfg) a L.sys
  generalize streamChanges (withDedup D kind cfg) a L.sys = sys' at hstep hdest ⊢
  obtain ⟨hinv, hsaved⟩ := hD.step h.inv hstep
  have hmoved : ∀ s, L.backfillEnd s ≤ saved L.sys.world s → L.backfillEnd s ≤ saved sys'.world s :=
    fun s hle => le_trans hle (hsaved s)
  refine ⟨hinv, fun s => ?_⟩
  have hsame : (sys'.dest s).state = (L.sys.dest s).state →
      dedupInsertsOf (sys'.dest s).state = true ∨ Passed saved { L with sys := sys' } s := by
    intro hstate
    unfold Passed
    rw [hstate]
    exact (h.flag s).imp_right (fun hp => hp.imp_left (hmoved s))
  rcases hdest s with heq | ⟨hc, hok, hdurable, hrows, hcommit⟩
  · exact hsame (by rw [heq])
  have hstate : (sys'.dest s).state = mergeState (mergeStreamMetadataState D.merge)
      (L.sys.dest s).state (((streamed D a L.sys.erase).final s).map cleared) := by
    rw [hcommit, commit_of_ne_nil _ _ hrows]
    rfl
  cases hfinal : (streamed D a L.sys.erase).final s with
  | none =>
    -- the rows are committed without a position
    refine hsame (hstate.trans ?_)
    rw [hfinal]
    cases (L.sys.dest s).state <;> rfl
  | some x =>
    right
    have hrows' : rowsFor s (streamed D a L.sys.erase).pushed ≠ [] := by
      rw [← rowsFor_withDedup D kind cfg]
      exact fun hnil => hrows (map_eq_nil_iff.1 hnil)
    have hrecorded : (sys'.dest s).state.bind MetadataState.state = some x := by
      rw [hstate, mergeState_erase, hfinal]
      cases (L.sys.dest s).state.bind MetadataState.state <;> simp [mergeState, hD.merge]
    rcases h.flag s with hon | hle | ⟨c, hc, hle⟩
    · exact .inr ⟨x, hrecorded, ha s x ⟨hc, hdurable⟩ hon hok hrows' hfinal⟩
    · exact .inl (hmoved s hle)
    · obtain ⟨r, hr⟩ := exists_mem_of_ne_nil _ hrows'
      exact .inl (hmoved s (le_trans hle ((hD.pushed h.inv a (mem_rowsFor.1 hr)).2 c hc)))

theorem FlagHolds.reaches (hAllowed : ∀ a L, Inv L.sys.erase → Allowed a L →
      Served a L.sys.erase ∧ ReachesEnd D a L) (h : FlagHolds saved Inv L)
    (hreach : SyncReaches D kind cfg streams Grows Allowed L L') : FlagHolds saved Inv L' := by
  induction hreach with
  | refl => exact h
  | tail _ hstep ih =>
    cases hstep with
    | backfill s p => exact ih.backfill s p
    | attempt a ha =>
      obtain ⟨hserved, hend⟩ := hAllowed a _ ih.inv ha
      exact ih.attempt hD a hserved hend
    | restart => exact ih.move hD .restart
    | source hw => exact ih.move hD (.source hw)

/-- While the flag holds, no insert at or before the end of the backfill is a plain create. -/
theorem FlagHolds.not_create (h : FlagHolds saved Inv L) (a : Attempt streams In)
    (hr : (s, (r, op)) ∈ (streamed (withDedup D kind cfg) a L.sys).pushed)
    (hend : emittedAt r ≤ L.backfillEnd s) :
    dedupInsertsOf (L.sys.dest s).state = true ∧ op ≠ .c := by
  obtain ⟨hmem, rfl⟩ := mem_pushed_withDedup.1 hr
  obtain ⟨hsaved, hrecorded⟩ := hD.pushed h.inv a hmem
  have hon : dedupInsertsOf (L.sys.dest s).state = true := by
    rcases h.flag s with hon | hle | ⟨m, hm, hle⟩
    · exact hon
    · exact absurd (lt_of_le_of_lt hle hsaved) (not_lt.2 hend)
    · exact absurd (lt_of_le_of_lt (le_trans hle (hrecorded m hm)) hsaved) (not_lt.2 hend)
  refine ⟨hon, ?_⟩
  rw [hon]
  unfold mapChangeKindToOperationType
  split
  · decide
  split
  · decide
  split
  · decide
  · decide

end Forward

/-! ### Drivers with a cursor for each stream -/

section Cursors

variable [LinearOrder P] {streams : List S} {start cursor : S → P} {cached : S → Option P}

/-- What a driver with a cursor for each stream holds in the course of an attempt that
found the cursors at `start`: none has gone back, and the position it has cached for a
stream, to be saved next, is not behind the cursor. -/
structure CursorsOnward (streams : List S) (start cursor : S → P) (cached : S → Option P) :
    Prop where
  cursor_le : ∀ s, start s ≤ cursor s
  cached_ge : ∀ s ∈ streams, ∀ l, cached s = some l → cursor s ≤ l

omit [DecidableEq S] in
theorem CursorsOnward.forget (h : CursorsOnward streams start cursor cached) :
    CursorsOnward streams start cursor (fun _ => none) :=
  ⟨h.cursor_le, nofun⟩

theorem CursorsOnward.store (h : CursorsOnward streams start cursor cached)
    (hle : cursor s ≤ l) : CursorsOnward streams start cursor (Function.update cached s (some l)) := by
  refine ⟨h.cursor_le, fun s' hs' l' hl' => ?_⟩
  by_cases hst : s' = s
  · subst hst
    rw [Function.update_self] at hl'
    rw [← some.inj hl']
    exact hle
  · rw [Function.update_of_ne hst] at hl'
    exact h.cached_ge s' hs' l' hl'

theorem CursorsOnward.save (h : CursorsOnward streams start cursor cached)
    (hs : s ∈ streams) (hl : cached s = some l) :
    CursorsOnward streams start (Function.update cursor s l) cached := by
  have hle := h.cached_ge s hs l hl
  refine ⟨fun s' => ?_, fun s' hs' l' hl' => ?_⟩
  · by_cases hst : s' = s
    · subst hst
      simpa using le_trans (h.cursor_le s') hle
    · simpa [hst] using h.cursor_le s'
  · by_cases hst : s' = s
    · subst hst
      simp [some.inj (hl.symm.trans hl')]
    · simpa [hst] using h.cached_ge s' hs' l' hl'

end Cursors

end Olake
