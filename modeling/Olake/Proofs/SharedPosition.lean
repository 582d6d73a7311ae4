/-
Streams that share one source position.

MySQL and Postgres read all streams of a sync from one log, and save one position
for all of them, while each destination table remembers the position of the last
commit that had rows for it.  A process can die after any subset of the tables
has committed.  What it leaves is still simple: every table either stands at the
saved position (`InStep`), or at one position further on that is the same for all
the tables that got there (`Ahead`).

The lemmas here say that closing any subset of the writers of a pass keeps this
picture, and that closing all of them brings every table to the position of the
pass.  They know nothing of how a driver reads its log: a driver has to show only
that its pass hands each table in step the rows it is missing, and each table
ahead nothing (`Pushes`).
-/
import Olake.Lib.Log
import Olake.Model.SharedPosition
import Olake.Proofs.StreamChanges

namespace Olake

open List Option

variable {P Row : Type} [LinearOrder P]

/-! ### One table

`src p q` are the rows of the stream that the source holds after `p` and up to
`q`. -/

variable (src : P → P → List Row)

/-- The rows of consecutive ranges add up. -/
def Splits : Prop :=
  ∀ p q r, p ≤ q → q ≤ r → src p r = src p q ++ src q r

/-- The table holds the rows up to `saved`, each once, and nothing else. -/
structure InStep (start saved : P) (t : Table Row P) : Prop where
  rows : t.rows = src start saved
  state : ∀ m, t.state = some m → m ≤ saved

/-- The table has committed a pass up to `m` that was never saved. -/
structure Ahead (start saved m : P) (t : Table Row P) : Prop where
  rows : t.rows = src start m
  state : t.state = some m
  lt : saved < m

/-- How a position is merged into the metadata: it replaces the one in place. -/
def replace (_ final : P) : P := final

variable {src : P → P → List Row} {start saved m x : P} {t : Table Row P} {rows : List Row}

theorem Splits.self (h : Splits src) (p : P) : src p p = [] := by
  have heq := h p p p le_rfl le_rfl
  have hlen := congrArg length heq
  rw [length_append] at hlen
  exact eq_nil_of_length_eq_zero (by omega)

theorem Ahead.inStep (h : Ahead src start saved m t) : InStep src start m t where
  rows := h.rows
  state := fun m' hm' => by
    rw [h.state] at hm'
    exact le_of_eq (some.inj hm').symm

omit [LinearOrder P] in
theorem mergeState_replace (c : Option P) (x : P) : mergeState replace c (some x) = some x := by
  cases c <;> rfl

/-- A commit of the missing rows brings a table in step to the new position. -/
theorem InStep.commit (hsrc : Splits src) (h : InStep src start saved t) (hstart : start ≤ saved)
    (hx : saved ≤ x) (hrows : rows = src saved x) :
    InStep src start x (t.commit replace rows (some x)) where
  rows := by
    rw [commit_rows, h.rows, hrows]
    exact (hsrc start saved x hstart hx).symm
  state := fun m' hm' => by
    by_cases hnil : rows = []
    · rw [hnil] at hm'
      exact le_trans (h.state m' hm') hx
    · rw [commit_of_ne_nil _ _ hnil, mergeState_replace] at hm'
      exact le_of_eq (some.inj hm').symm

/-- Seen from the position still saved, that table is in step or ahead. -/
theorem InStep.commit_unsaved (hsrc : Splits src) (h : InStep src start saved t)
    (hstart : start ≤ saved) (hx : saved ≤ x) (hrows : rows = src saved x) :
    InStep src start saved (t.commit replace rows (some x)) ∨
      Ahead src start saved x (t.commit replace rows (some x)) := by
  by_cases hnil : rows = []
  · left
    rw [hnil]
    exact h
  · right
    refine ⟨(h.commit hsrc hstart hx hrows).rows, ?_, ?_⟩
    · rw [commit_of_ne_nil _ _ hnil, mergeState_replace]
    · rcases lt_or_eq_of_le hx with hlt | heq
      · exact hlt
      · rw [hrows, heq, hsrc.self] at hnil
        exact absurd rfl hnil

/-! ### The rows of a log

Each entry of the log ends at a position and carries row changes of any of the
streams. -/

section Source

variable {E S : Type} [DecidableEq S] {pos : E → P} {changes : E → List (S × Row)}

/-- The rows of stream `s` that a log holds after `p` and up to `q`. -/
def rowsBetween (pos : E → P) (changes : E → List (S × Row)) (log : List E) (s : S) (p q : P) :
    List Row :=
  rowsFor s ((Log.between pos p q log).flatMap changes)

/-- The changes of some entries that a change filter for `filter` lets through. -/
def delivered (changes : E → List (S × Row)) (filter : List S) (entries : List E) :
    List (S × Row) :=
  (entries.flatMap changes).filter (fun c => decide (c.1 ∈ filter))

@[simp] theorem delivered_cons (filter : List S) (e : E) (entries : List E) :
    delivered changes filter (e :: entries)
      = (changes e).filter (fun c => decide (c.1 ∈ filter)) ++ delivered changes filter entries := by
  simp [delivered]

theorem rowsBetween_splits (hinc : Log.Increasing pos log) (s : S) :
    Splits (rowsBetween pos changes log s) := by
  intro p q r hpq hqr
  unfold rowsBetween
  rw [Log.between_split hinc hpq hqr, flatMap_append, rowsFor_append]

theorem rowsBetween_extend (hnew : ∀ e ∈ new, q < pos e) (s : S)
    (p : P) : rowsBetween pos changes (log ++ new) s p q = rowsBetween pos changes log s p q := by
  unfold rowsBetween
  rw [Log.between_extend hnew]

theorem rowsFor_delivered {filter : List S} (hs : s ∈ filter)
    (hdone : Log.between pos p q log = done) :
    rowsFor s (delivered changes filter done) = rowsBetween pos changes log s p q := by
  unfold delivered rowsBetween
  rw [rowsFor_filter_of_mem hs, hdone]

theorem rowsFor_delivered_of_notMem {filter : List S} (hs : s ∉ filter)
    (entries : List E) : rowsFor s (delivered changes filter entries) = [] :=
  rowsFor_filter_of_notMem hs _

end Source

/-! ### Which streams a pass leaves out -/

section Metadata

variable {S : Type}

/-- The metadata of `s` is ahead of the state file. -/
def IsAhead (state : P) (states : S → Option P) (s : S) : Prop :=
  ∃ m, states s = some m ∧ state < m

variable {state : P} {states : S → Option P}

theorem noteMetadata_of_ahead (acc : P × List S) (hm : states s = some m) (hlt : state < m) :
    noteMetadata state states acc s = (m, acc.2 ++ [s]) := by
  simp [noteMetadata, hm, hlt]

theorem noteMetadata_of_not (acc : P × List S)
    (h : ¬ IsAhead state states s) : noteMetadata state states acc s = acc := by
  unfold noteMetadata
  cases hm : states s with
  | none => rfl
  | some m => exact if_neg (fun hlt => h ⟨m, hm, hlt⟩)

private theorem noteMetadata_fold (state : P) (states : S → Option P) :
    ∀ (order : List S) (acc : P × List S),
    (∀ s, s ∈ (order.foldl (noteMetadata state states) acc).2 ↔
      s ∈ acc.2 ∨ (s ∈ order ∧ IsAhead state states s)) ∧
    (order.foldl (noteMetadata state states) acc = acc ∨
      ∃ s ∈ order, state < (order.foldl (noteMetadata state states) acc).1 ∧
        states s = some (order.foldl (noteMetadata state states) acc).1) := by
  intro order
  induction order with
  | nil => intro acc; simp
  | cons a rest ih =>
    intro acc
    rw [foldl_cons]
    by_cases ha : IsAhead state states a
    · obtain ⟨m, hm, hlt⟩ := ha
      rw [noteMetadata_of_ahead acc hm hlt]
      obtain ⟨hmem, hlast⟩ := ih (m, acc.2 ++ [a])
      refine ⟨fun s => ?_, .inr ?_⟩
      · rw [hmem s]
        simp only [mem_append, mem_cons, not_mem_nil, or_false]
        constructor
        · rintro ((h | rfl) | ⟨h, hs⟩)
          · exact .inl h
          · exact .inr ⟨.inl rfl, m, hm, hlt⟩
          · exact .inr ⟨.inr h, hs⟩
        · rintro (h | ⟨rfl | h, hs⟩)
          · exact .inl (.inl h)
          · exact .inl (.inr rfl)
          · exact .inr ⟨h, hs⟩
      · rcases hlast with heq | ⟨s, hs, h⟩
        · rw [heq]
          exact ⟨a, mem_cons_self, hlt, hm⟩
        · exact ⟨s, mem_cons_of_mem _ hs, h⟩
    · rw [noteMetadata_of_not acc ha]
      obtain ⟨hmem, hlast⟩ := ih acc
      refine ⟨fun s => ?_, ?_⟩
      · rw [hmem s, mem_cons]
        constructor
        · rintro (h | ⟨h, hs⟩)
          · exact .inl h
          · exact .inr ⟨.inr h, hs⟩
        · rintro (h | ⟨rfl | h, hs⟩)
          · exact .inl h
          · exact absurd hs ha
          · exact .inr ⟨h, hs⟩
      · rcases hlast with heq | ⟨s, hs, h⟩
        · exact .inl heq
        · exact .inr ⟨s, mem_cons_of_mem _ hs, h⟩

theorem mem_finished (zero : P) :
    s ∈ (readMetadata zero state states order).2 ↔ s ∈ order ∧ IsAhead state states s := by
  unfold readMetadata
  rw [(noteMetadata_fold state states order _).1 s]
  simp

theorem mem_remainingStreams [DecidableEq S] {s : S} :
    s ∈ remainingStreams streams finishedStreams ↔ s ∈ streams ∧ s ∉ finishedStreams := by
  unfold remainingStreams
  split
  · rename_i hnil
    simp [hnil]
  · simp

end Metadata

/-! ### All tables of a sync -/

section Streams

variable {S σ : Type} [DecidableEq S] (src : S → P → P → List Row) (streams : List S)

/-- Every table is in step, or ahead at the one position `m`. -/
def Consistent (start saved m : P) (dest : S → Table Row P) : Prop :=
  ∀ s ∈ streams, InStep (src s) start saved (dest s) ∨ Ahead (src s) start saved m (dest s)

/-- What a pass up to `x` hands to the writers: to a table in step the rows it is
missing, to a table ahead nothing. -/
structure Pushes (start saved x : P) (dest : S → Table Row P) (r : Streamed σ S Row P) : Prop where
  final : ∀ s, r.final s = some x
  saved_le : saved ≤ x
  missing : ∀ s ∈ streams, InStep (src s) start saved (dest s) →
    rowsFor s r.pushed = src s saved x
  nothing : ∀ s ∈ streams, ∀ m, Ahead (src s) start saved m (dest s) →
    m = x ∧ rowsFor s r.pushed = []

variable {src streams} {dest : S → Table Row P} {r : Streamed σ S Row P}
  {outcome : S → CloseOutcome} {order : List S}

omit [DecidableEq S] in
theorem Consistent.ahead_of_isAhead (h : Consistent src streams start saved m dest)
    (hs : s ∈ streams) (hstate : (dest s).state = some m') (hlt : saved < m') : m' = m := by
  rcases h s hs with hin | hahead
  · exact absurd hlt (not_lt.2 (hin.state m' hstate))
  · exact some.inj (hstate.symm.trans hahead.state)

/-- However many of the writers commit, the tables stay consistent. -/
theorem Consistent.closed (hsrc : ∀ s, Splits (src s)) (hstart : start ≤ saved)
    (h : Consistent src streams start saved m dest) (hp : Pushes src streams start saved x dest r) :
    Consistent src streams start saved x (destAfter replace r outcome order dest) := by
  intro s hs
  unfold destAfter
  rcases h s hs with hin | hahead
  · split
    · rw [hp.final s]
      exact hin.commit_unsaved (hsrc s) hstart hp.saved_le (hp.missing s hs hin)
    · exact .inl hin
  · obtain ⟨rfl, hnil⟩ := hp.nothing s hs m hahead
    rw [hnil, commit_nil, ite_self]
    exact .inr hahead

/-- When all writers commit, every table stands at the position of the pass. -/
theorem Consistent.closed_all (hsrc : ∀ s, Splits (src s)) (hstart : start ≤ saved)
    (h : Consistent src streams start saved m dest)
    (hp : Pushes src streams start saved x dest r) (hall : ∀ s ∈ streams, outcome s = .committed) :
    ∀ s ∈ streams, InStep (src s) start x (destAfter replace r outcome streams dest s) := by
  intro s hs
  unfold destAfter
  have hdurable : (outcome s).durable = true := by rw [hall s hs]; rfl
  rw [if_pos ⟨hs, hdurable⟩]
  rcases h s hs with hin | hahead
  · rw [hp.final s]
    exact hin.commit (hsrc s) hstart hp.saved_le (hp.missing s hs hin)
  · obtain ⟨rfl, hnil⟩ := hp.nothing s hs m hahead
    rw [hnil]
    exact hahead.inStep

/-! ### Positions ahead

What is left of the picture when nothing is known of the rows. -/

/-- The tables that are ahead of the state file are all at `m`. -/
def AheadAt (streams : List S) (saved : P) (states : S → Option P) (m : P) : Prop :=
  ∀ s ∈ streams, IsAhead saved states s → states s = some m

omit [DecidableEq S] in
theorem Consistent.aheadAt (h : Consistent src streams start saved m dest) :
    AheadAt streams saved (fun s => (dest s).state) m := by
  rintro s hs ⟨m', hm', hlt⟩
  rw [← h.ahead_of_isAhead hs hm' hlt]
  exact hm'

omit [DecidableEq S] in
/-- Then no order of the tables changes the position that a pass recovers to. -/
theorem AheadAt.recoveryPos (zero : P)
    (h : AheadAt streams saved states m) (horder : ∀ s, s ∈ order ↔ s ∈ streams) :
    (readMetadata zero saved states order = (zero, []) ∧ ¬ ∃ s ∈ streams, IsAhead saved states s) ∨
      ((readMetadata zero saved states order).1 = m ∧ (readMetadata zero saved states order).2 ≠ [] ∧
        saved < m ∧ ∃ s ∈ streams, IsAhead saved states s) := by
  have hfin : ∀ s ∈ streams, IsAhead saved states s → s ∈ (readMetadata zero saved states order).2 :=
    fun s hs hahead => (mem_finished zero).2 ⟨(horder s).2 hs, hahead⟩
  rcases (noteMetadata_fold saved states order (zero, [])).2 with hnone | ⟨s, hs, hlt, hst⟩
  · refine .inl ⟨hnone, fun ⟨s, hs, hahead⟩ => absurd (hfin s hs hahead) ?_⟩
    rw [show readMetadata zero saved states order = _ from hnone]
    exact not_mem_nil
  · have hs' := (horder s).1 hs
    have hahead : IsAhead saved states s := ⟨_, hst, hlt⟩
    have hm := some.inj (hst.symm.trans (h s hs' hahead))
    exact .inr ⟨hm, ne_nil_of_mem (hfin s hs' hahead), hm ▸ hlt, s, hs', hahead⟩

omit [LinearOrder P] in
/-- Closing any of the writers of a pass to `x` leaves a table as it is, or at `x`. -/
theorem state_destAfter (outcome : S → CloseOutcome) (order : List S) (dest : S → Table Row P)
    (hfinal : ∀ s, r.final s = some x) (s : S) :
    (destAfter replace r outcome order dest s).state = (dest s).state ∨
      (destAfter replace r outcome order dest s).state = some x ∧ rowsFor s r.pushed ≠ [] := by
  rcases destAfter_cases replace r outcome order dest s with heq | ⟨-, hrows, heq⟩
  · exact .inl (congrArg Table.state heq)
  · rw [heq, commit_of_ne_nil _ _ hrows, hfinal s]
    exact .inr ⟨mergeState_replace _ _, hrows⟩

theorem AheadAt.closed (h : AheadAt streams saved (fun s => (dest s).state) x)
    (hfinal : ∀ s, r.final s = some x) :
    AheadAt streams saved (fun s => (destAfter replace r outcome order dest s).state) x := by
  intro s hs hahead
  dsimp only
  rcases state_destAfter outcome order dest hfinal s with heq | ⟨heq, -⟩
  · rw [heq]
    refine h s hs ?_
    obtain ⟨y, hy, hlt⟩ := hahead
    exact ⟨y, heq.symm.trans hy, hlt⟩
  · exact heq

theorem AheadAt.not_ahead (h : AheadAt streams saved (fun s => (dest s).state) x)
    (hfinal : ∀ s, r.final s = some x) (hle : saved ≤ x) (hs : s ∈ streams) :
    ¬ IsAhead x (fun s => (destAfter replace r outcome order dest s).state) s := by
  rintro ⟨y, hy, hlt⟩
  rcases state_destAfter outcome order dest hfinal s with heq | ⟨heq, -⟩
  · have hsome : (dest s).state = some y := heq.symm.trans hy
    have hyx := h s hs ⟨y, hsome, lt_of_le_of_lt hle hlt⟩
    exact absurd (some.inj (hsome.symm.trans hyx)) (ne_of_gt hlt)
  · exact absurd (some.inj (hy.symm.trans heq)) (ne_of_gt hlt)

end Streams

end Olake
