/-
Any number of writers of one table, each stopped anywhere.

A run is a list of sections, `Setup` or `Close`, each with the faults it meets.  As
long as no writer finds a finished commit of the other kind in the staging area, every
section leaves at most one finished commit on its way, and a `Setup` that finishes
leaves none.
-/
import Olake.Proofs.Parquet.Recovery

namespace Olake.Parquet

open Faulty Faulty.Prog List

variable {p : Config} {made : List Attempt} (hwf : WellFormed p made) {a : Attempt}
  {fin : List Attempt}

/-! ### Close -/

/-- While the files of `a` are being staged. -/
def Staging (p : Config) (made fin : List Attempt) (a : Attempt) (w : World) : Prop :=
  IdleAt p made fin w ∧ Alone (p := p) a w

variable {w : World}

theorem Alone.put (h : Alone (p := p) a w) (hf : f ∈ a.files) :
    Alone (p := p) a (w.put (stagingObjectKey p a.writer f) (a.object f)) := by
  intro k hk hat
  by_cases heq : k = stagingObjectKey p a.writer f
  · rw [heq]
    exact .inl ⟨f, hf, rfl, at_put_self w _ _⟩
  · rw [at_put_ne w _ heq] at hat ⊢
    exact h k hk hat

include hwf in
theorem upload_staging (ha : a ∈ made) (hfin : a ∉ fin) :
    Spec (Staging p made fin a) (Staging p made fin a) (uploadPqFiles p a.writer a.files)
      (fun _ w => Staging p made fin a w ∧
        ∀ f ∈ a.files, w.at (stagingObjectKey p a.writer f) = some (a.object f)) := by
  refine (Spec.concurrent (J := fun before w => Staging p made fin a w ∧
      ∀ f ∈ before, w.at (stagingObjectKey p a.writer f) = some (a.object f)) a.files
    (fun _ rest w hw => hw.imp_right fun h g hg => h g (mem_append_left rest hg))
    (fun before f hf => ?_)).mono (fun w hw => hw.1) (fun w hw => ⟨hw, nofun⟩) (fun _ w hw => hw)
  refine writeS3Object_spec _ _ (fun w hw => hw) (fun w hw => ?_)
  obtain ⟨⟨⟨hidle, hwfin⟩, halone⟩, hbefore⟩ := hw
  have hkeep : Staging p made fin a (w.put (stagingObjectKey p a.writer f) (a.object f)) :=
    ⟨⟨hidle.put hwf ha (hwfin ▸ hfin) hf, hwfin⟩, halone.put hf⟩
  have hall : ∀ g, g ∈ before ∨ g = f → (w.put (stagingObjectKey p a.writer f) (a.object f)).at
      (stagingObjectKey p a.writer g) = some (a.object g) := by
    intro g hg
    by_cases hgf : g = f
    · rw [hgf, at_put_self]
    · rw [at_put_ne w _ (fun heq => hgf (stagingKey_injective p heq))]
      exact hbefore g (hg.resolve_right hgf)
  exact ⟨⟨hkeep, fun g hg => hall g (.inl hg)⟩, hkeep, fun g hg => hall g (by simpa using hg)⟩

/-- Where a `Close` of `a` may stop. -/
def AnyClosing (p : Config) (made fin : List Attempt) (a : Attempt) (w : World) : Prop :=
  Any p made fin w ∨ Any p made (fin ++ [a]) w

include hwf in
/-- Upload, marker and roll-forward, after the recovery that comes first. -/
theorem commit_spec (ha : a ∈ made) (hfin : a ∉ fin)
    (hstate : a.writer = .stream → a.finalMetadataState ≠ none) :
    Spec (AnyClosing p made fin a)
      (fun w => IdleAt p made fin w ∧ Bare p a.writer.isBackfill w)
      (andThen (uploadPqFiles p a.writer a.files) (fun _ =>
        andThen (writeFinish p a a.finishState) (fun _ =>
          finalizeStaging p (currentStagingPrefix p a.writer) a.commitTo)))
      (fun _ => AnyClosing p made fin a) := by
  refine Spec.andThen ((upload_staging hwf ha hfin).mono (fun w hw => .inl hw.1.any)
    (fun w hw => ⟨hw.1, fun k hk hat => .inr (hw.2 k hk hat)⟩) (fun _ w hw => hw)) (fun _ => ?_)
  refine Spec.andThen (Q := fun _ => SealedAt p made a (fin ++ [a]))
    (Spec.call (fun w hw => .inl hw.1.1.any) (fun w hw => ?_)) (fun _ => ?_)
  · obtain ⟨⟨⟨hidle, hwfin⟩, halone⟩, hall⟩ := hw
    have hsealed : SealedAt p made a (fin ++ [a])
        { w.put (finishObjectKey p a.writer) (.finish a.finishState) with
          finished := w.finished ++ [a] } :=
      ⟨hidle.finish hwf ha (hwfin ▸ hfin) halone hall hstate rfl (at_put_self w _ _)
        fun k hk => at_put_ne w _ hk, by rw [hwfin]⟩
    exact ⟨.inr hsealed.any, hsealed⟩
  · exact (finalize_sealed hwf).mono (fun w hw => .inr hw) (fun w hw => hw)
      (fun _ w hw => .inr hw.1.any)

include hwf in
/-- However a `Close` ends, at most one finished attempt is on its way. -/
theorem close_after (ha : a ∈ made) (hfin : a ∉ fin) (hw : Ready p made fin a.writer.isBackfill w)
    (faults : List Fault) : AnyClosing p made fin a ((close p a).after faults w) := by
  have hrecover : ∀ b, Spec (AnyClosing p made fin a) (Ready p made fin b) (recoverStaging p b) _ :=
    fun b => (recoverStaging_spec hwf b).inv (fun w hw => .inl hw)
  have hstay : AnyClosing p made fin a w := .inl hw.any
  unfold close
  cases hwr : a.writer with
  | backfill t =>
    have hcommit := commit_spec hwf ha hfin (fun h => by rw [hwr] at h; cases h)
    simp only [Attempt.finishState, hwr, Writer.isBackfill, commitTo_backfill hwr] at hcommit
    rw [hwr] at hw
    by_cases hdone : a.ctxDone = true
    · simp only [if_pos hdone]
      exact hstay
    · simp only [if_neg hdone, finalizeBackfillStaging_eq]
      exact ((hrecover true).andThen (fun _ => hcommit)).after_inv (fun _ _ h => h) hw faults
  | stream =>
    rw [hwr] at hw
    by_cases hempty : a.files = []
    · simp only [if_pos hempty]
      split <;> exact hstay
    · simp only [if_neg hempty]
      cases hst : a.finalMetadataState with
      | none => exact hstay
      | some st =>
        have hcommit := commit_spec hwf ha hfin (fun _ => by rw [hst]; simp)
        simp only [Attempt.finishState, hwr, hst, Writer.isBackfill, commitTo_stream hwr hst]
          at hcommit
        by_cases hdone : a.ctxDone = true
        · simp only [if_pos hdone]
          exact hstay
        · simp only [if_neg hdone, finalizeStreamStaging_eq]
          exact ((hrecover false).andThen (fun _ => hcommit)).after_inv (fun _ _ h => h) hw faults

/-! ### Setup -/

include hwf in
theorem setup_spec (backfill : Bool) :
    Spec (Any p made fin) (Ready p made fin backfill) (setup p backfill)
      (fun m w => IdleAt p made fin w ∧ m = metadataAfter w.finished) := by
  refine (recoverStaging_spec hwf backfill).andThen (fun _ => ?_)
  refine (readMetadata_spec (fun w hw => hw.1.any) (fun w hw => ⟨_, hw.1.1.metadata⟩)).post ?_
  intro m w hw
  exact ⟨hw.1.1, hw.2.unique hw.1.1.1.metadata⟩

/-! ### Runs -/

/-- The sections that ran, each with the faults it met. -/
abbrev Run := List (Section × List Fault)

def attemptsOf (run : Run) : List Attempt :=
  run.filterMap (fun s =>
    match s.1 with
    | .close a => some a
    | .setup _ => none)

def runAll (p : Config) (run : Run) (w : World) : World :=
  run.foldl (fun w s => s.1.run p s.2 w) w

/-- No section finds a finished commit of the other kind of writer in the staging area. -/
def SamePhases (p : Config) : Run → World → Prop
  | [], _ => True
  | s :: rest, w => SamePhase p s.1.isBackfill w ∧ SamePhases p rest (s.1.run p s.2 w)

/-- A table that has not been written to. -/
structure Initial (p : Config) (made : List Attempt) (w : World) : Prop where
  nothing : ∀ k, InStaging p k → w.at k = none
  metadata : w.at (metadataObjectKey p) = none
  files : ∀ a ∈ made, ∀ f ∈ a.files, ∀ k, w.at k ≠ some (a.object f)
  finished : w.finished = []

theorem Initial.idle (h : Initial p made w) : IdleAt p made [] w := by
  refine ⟨⟨?_, fun k hk hat => absurd (h.nothing k hk) hat, ?_⟩, h.finished⟩
  · intro a ha
    refine ⟨fun hmem => ?_, fun _ f hf k hat => absurd hat (h.files a ha f hf k)⟩
    rw [h.finished] at hmem
    exact absurd hmem not_mem_nil
  · rw [h.finished]
    exact h.metadata

include hwf in
theorem Section.run_any {sec : Section} (hw : Ready p made fin sec.isBackfill w)
    (hsec : ∀ a, sec = .close a → a ∈ made ∧ a ∉ fin) (faults : List Fault) :
    ∃ fin', Any p made fin' (sec.run p faults w) ∧
      ∀ b ∈ fin', b ∈ fin ∨ sec = .close b := by
  cases sec with
  | setup backfill =>
    refine ⟨fin, (setup_spec hwf backfill).after_inv (fun _ w h => h.1.any) hw faults, ?_⟩
    exact fun b hb => .inl hb
  | close a =>
    obtain ⟨ha, hfin⟩ := hsec a rfl
    rcases close_after hwf ha hfin hw faults with h | h
    · exact ⟨fin, h, fun b hb => .inl hb⟩
    · refine ⟨fin ++ [a], h, fun b hb => ?_⟩
      rcases mem_append.1 hb with hb | hb
      · exact .inl hb
      · exact .inr (by rw [mem_singleton.1 hb])

include hwf in
theorem runAll_any : ∀ (run : Run) (w : World), (attemptsOf run).Nodup →
    (∀ a ∈ attemptsOf run, a ∈ made ∧ a ∉ fin) → Any p made fin w → SamePhases p run w →
    ∃ fin', Any p made fin' (runAll p run w) := by
  intro run
  induction run generalizing fin with
  | nil =>
    intro w _ _ hw _
    exact ⟨fin, hw⟩
  | cons s rest ih =>
    intro w hnodup hmade hw hphases
    obtain ⟨hphase, hrest⟩ := hphases
    have hsec : ∀ a, s.1 = .close a → a ∈ made ∧ a ∉ fin := by
      intro a hs
      apply hmade
      simp only [attemptsOf, filterMap_cons, hs]
      exact mem_cons_self
    obtain ⟨fin', hany, hfin'⟩ := Section.run_any hwf (hw.ready hphase) hsec s.2
    have htail : ∀ a ∈ attemptsOf rest, a ∈ attemptsOf (s :: rest) := by
      intro a ha
      obtain ⟨x, hx, hxa⟩ := mem_filterMap.1 ha
      exact mem_filterMap.2 ⟨x, mem_cons_of_mem _ hx, hxa⟩
    refine @ih fin' _ ?_ ?_ hany hrest
    · exact hnodup.sublist (List.Sublist.filterMap _ (sublist_cons_self s rest))
    · intro a ha
      refine ⟨(hmade a (htail a ha)).1, fun hmem => ?_⟩
      rcases hfin' a hmem with hold | hs
      · exact (hmade a (htail a ha)).2 hold
      · simp only [attemptsOf, filterMap_cons, hs, nodup_cons] at hnodup
        exact hnodup.1 ha

/-- **A `Setup` that finishes leaves every commit attempt settled.**  The files of an
attempt whose `finish.json` was durable are at their final keys, each exactly once;
those of any other attempt are at most staged; and the metadata, as it is stored and
as `Setup` returns it, is what the finished attempts made of it. -/
theorem commits_settled (p : Config) (run : Run) (w₀ : World) (backfill : Bool)
    (faults : List Fault) (hwf : WellFormed p (attemptsOf run))
    (h₀ : Initial p (attemptsOf run) w₀) (hphases : SamePhases p run w₀)
    (hphase : SamePhase p backfill (runAll p run w₀)) (m : Option MetadataState) (w : World)
    (hok : (setup p backfill faults (runAll p run w₀)).1 = .ok m)
    (hw : w = (setup p backfill).after faults (runAll p run w₀)) :
    (∀ a ∈ attemptsOf run, Settled p a w) ∧ MetadataIs p (metadataAfter w.finished) w ∧
      m = metadataAfter w.finished := by
  obtain ⟨fin, hany⟩ := runAll_any hwf run w₀ hwf.nodup
    (fun a ha => ⟨ha, not_mem_nil⟩) h₀.idle.any hphases
  obtain ⟨hidle, hm⟩ := (setup_spec hwf backfill).of_ok (hany.ready hphase) hok
  rw [hw]
  exact ⟨hidle.1.settled, hidle.1.metadata, hm⟩

/-! ### A crash after the marker -/

/-- A table `db/t`, with a digest that is enough for one thread. -/
def oneTable : Config where
  tablePath := "db/t".toList
  tablePath_normal := by
    intro s hs
    have hsegs : Path.segments "db/t".toList = ["db".toList, "t".toList] := by decide
    rw [hsegs] at hs
    simp only [List.mem_cons, List.not_mem_nil, or_false] at hs
    rcases hs with rfl | rfl
    · exact ⟨by decide, by decide, by decide, by decide⟩
    · exact ⟨by decide, by decide, by decide, by decide⟩
  hashThreadID := fun _ => "0a".toList
  hash_ne_nil := fun _ => by decide
  hash_hex := fun _ => by simp

def partitionFile : DataPath where
  path := "day=1/f.parquet".toList
  named := by decide
  relative := by decide

def cdcCommit : Attempt where
  id := 0
  writer := .stream
  files := [partitionFile]
  finalMetadataState := some { state := some (.other "pos") }
  ctxDone := false

/-- The process dies just after `finish.json` has been written. -/
def diesAfterMarker : Run := [(.close cdcCommit, [.done, .done, .done, .crash false])]

def emptyBucket : World := { bucket := ∅, deletions := [], finished := [] }

theorem diesAfterMarker_initial : Initial oneTable (attemptsOf diesAfterMarker) emptyBucket :=
  ⟨fun _ _ => rfl, rfl, fun _ _ _ _ _ => by simp [World.at, emptyBucket], rfl⟩

theorem diesAfterMarker_wellFormed : WellFormed oneTable (attemptsOf diesAfterMarker) := by
  refine ⟨by simp [attemptsOf, diesAfterMarker], by decide, ?_, ?_⟩
  · intro a ha f hf
    rw [mem_singleton.1 ha] at hf
    rw [mem_singleton.1 hf]
    decide
  · intro a ha
    rw [mem_singleton.1 ha]
    decide

def afterStreamSetup : World :=
  (setup oneTable false).after [] (runAll oneTable diesAfterMarker emptyBucket)

theorem commits_settled_after_crash :
    Settled oneTable cdcCommit afterStreamSetup ∧
      (afterStreamSetup.at (finalKey oneTable partitionFile.path)).isSome = true := by
  obtain ⟨m, hm⟩ : ∃ m, (setup oneTable false []
      (runAll oneTable diesAfterMarker emptyBucket)).1 = .ok m :=
    Outcome.ok_of_isOk (by decide +kernel)
  have hsettled := commits_settled oneTable diesAfterMarker emptyBucket false []
    diesAfterMarker_wellFormed diesAfterMarker_initial ⟨by decide, trivial⟩ (by decide +kernel) m
    afterStreamSetup hm rfl
  exact ⟨hsettled.1 cdcCommit (mem_singleton_self cdcCommit), by decide +kernel⟩

def afterBackfillSetup : World :=
  (setup oneTable true).after [] (runAll oneTable diesAfterMarker emptyBucket)

/-- A backfill writer comes next: its `Setup` finishes, and the file of the finished
CDC commit is gone from the staging area without being at its final key. -/
theorem finished_commit_lost :
    (setup oneTable true [] (runAll oneTable diesAfterMarker emptyBucket)).1.isOk = true ∧
      (afterBackfillSetup.finished.map Attempt.id) = [cdcCommit.id] ∧
      (afterBackfillSetup.at (finalKey oneTable partitionFile.path)).isNone = true ∧
      (afterBackfillSetup.at (stagingObjectKey oneTable .stream partitionFile)).isNone = true := by
  decide +kernel

end Olake.Parquet
