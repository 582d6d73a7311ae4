/-
Recovery, whatever call fails and wherever the process crashes.

Started from a bucket in which the finished attempt on its way, if there is one, is of
the writer's own kind, recovery leaves an idle table, and stops early only in a bucket
of the same shape.  What unfinished attempts of either kind have left is removed or,
where backfill recovery does not look, left alone.
-/
import Olake.Proofs.Parquet.Commit

namespace Olake.Parquet

open Faulty Faulty.Prog List Option Spec

variable {p : Config} {made : List Attempt} (hwf : WellFormed p made) {a : Attempt}
  {fin : List Attempt}

/-! ### States between calls -/

/-- At most one finished attempt is on its way. -/
def Any (p : Config) (made fin : List Attempt) (w : World) : Prop :=
  (Idle p made w ∨ ∃ a, Sealed p made a w) ∧ w.finished = fin

def IdleAt (p : Config) (made fin : List Attempt) (w : World) : Prop :=
  Idle p made w ∧ w.finished = fin

def SealedAt (p : Config) (made : List Attempt) (a : Attempt) (fin : List Attempt) (w : World) :
    Prop :=
  Sealed p made a w ∧ w.finished = fin

variable {w : World}

theorem IdleAt.any (h : IdleAt p made fin w) : Any p made fin w := ⟨.inl h.1, h.2⟩

theorem SealedAt.any (h : SealedAt p made a fin w) : Any p made fin w := ⟨.inr ⟨a, h.1⟩, h.2⟩

theorem writer_stream {wr : Writer} (h : wr.isBackfill = false) : wr = .stream := by
  cases wr with
  | backfill t => cases h
  | stream => rfl

theorem writer_backfill {wr : Writer} (h : wr.isBackfill = true) : ∃ t, wr = .backfill t := by
  cases wr with
  | backfill t => exact ⟨t, rfl⟩
  | stream => cases h

/-! ### Directories of the staging area -/

variable {k : Key}

theorem root_of_current (wr : Writer) (h : currentStagingPrefix p wr <+: k) : InStaging p k := by
  obtain ⟨d, rfl⟩ := h
  exact root_under p wr d

theorem current_stagingKey (wr : Writer) (f : DataPath) :
    currentStagingPrefix p wr <+: stagingObjectKey p wr f := by
  exact prefix_append _ _

theorem staged_threadDir (h : currentStagingPrefix p (.backfill t) <+: k) :
    threadDir (stagingRootPrefix p) k = some (backfillStagingPrefix p t) :=
  threadDir_of_under (no_slash_hash p t) h

theorem Idle.no_marker (h : Idle p made w) (hk : InStaging p k)
    (hbase : Path.base k = parquet2PCFinishFile) : w.at k = none := by
  by_contra hat
  obtain ⟨b, _, _, f, _, rfl, _⟩ := h.staged k hk hat
  rw [base_stagingKey] at hbase
  exact base_data_ne f not_parquet_finish hbase

/-- In the attempt's own directory there is nothing but what the attempt staged. -/
theorem Sealed.staged_own (h : Sealed p made a w) (hk : currentStagingPrefix p a.writer <+: k)
    (hat : w.at k ≠ none) : k = finishObjectKey p a.writer ∨
      ∃ f ∈ a.files, k = stagingObjectKey p a.writer f ∧ w.at k = some (a.object f) := by
  rcases h.staged k (root_of_current a.writer hk) hat with hm | hf | ⟨hback, hdir, _⟩
  · exact .inl hm
  · exact .inr hf
  · obtain ⟨t, hwr⟩ := writer_backfill hback
    rw [hwr] at hk
    rw [staged_threadDir hk] at hdir
    cases hdir

/-! ### Cleanup of leftovers -/

include hwf in
/-- Deleting a directory of the staging area leaves an idle table idle. -/
theorem delete_idle {F : World → Prop} (hdir : InStaging p dir) (hF : ∀ w k, F w → F (w.del k)) :
    Spec (IdleAt p made fin) (fun w => IdleAt p made fin w ∧ F w) (deleteStagingPrefix dir)
      (fun _ w => (IdleAt p made fin w ∧ F w) ∧ ∀ k, dir <+: k → w.at k = none) := by
  have hdel : ∀ w k, IdleAt p made fin w ∧ F w → dir <+: k →
      IdleAt p made fin (w.del k) ∧ F (w.del k) :=
    fun w k hw hk => ⟨⟨hw.1.1.del hwf (hdir.trans hk), hw.1.2⟩, hF w k hw.2⟩
  refine deleteStagingPrefix_spec dir (fun w hw => hw.1) (fun w k hw hk _ => hdel w k hw hk)
    (fun w hw hn => ⟨hw, hn⟩) (fun w hw hn => ?_)
  have hgone := hdel w _ hw (prefix_append dir parquet2PCFinishFile)
  refine ⟨hgone.1, hgone, fun k hk => ?_⟩
  by_cases heq : k = dir ++ parquet2PCFinishFile
  · rw [heq]
    exact at_del_self w _
  · rw [at_del_ne w heq]
    exact hn k hk heq

/-! ### Rolling a sealed attempt forward -/

include hwf in
theorem Sealed.promote (h : Sealed p made a w) (hk : Files (currentStagingPrefix p a.writer) k)
    (ho : w.at k = some o) :
    let w' := w.put (finalKey p (k.drop (currentStagingPrefix p a.writer).length)) o;
    Sealed p made a w' ∧ Sealed p made a (w'.del k) ∧
      ∀ k', InStaging p k' → k' ≠ k → (w'.del k).at k' = w.at k' := by
  have hat : w.at k ≠ none := by simp [ho]
  rcases h.staged_own hk.1 hat with heq | ⟨f, hf, rfl, hfile⟩
  · exact absurd heq hk.2
  · cases ho.symm.trans hfile
    rw [show (stagingObjectKey p a.writer f).drop (currentStagingPrefix p a.writer).length = f.path by
      rw [stagingObjectKey_eq, drop_left]]
    have hcopied := h.copy hwf hf
    refine ⟨hcopied, hcopied.del hwf (root_stagingKey p _ f) (stagingKey_ne_finishKey p _ _ f).symm
      fun g _ heq => ?_, fun k' hk' hne => ?_⟩
    · rw [← stagingKey_injective p heq]
      exact at_put_self w _ _
    · rw [at_del_ne _ hne, at_put_ne w _ (hwf.finalKey_ne_of_root h.mem hf hk')]

include hwf in
theorem promote_sealed :
    Spec (SealedAt p made a fin) (SealedAt p made a fin)
      (promoteS3Staging p (currentStagingPrefix p a.writer))
      (fun _ w => SealedAt p made a fin w ∧ Promoted p a w) := by
  have hkey : ∀ k, Spec (SealedAt p made a fin) (SealedAt p made a fin)
      (promoteS3Staging p (currentStagingPrefix p a.writer)) (fun _ w => SealedAt p made a fin w ∧
        (Files (currentStagingPrefix p a.writer) k → w.at k = none)) := by
    intro k
    refine (promoteS3Staging_spec k (W := fun w => SealedAt p made a fin w ∧
      w.at k ≠ none ∧ Files (currentStagingPrefix p a.writer) k) (fun w hw => ⟨hw.1, hw.2.1, hw.2.2, ?_⟩)
      (fun w hw => hw.1) ?_ ?_ ?_).pre (fun w hw => ?_)
    · -- what is staged has a name
      rintro rfl
      rcases hw.1.1.staged_own (prefix_refl _) hw.2.1 with heq | ⟨f, _, heq, _⟩
      · exact hw.2.2.2 heq
      · rw [stagingObjectKey_eq, self_eq_append_right] at heq
        have hnamed := f.named
        rw [heq] at hnamed
        exact absurd hnamed (by decide)
    · rintro w k' o ⟨hw, hat, hfiles⟩ hk' hne ho
      obtain ⟨hcopied, hgone, hsame⟩ := hw.1.promote hwf hk' ho
      refine ⟨⟨hcopied, hw.2⟩, ⟨hgone, hw.2⟩, ?_, hfiles⟩
      rwa [hsame k (root_of_current a.writer hfiles.1) hne.symm]
    · rintro w o ⟨hw, -, hfiles⟩ ho
      obtain ⟨hcopied, hgone, -⟩ := hw.1.promote hwf hfiles ho
      exact ⟨⟨hcopied, hw.2⟩, ⟨hgone, hw.2⟩, fun _ => at_del_self _ _⟩
    · rintro w k' o ⟨hw, hnone⟩ hk' ho
      obtain ⟨hcopied, hgone, hsame⟩ := hw.1.promote hwf hk' ho
      refine ⟨⟨hcopied, hw.2⟩, ⟨hgone, hw.2⟩, fun hfiles => ?_⟩
      rw [hsame k (root_of_current a.writer hfiles.1), hnone hfiles]
      rintro rfl
      simp [hnone hfiles] at ho
    · by_cases hat : w.at k = none
      · exact .inr ⟨hw, fun _ => hat⟩
      by_cases hfiles : Files (currentStagingPrefix p a.writer) k
      · exact .inl ⟨hw, hat, hfiles⟩
      · exact .inr ⟨hw, fun h => absurd h hfiles⟩
  refine (Spec.forall hkey).post (fun _ w hw => ⟨(hw default).1, fun k hk hat => ?_⟩)
  by_contra hne
  exact hat ((hw k).2 ⟨hk, hne⟩)

/-! ### The metadata of a sealed attempt -/

theorem Sealed.metadataIs (h : Sealed p made a w) : ∃ m, MetadataIs p m w := by
  obtain ⟨before, _, hm | hm⟩ := h.finished
  · exact ⟨_, hm⟩
  · exact ⟨_, hm⟩

theorem MetadataIs.unique (h : MetadataIs p m w) (h' : MetadataIs p m' w) : m = m' := by
  unfold MetadataIs at h h'
  rw [h] at h'
  exact map_injective (fun x y hxy => Object.metadata.inj hxy) h'

theorem readMetadata_spec (hI : ∀ w, P w → I w) (hm : ∀ w, P w → ∃ m, MetadataIs p m w) :
    Spec I P (readMetadata p) (fun m w => P w ∧ MetadataIs p m w) := by
  refine (getObject_spec _ hI).andThen (fun o => of_start (fun w hw => ?_))
  obtain ⟨m, hmeta⟩ := hm w hw.1
  have ho : o = m.map .metadata := hw.2.trans hmeta
  cases m with
  | none | some =>
    subst ho
    exact ret (fun t ht => by rw [ht]; exact ⟨hw.1, hmeta⟩)

/-- Whether or not the attempt is in the metadata already, committing it gives the
metadata with it. -/
theorem commitTo_metadata (hm : m = metadataAfter before ∨ m = metadataAfter (before ++ [a])) :
    metadataAfter (before ++ [a]) = some (a.commitTo (m.getD {})) := by
  rw [metadataAfter_append]
  rcases hm with rfl | rfl
  · rfl
  · rw [metadataAfter_append, getD_some, commitTo_idem]

theorem commit_sealed :
    Spec (SealedAt p made a fin) (fun w => SealedAt p made a fin w ∧ Promoted p a w)
      (andThen (readMetadata p) (fun m => writeMetadata p (a.commitTo (m.getD {}))))
      (fun _ w => SealedAt p made a fin w ∧ Promoted p a w ∧
        MetadataIs p (metadataAfter w.finished) w) := by
  refine (readMetadata_spec (fun w hw => hw.1) (fun w hw => hw.1.1.metadataIs)).andThen (fun m => ?_)
  refine writeS3Object_spec _ _ (fun w hw => hw.1.1) (fun w hw => ?_)
  obtain ⟨⟨hw, hpromoted⟩, hmeta⟩ := hw
  obtain ⟨before, hbefore, hcases⟩ := hw.1.finished
  have hm : m = metadataAfter before ∨ m = metadataAfter (before ++ [a]) := by
    rcases hcases with h | h
    · exact .inl (hmeta.unique h)
    · exact .inr (hmeta.unique h)
  have hnew := commitTo_metadata hm
  have hsealed : SealedAt p made a fin
      (w.put (metadataObjectKey p) (.metadata (a.commitTo (m.getD {})))) :=
    ⟨hw.1.putMetadata (hbefore ▸ hnew), hw.2⟩
  refine ⟨hsealed, hsealed, ?_, ?_⟩
  · intro k hk hat
    have hroot := root_of_current a.writer hk
    rw [at_put_ne w _ (metadataKey_ne_of_root p hroot).symm] at hat
    exact hpromoted k hk hat
  · unfold MetadataIs
    rw [at_put_self, finished_put, hbefore, hnew]
    rfl

/-! ### Cleanup of a sealed attempt -/

include hwf in
theorem delete_sealed :
    Spec (Any p made fin)
      (fun w => SealedAt p made a fin w ∧ Promoted p a w ∧
        MetadataIs p (metadataAfter w.finished) w)
      (deleteStagingPrefix (currentStagingPrefix p a.writer))
      (fun _ w => IdleAt p made fin w ∧ Bare p a.writer.isBackfill w) := by
  refine deleteStagingPrefix_spec _ (fun w hw => hw.1.any) ?_ ?_ ?_
  · -- there is no data key left to delete
    rintro w k ⟨hw, hpromoted, hmeta⟩ hk hne
    have hroot := root_of_current a.writer hk
    have hnone : w.at k = none := by
      by_contra hat
      exact hne (hpromoted k hk hat)
    refine ⟨⟨hw.1.del hwf hroot (Ne.symm hne) fun f hf heq => ?_, hw.2⟩,
      fun k' hk' hat => hpromoted k' hk' (at_of_del hat), hmeta.del (metadataKey_ne_of_root p hroot)⟩
    have hfile := hw.1.present f hf
    rw [← heq, hnone] at hfile
    exact hfile.resolve_left nofun
  · rintro w ⟨hw, _, _⟩ hn
    have hmarker := hw.1.marker
    rw [hn (finishObjectKey p a.writer) (prefix_append _ _)] at hmarker
    cases hmarker
  · rintro w ⟨hw, hpromoted, hmeta⟩ _
    obtain ⟨hidle, hbare⟩ := hw.1.resolve hwf hpromoted hmeta
    exact ⟨⟨.inl hidle, hw.2⟩, ⟨hidle, hw.2⟩, hbare⟩

/-- Promotion, metadata and cleanup, as both kinds of writer do them. -/
def finalizeStaging (p : Config) (dir : Key) (commit : MetadataState → MetadataState) :
    Prog World Unit :=
  andThen (promoteS3Staging p dir) (fun _ =>
    andThen (andThen (readMetadata p) (fun m => writeMetadata p (commit (m.getD {}))))
      (fun _ => deleteStagingPrefix dir))

theorem finalizeBackfillStaging_eq (dir : Key) (t : ThreadID) :
    finalizeBackfillStaging p dir t = finalizeStaging p dir (addCommittedID · t) := rfl

theorem finalizeStreamStaging_eq (dir : Key) (st : MetadataState) :
    finalizeStreamStaging p dir st = finalizeStaging p dir (mergeStreamMetadataState · st) := rfl

section Rules

variable {I Q : World → Prop} {J : List StagingEntry → World → Prop}

/-- Shared recovery: the staging area is empty, has no marker, or is rolled forward. -/
theorem recoverSharedStaging_rule (hI : I w) (hempty : (∀ k, InStaging p k → w.at k = none) → Q w)
    (hdelete : w.at (sharedFinishObjectKey p) = none →
      Spec I (fun t => t = w) (deleteStagingPrefix (stagingRootPrefix p)) (fun _ => Q))
    (hmarker : w.at (sharedFinishObjectKey p) ≠ none → ∃ st,
      w.at (sharedFinishObjectKey p) = some (.finish (.stream (some st))) ∧
      Spec I (fun t => t = w)
        (finalizeStaging p (stagingRootPrefix p) (mergeStreamMetadataState · st)) (fun _ => Q)) :
    Spec I (fun t => t = w) (recoverSharedStaging p) (fun _ => Q) := by
  have hI' : ∀ t, t = w → I t := fun t ht => ht ▸ hI
  refine (listS3Keys_spec _ hI').reads ?_
  split
  · next hnil =>
    refine ret (fun s hs => hs ▸ hempty fun k hk => ?_)
    by_contra hat
    exact ne_nil_of_mem (mem_keysUnder.2 ⟨hat, hk⟩) hnil
  split
  · next hout =>
    refine hdelete ?_
    by_contra hat
    exact hout (mem_keysUnder.2 ⟨hat, root_finishKey p .stream⟩)
  · next hin =>
    obtain ⟨st, hst, hfinalize⟩ := hmarker (mem_keysUnder.1 (not_not.1 hin)).1
    have hread : Spec I (fun t => t = w) (readSharedFinish p) (fun m t => t = w ∧ m = st) := by
      refine (getObject_spec _ hI').reads ?_
      rw [hst]
      exact ret (fun _ h => ⟨h, rfl⟩)
    exact hread.reads hfinalize

/-- Backfill recovery: each entry is removed or rolled forward. -/
theorem recoverBackfillStaging_rule (hJ : ∀ behind t, J behind t → I t) (hstart : J [] w)
    (hentry : ∀ behind e rest, w.entries p = behind ++ e :: rest → ∀ t, J behind t →
      (e.finished = false →
        Spec I (fun s => s = t) (deleteStagingPrefix e.dir) (fun _ => J (behind ++ [e]))) ∧
      (e.finished = true → ∃ id, id ≠ [] ∧
        t.at (e.dir ++ parquet2PCFinishFile) = some (.finish (.backfill id)) ∧
        Spec I (fun s => s = t) (finalizeStaging p e.dir (addCommittedID · id))
          (fun _ => J (behind ++ [e])))) :
    Spec I (fun t => t = w) (recoverBackfillStaging p) (fun _ => J (w.entries p)) := by
  have hI : ∀ t, t = w → I t := fun t ht => hJ [] t (ht ▸ hstart)
  have hlist : Spec I (fun t => t = w) (listBackfillStagingEntries p)
      (fun entries t => t = w ∧ entries = w.entries p) :=
    (listS3Keys_spec _ hI).andThen (fun keys => ret (fun t ht => ⟨ht.1, by rw [ht.2, ht.1]; rfl⟩))
  refine hlist.reads ?_
  refine (forEach (J := J) _ (fun behind e rest hsplit => of_start (fun s hs => ?_))).pre
    (fun s hs => hs ▸ hstart)
  obtain ⟨hdelete, hfinalize⟩ := hentry behind e rest hsplit s hs
  split
  · next hfin =>
    obtain ⟨id, hid, hat, hspec⟩ := hfinalize hfin
    have hread : Spec I (fun s' => s' = s) (readBackfillFinish (e.dir ++ parquet2PCFinishFile))
        (fun id' s' => s' = s ∧ id' = id) := by
      refine (getObject_spec _ (fun s' h => h ▸ hJ _ _ hs)).reads ?_
      rw [hat]
      simp only [if_neg hid]
      exact ret (fun _ h => ⟨h, rfl⟩)
    exact hread.reads hspec
  · next hfin => exact hdelete (Bool.eq_false_iff.2 hfin)

end Rules

theorem commitTo_backfill (h : a.writer = .backfill t) : a.commitTo = (addCommittedID · t) := by
  funext m
  simp only [Attempt.commitTo, h]

theorem commitTo_stream (h : a.writer = .stream)
    (hst : a.finalMetadataState = some st) : a.commitTo = (mergeStreamMetadataState · st) := by
  funext m
  simp only [Attempt.commitTo, h, hst, getD_some]

include hwf in
theorem finalize_sealed :
    Spec (Any p made fin) (SealedAt p made a fin)
      (finalizeStaging p (currentStagingPrefix p a.writer) a.commitTo)
      (fun _ w => IdleAt p made fin w ∧ Bare p a.writer.isBackfill w) := by
  refine Spec.andThen ((promote_sealed hwf).inv (fun w hw => hw.any)) (fun _ => ?_)
  exact (commit_sealed.inv (fun w hw => hw.any)).andThen (fun _ => delete_sealed hwf)

/-! ### Recovery -/

/-- The kind of writer whose commit the object marks as finished. -/
def Object.marks : Object → Option Bool
  | .finish (.backfill _) => some true
  | .finish (.stream _) => some false
  | .data _ _ => none
  | .metadata _ => none

/-- No commit of the other kind of writer is marked as finished in the staging area. -/
abbrev SamePhase (p : Config) (backfill : Bool) (w : World) : Prop :=
  ∀ k ∈ keysUnder w.bucket (stagingRootPrefix p), (w.at k).bind Object.marks ≠ some (!backfill)

/-- The finished attempt on its way, if any, is of this kind. -/
def Ready (p : Config) (made fin : List Attempt) (backfill : Bool) (w : World) : Prop :=
  (Idle p made w ∨ ∃ a, a.writer.isBackfill = backfill ∧ Sealed p made a w) ∧ w.finished = fin

theorem Ready.any (h : Ready p made fin backfill w) : Any p made fin w := by
  obtain ⟨hidle | ⟨a, _, h⟩, hfin⟩ := h
  · exact ⟨.inl hidle, hfin⟩
  · exact ⟨.inr ⟨a, h⟩, hfin⟩

theorem Sealed.marker_listed (h : Sealed p made a w) :
    finishObjectKey p a.writer ∈ keysUnder w.bucket (stagingRootPrefix p) := by
  refine mem_keysUnder.2 ⟨?_, root_finishKey p a.writer⟩
  intro hnone
  have hmarker := h.marker
  unfold World.at at hmarker
  rw [hnone] at hmarker
  cases hmarker

theorem Any.ready (h : Any p made fin w) (hphase : SamePhase p backfill w)
    : Ready p made fin backfill w := by
  obtain ⟨hidle | ⟨a, hsealed⟩, hfin⟩ := h
  · exact ⟨.inl hidle, hfin⟩
  · have hkind := hphase _ hsealed.marker_listed
    rw [hsealed.marker] at hkind
    have hmarks : (Object.finish a.finishState).marks = some a.writer.isBackfill := by
      unfold Attempt.finishState
      cases a.writer with
      | backfill | stream => rfl
    rw [bind_some, hmarks] at hkind
    refine ⟨.inr ⟨a, ?_, hsealed⟩, hfin⟩
    revert hkind
    cases a.writer.isBackfill <;> cases backfill <;> decide

include hwf in
theorem deleteRoot_idle :
    Spec (Any p made fin) (IdleAt p made fin) (deleteStagingPrefix (stagingRootPrefix p))
      (fun _ w => IdleAt p made fin w ∧ Bare p false w) := by
  have hdelete : Spec (IdleAt p made fin) (fun w => IdleAt p made fin w ∧ True)
      (deleteStagingPrefix (stagingRootPrefix p)) _ :=
    delete_idle hwf (F := fun _ => True) (prefix_refl _) (fun _ _ _ => trivial)
  refine hdelete.mono (fun w hw => hw.any) (fun w hw => ⟨hw, trivial⟩) (fun _ w hw => ?_)
  exact ⟨hw.1.1, fun k hk hat => absurd (hw.2 k hk) hat⟩

include hwf in
theorem recoverSharedStaging_spec :
    Spec (Any p made fin) (Ready p made fin false) (recoverSharedStaging p)
      (fun _ w => IdleAt p made fin w ∧ Bare p false w) := by
  refine of_start (fun w hw => recoverSharedStaging_rule hw.any ?_ ?_ ?_)
  all_goals obtain ⟨hidle | ⟨a, hkind, hsealed⟩, hfin⟩ := hw
  · exact fun hnone => ⟨⟨hidle, hfin⟩, fun k hk hat => absurd (hnone k hk) hat⟩
  · intro hnone
    have hmarker := hsealed.marker
    rw [hnone _ (root_finishKey p a.writer)] at hmarker
    cases hmarker
  · exact fun _ => (deleteRoot_idle hwf).pre (fun t ht => ht ▸ ⟨hidle, hfin⟩)
  · intro hnone
    have hmarker := hsealed.marker
    rw [writer_stream hkind] at hmarker
    cases hnone.symm.trans hmarker
  · -- an idle table has no marker
    exact fun hat => absurd
      (hidle.no_marker (root_finishKey p .stream) (base_finishKey p .stream)) hat
  · intro _
    have hwr := writer_stream hkind
    have hmarker := hsealed.marker
    obtain ⟨st, hst⟩ := ne_none_iff_exists'.1 (hsealed.state hwr)
    have hfinalize : Spec (Any p made fin) (SealedAt p made a fin) _ _ := finalize_sealed hwf
    rw [commitTo_stream hwr hst, hkind, hwr] at hfinalize
    simp only [Attempt.finishState, hwr, hst] at hmarker
    exact ⟨st, hmarker, hfinalize.pre (fun t ht => ht ▸ ⟨hsealed, hfin⟩)⟩

theorem Idle.entry (h : Idle p made w) (he : e ∈ w.entries p) :
    e.finished = false ∧ InStaging p e.dir := by
  have hlisted := listed_entries p w
  obtain ⟨hash, _, hdir⟩ := hlisted.form e he
  have hroot : InStaging p e.dir := hdir ▸ inStaging_dir p hash
  refine ⟨?_, hroot⟩
  rw [Bool.eq_false_iff, Ne, hlisted.finished e he, not_not]
  refine h.no_marker (hroot.trans (prefix_append _ _)) ?_
  rw [hdir, append_assoc _ ['/'], singleton_append, Path.base_append]
  decide

include hwf in
/-- Without a marker, backfill recovery removes every directory of the staging area. -/
theorem recoverBackfill_idle (hidle : IdleAt p made fin w) :
    Spec (Any p made fin) (fun t => t = w) (recoverBackfillStaging p)
      (fun _ t => IdleAt p made fin t ∧ Bare p true t) := by
  -- nothing new is staged, and the directories behind are empty
  refine (recoverBackfillStaging_rule (J := fun behind t => IdleAt p made fin t ∧
      (∀ k, InStaging p k → t.at k ≠ none → w.at k ≠ none) ∧
      ∀ e ∈ behind, ∀ k, e.dir <+: k → t.at k = none) (fun _ t ht => ht.1.any)
    ⟨hidle, fun _ _ hat => hat, fun e he => absurd he not_mem_nil⟩
    (fun behind e rest hsplit t ht => ?_)).post ?_
  · obtain ⟨hopen, hroot⟩ := hidle.1.entry (by rw [hsplit]; simp : e ∈ w.entries p)
    refine ⟨fun _ => ?_, fun hfin => absurd (hopen.symm.trans hfin) Bool.false_ne_true⟩
    refine (delete_idle hwf hroot ?_).mono (fun t ht => ht.any) (fun s hs => hs ▸ ht) ?_
    · rintro t k ⟨hold, hgone⟩
      refine ⟨fun k' hk' hat => hold k' hk' (at_of_del hat), fun e' he' k' hk' => ?_⟩
      by_contra hat
      exact at_of_del hat (hgone e' he' k' hk')
    · rintro _ t ⟨⟨ht, hold, hgone⟩, hnone⟩
      refine ⟨ht, hold, fun e' he' => ?_⟩
      rcases mem_append.1 he' with he' | he'
      · exact hgone e' he'
      · rw [mem_singleton.1 he']
        exact hnone
  · rintro _ t ⟨ht, hold, hgone⟩
    refine ⟨ht, fun k hk hat => ⟨rfl, ?_⟩⟩
    cases hd : threadDir (stagingRootPrefix p) k with
    | none => rfl
    | some d =>
      obtain ⟨e, he, rfl⟩ := (listed_entries p w).covers k hk (hold k hk hat) d hd
      obtain ⟨_, _, _, hunder⟩ := (threadDir_some hk).1 hd
      exact absurd (hgone e he k hunder) hat

/-- The entries beside a finished backfill attempt are its own. -/
theorem Sealed.entry (h : Sealed p made a w) (hwr : a.writer = .backfill t)
    (he : e ∈ w.entries p) : e.dir = backfillStagingPrefix p t := by
  obtain ⟨k, hroot, hat, hd⟩ := (listed_entries p w).dir e he
  have hown : currentStagingPrefix p a.writer <+: k → e.dir = backfillStagingPrefix p t := by
    intro hk
    rw [hwr] at hk
    exact some.inj (hd.symm.trans (staged_threadDir hk))
  rcases h.staged k hroot hat with rfl | ⟨f, _, rfl, _⟩ | ⟨_, hnone, _⟩
  · exact hown (prefix_append _ _)
  · exact hown (current_stagingKey a.writer f)
  · cases hnone.symm.trans hd

include hwf in
/-- A finished backfill attempt is rolled forward. -/
theorem recoverBackfill_sealed (hsealed : SealedAt p made a fin w) (hkind : a.writer.isBackfill = true) :
    Spec (Any p made fin) (fun t => t = w) (recoverBackfillStaging p)
      (fun _ t => IdleAt p made fin t ∧ Bare p true t) := by
  obtain ⟨t, hwr⟩ := writer_backfill hkind
  have hmarker := hsealed.1.marker
  have hfinalize : Spec (Any p made fin) (SealedAt p made a fin) _ _ := finalize_sealed hwf
  rw [commitTo_backfill hwr, hkind, hwr] at hfinalize
  simp only [Attempt.finishState, hwr] at hmarker
  have hlisted := listed_entries p w
  refine (recoverBackfillStaging_rule (J := fun behind s => behind = [] ∧ s = w ∨
      behind ≠ [] ∧ IdleAt p made fin s ∧ Bare p true s) ?_ (.inl ⟨rfl, rfl⟩)
    (fun behind e rest hsplit s hs => ?_)).post ?_
  · rintro _ s (⟨-, rfl⟩ | ⟨-, hidle, -⟩)
    · exact hsealed.any
    · exact hidle.any
  · have hdir : ∀ e' ∈ behind ++ e :: rest, e'.dir = backfillStagingPrefix p t := fun e' he' =>
      hsealed.1.entry hwr (hsplit ▸ he')
    have he : e ∈ behind ++ e :: rest := mem_append_right _ mem_cons_self
    have hfinish : w.at (e.dir ++ parquet2PCFinishFile) = some (.finish (.backfill t)) := by
      rw [hdir e he]
      exact hmarker
    rcases hs with ⟨rfl, rfl⟩ | ⟨hne, -⟩
    · refine ⟨fun hfin => ?_, fun _ => ⟨t, ?_, hfinish, ?_⟩⟩
      · rw [hsplit] at hlisted
        rw [Bool.eq_false_iff, Ne, hlisted.finished e he, hfinish] at hfin
        exact absurd (some_ne_none _) hfin
      · rintro rfl
        exact hwf.named a hsealed.1.mem hwr
      · rw [hdir e he]
        exact hfinalize.mono (fun _ h => h) (fun s' hs' => hs' ▸ hsealed)
          (fun _ _ h => .inr ⟨cons_ne_nil _ _, h⟩)
    · -- the attempt has one directory
      obtain ⟨e', he'⟩ := exists_mem_of_ne_nil _ hne
      rw [hsplit] at hlisted
      exact absurd ((hdir e' (mem_append_left _ he')).trans (hdir e he).symm)
        (hlisted.behind (.inl he'))
  · rintro _ s (⟨hnil, -⟩ | ⟨-, h⟩)
    · obtain ⟨e, he, -⟩ := hlisted.covers _ (root_finishKey p (.backfill t)) (by rw [hmarker]; simp) _
        (staged_threadDir (prefix_append _ _))
      rw [hnil] at he
      cases he
    · exact h

include hwf in
theorem recoverStaging_spec (backfill : Bool) :
    Spec (Any p made fin) (Ready p made fin backfill) (recoverStaging p backfill)
      (fun _ w => IdleAt p made fin w ∧ Bare p backfill w) := by
  cases backfill with
  | true =>
    refine of_start (fun w hw => ?_)
    obtain ⟨hidle | ⟨a, hkind, hsealed⟩, hfin⟩ := hw
    · exact recoverBackfill_idle hwf ⟨hidle, hfin⟩
    · exact recoverBackfill_sealed hwf ⟨hsealed, hfin⟩ hkind
  | false => exact recoverSharedStaging_spec hwf

end Olake.Parquet
