/-
One staged file through a recovery.

Recovery does three things to the bucket: it deletes keys of the staging area, it
copies objects from there to keys of the same name, and it writes the metadata
document.  A `Course` says what holds as long as one staged file waits for its turn
and what holds from its turn on; the specifications below carry a course through
promotion, cleanup and both kinds of recovery.
-/
import Olake.Proofs.Parquet.Recovery

namespace Olake.Parquet

open Faulty Faulty.Prog List Path

variable {p : Config}

/-! ### What the steps of a recovery keep -/

/-- What one call does: it deletes a key of `dels`, copies the object at a key of `copies` to a
key of the same name, or writes the metadata. -/
inductive Touch (p : Config) (dels copies : Key → Prop) (w : World) : World → Prop
  | del (hk : dels k) : Touch p dels copies w (w.del k)
  | copy (hk : copies k) (ho : w.at k = some o) (hbase : Path.base dst = Path.base k) :
    Touch p dels copies w (w.put dst o)
  | metadata (m : MetadataState) : Touch p dels copies w (w.put (metadataObjectKey p) (.metadata m))

/-- `J` is kept by these calls. -/
def Kept (p : Config) (dels copies : Key → Prop) (J : World → Prop) : Prop :=
  ∀ ⦃w w'⦄, J w → Touch p dels copies w w' → J w'

section Touch

variable {dels copies dels' copies' : Key → Prop} {J K : World → Prop}

theorem Touch.mono (h : Touch p dels copies w w') (hdels : ∀ k, dels k → dels' k)
    (hcopies : ∀ k, copies k → copies' k) : Touch p dels' copies' w w' := by
  cases h with
  | del hk => exact .del (hdels _ hk)
  | copy hk ho hbase => exact .copy (hcopies _ hk) ho hbase
  | metadata m => exact .metadata m

/-- What is at a key was there before, or at a key of the same name. -/
theorem Touch.source (h : Touch p dels copies w w') (hk : metadataObjectKey p ≠ k)
    (ho : w'.at k = some o) : w.at k = some o ∨ ∃ src, copies src ∧ base src = base k ∧ w.at src = some o := by
  cases h with
  | @del k' _ =>
    by_cases heq : k = k'
    · rw [heq, at_del_self] at ho
      cases ho
    · exact .inl (at_del_ne w heq ▸ ho)
  | @copy src o' dst hsrc ho' hbase =>
    by_cases heq : k = dst
    · rw [heq, at_put_self] at ho
      exact .inr ⟨src, hsrc, heq ▸ hbase.symm, ho'.trans ho⟩
    · exact .inl (at_put_ne w o' heq ▸ ho)
  | metadata m => exact .inl (at_put_ne w (.metadata m) hk.symm ▸ ho)

/-- An object stays unless its key is deleted or something else is copied there. -/
theorem Touch.stays (h : Touch p dels copies w w') (ho : w.at k = some o) (hk : metadataObjectKey p ≠ k)
    (hdels : ¬ dels k) (hcopies : ∀ src o', copies src → base src = base k → w.at src = some o' → o' = o) :
    w'.at k = some o := by
  cases h with
  | @del k' hdel => exact (at_del_ne w fun heq : k = k' => hdels (heq ▸ hdel)).trans ho
  | @copy src o' dst hsrc ho' hbase =>
    by_cases heq : k = dst
    · rw [heq, at_put_self, hcopies src o' hsrc (heq ▸ hbase.symm) ho']
    · exact (at_put_ne w o' heq).trans ho
  | metadata m => exact (at_put_ne w _ hk.symm).trans ho

theorem Kept.mono (h : Kept p dels copies J) (hdels : ∀ k, dels' k → dels k)
    (hcopies : ∀ k, copies' k → copies k) : Kept p dels' copies' J :=
  fun _ _ hw ht => h hw (ht.mono hdels hcopies)

theorem Kept.and (hJ : Kept p dels copies J) (hK : Kept p dels copies K) :
    Kept p dels copies (fun w => J w ∧ K w) :=
  fun _ _ hw ht => ⟨hJ hw.1 ht, hK hw.2 ht⟩

end Touch

/-- What recovery relies on: the names in the staging area, and a readable metadata
document. -/
structure Shape (p : Config) (w : World) : Prop where
  normal : ∀ k, InStaging p k → w.at k ≠ none → Path.Normal (Path.base k)
  document : ∀ k, InStaging p k → w.at k ≠ none →
    Path.base k ≠ parquet2PCMetadataFile
  metadata : ∃ m, MetadataIs p m w

theorem shape_kept : Kept p (InStaging p) (InStaging p) (Shape p) := by
  rintro w w' ⟨hnormal, hdocument, m, hm⟩ ht
  have hsource : ∀ k, InStaging p k → w'.at k ≠ none →
      ∃ src, InStaging p src ∧ w.at src ≠ none ∧ base src = base k := by
    intro k hk hat
    obtain ⟨o, ho⟩ := Option.ne_none_iff_exists'.1 hat
    rcases ht.source (metadataKey_ne_of_root p hk) ho with ho | ⟨src, hsrc, hbase, ho⟩
    · exact ⟨k, hk, by simp [ho], rfl⟩
    · exact ⟨src, hsrc, by simp [ho], hbase⟩
  refine ⟨fun k hk hat => ?_, fun k hk hat => ?_, ?_⟩
  · obtain ⟨src, hsrc, hat, hbase⟩ := hsource k hk hat
    exact hbase ▸ hnormal src hsrc hat
  · obtain ⟨src, hsrc, hat, hbase⟩ := hsource k hk hat
    exact hbase ▸ hdocument src hsrc hat
  · cases ht with
    | del hk => exact ⟨m, hm.del (metadataKey_ne_of_root p hk)⟩
    | copy hk ho hbase =>
      refine ⟨m, hm.put fun heq => ?_⟩
      rw [← heq, base_metadataKey] at hbase
      exact hdocument _ hk (by simp [ho]) hbase.symm
    | metadata m' => exact ⟨some m', at_put_self w _ _⟩

/-! ### Promotion -/

/-- A directory of the staging area. -/
structure Dir (p : Config) (dir : Key) : Prop where
  root : InStaging p dir
  slash : ∃ d, dir = d ++ ['/']

theorem dir_root (p : Config) : Dir p (stagingRootPrefix p) :=
  ⟨prefix_refl _, p.tablePath ++ '/' :: parquet2PCDir, rfl⟩

theorem dir_thread (p : Config) (hash : Key) : Dir p (stagingDir p hash) :=
  ⟨inStaging_dir p hash, _, rfl⟩

theorem Dir.base_drop (h : Dir p dir) (hk : dir <+: k) :
    Path.base (k.drop dir.length) = Path.base k := by
  obtain ⟨rel, rfl⟩ := hk
  obtain ⟨d, hd⟩ := h.slash
  rw [drop_left, hd, append_assoc, singleton_append, base_append]

theorem Dir.base_promoted (h : Dir p dir) (hw : Shape p w) (hk : dir <+: k)
    (hat : w.at k ≠ none) : Path.base (finalKey p (k.drop dir.length)) = Path.base k := by
  have hnormal := hw.normal k (h.root.trans hk) hat
  unfold finalKey
  rw [base_join (by rw [h.base_drop hk]; exact hnormal), h.base_drop hk]

section Steps

variable {I : World → Prop} {dir : Key}

/-- As long as the file at `k₀` waits for its turn `Wait` holds, and `Done` holds from
then on, whatever is done below `dir`. -/
structure Course (p : Config) (dir k₀ : Key) (I Wait Done : World → Prop) : Prop where
  wait : Kept p (fun k => dir <+: k ∧ k ≠ k₀) (fun k => Files dir k ∧ k ≠ k₀) Wait
  done : Kept p (dir <+: ·) (Files dir) Done
  waiting : ∀ w, Wait w → I w ∧ w.at k₀ ≠ none
  ended : ∀ w, Done w → I w

variable {J Wait Done : World → Prop} {k₀ : Key}

theorem Course.inv (hc : Course p dir k₀ I Wait Done) (hw : Wait w ∨ Done w) : I w :=
  hw.elim (fun h => (hc.waiting w h).1) (hc.ended w)

theorem Course.and (hc : Course p dir k₀ I Wait Done) (hK : Kept p (dir <+: ·) (Files dir) K) :
    Course p dir k₀ I (fun w => K w ∧ Wait w) (fun w => K w ∧ Done w) :=
  ⟨(hK.mono (fun _ hk => hk.1) (fun _ hk => hk.1)).and hc.wait, hK.and hc.done,
    fun w hw => hc.waiting w hw.2, fun w hw => hc.ended w hw.2⟩

variable (k₀) in
theorem Course.of_kept (hJ : Kept p (dir <+: ·) (Files dir) J) (hI : ∀ w, J w → I w) :
    Course p dir k₀ I (fun _ => False) J :=
  ⟨fun _ _ h => h.elim, hJ, fun _ h => h.elim, hI⟩

/-- What the promotion of `dir` does to the file itself. -/
def Promotes (p : Config) (dir k₀ : Key) (I Wait Done : World → Prop) : Prop :=
  ∀ w o, Wait w → w.at k₀ = some o →
    Path.base (finalKey p (k₀.drop dir.length)) = Path.base k₀ →
    I (w.put (finalKey p (k₀.drop dir.length)) o) ∧
      Done ((w.put (finalKey p (k₀.drop dir.length)) o).del k₀)

theorem promote_resolves (hdir : Dir p dir) (hc : Course p dir k₀ I Wait Done)
    (hk₀ : ∀ w, Wait w → Files dir k₀) (hself : Promotes p dir k₀ I Wait Done) :
    Spec I (fun w => Shape p w ∧ (Wait w ∨ Done w)) (promoteS3Staging p dir)
      (fun _ w => Shape p w ∧ Done w) := by
  have hshape : Kept p (dir <+: ·) (Files dir) (Shape p) :=
    shape_kept.mono (fun _ => hdir.root.trans) (fun _ hk => hdir.root.trans hk.1)
  have hcs := hc.and hshape
  have hbase : ∀ {w k o}, Shape p w → Files dir k → w.at k = some o →
      base (finalKey p (k.drop dir.length)) = base k :=
    fun hw hk ho => hdir.base_promoted hw hk.1 (by simp [ho])
  refine Spec.pre (P := fun w => (Shape p w ∧ Wait w) ∨ (Shape p w ∧ Done w))
    (promoteS3Staging_spec k₀ (fun w hw => ?_) hcs.ended (fun w k o hw hk hne ho => ?_)
      (fun w o hw ho => ?_) (fun w k o hw hk ho => ?_)) (fun w hw => and_or_left.1 hw)
  · obtain ⟨hinv, hat⟩ := hcs.waiting w hw
    refine ⟨hinv, hat, hk₀ w hw.2, ?_⟩
    rintro rfl
    -- a directory has no name
    have hnormal := hw.1.normal k₀ hdir.root hat
    rw [← hdir.base_drop (prefix_refl _), drop_length] at hnormal
    exact hnormal.1 rfl
  · have hcopied := hcs.wait hw (.copy ⟨hk, hne⟩ ho (hbase hw.1 hk ho))
    exact ⟨(hcs.waiting _ hcopied).1, hcs.wait hcopied (.del ⟨hk.1, hne⟩)⟩
  · have hk := hk₀ w hw.2
    obtain ⟨hcopied, hdone⟩ := hself w o hw.2 ho (hbase hw.1 hk ho)
    exact ⟨hcopied, hshape (hshape hw.1 (.copy hk ho (hbase hw.1 hk ho))) (.del hk.1), hdone⟩
  · have hcopied := hcs.done hw (.copy hk ho (hbase hw.1 hk ho))
    exact ⟨hcs.ended _ hcopied, hcs.done hcopied (.del hk.1)⟩

/-! ### Cleanup and metadata -/

theorem delete_resolves (hdir : Dir p dir) (hc : Course p dir k₀ I Wait Done)
    (hk₀ : ∀ w, Wait w → Files dir k₀) (hself : ∀ w, Wait w → Done (w.del k₀)) :
    Spec I (fun w => Shape p w ∧ (Wait w ∨ Done w)) (deleteStagingPrefix dir)
      (fun _ w => Shape p w ∧ Done w) := by
  have hdel : ∀ w k, Shape p w ∧ (Wait w ∨ Done w) → dir <+: k →
      Shape p (w.del k) ∧ (Wait (w.del k) ∨ Done (w.del k)) := by
    rintro w k ⟨hw, hphase⟩ hk
    refine ⟨shape_kept hw (.del (hdir.root.trans hk)), ?_⟩
    rcases hphase with hwait | hdone
    · by_cases heq : k = k₀
      · rw [heq]
        exact .inr (hself w hwait)
      · exact .inl (hc.wait hwait (.del ⟨hk, heq⟩))
    · exact .inr (hc.done hdone (.del hk))
  -- once the data keys are gone the file is no longer waiting
  have hend : ∀ w, Wait w ∨ Done w → (∀ k, Files dir k → w.at k = none) → Done w := by
    rintro w (hwait | hdone) hnone
    · exact absurd (hnone k₀ (hk₀ w hwait)) (hc.waiting w hwait).2
    · exact hdone
  refine deleteStagingPrefix_spec dir (fun w hw => hc.inv hw.2) (fun w k hw hk _ => hdel w k hw hk) ?_ ?_
  · exact fun w hw hnone => ⟨hw.1, hend w hw.2 fun k hk => hnone k hk.1⟩
  · intro w hw hnone
    have hdone := hend w hw.2 fun k hk => hnone k hk.1 hk.2
    have hgone := hdel w _ ⟨hw.1, .inr hdone⟩ (prefix_append dir parquet2PCFinishFile)
    exact ⟨hc.inv hgone.2, hgone.1, hc.done hdone (.del (prefix_append _ _))⟩

theorem commit_kept (hJ : Kept p dels copies J) (hI : ∀ w, J w → I w)
    (commit : MetadataState → MetadataState) :
    Spec I (fun w => Shape p w ∧ J w)
      (andThen (readMetadata p) (fun m => writeMetadata p (commit (m.getD {}))))
      (fun _ w => Shape p w ∧ J w) := by
  refine (readMetadata_spec (fun w hw => hI w hw.2) (fun w hw => hw.1.metadata)).andThen (fun m => ?_)
  refine writeS3Object_spec _ _ (fun w hw => hI w hw.1.2) (fun w hw => ?_)
  have hwritten := hJ hw.1.2 (.metadata (commit (m.getD {})))
  exact ⟨hI _ hwritten, shape_kept hw.1.1 (.metadata _), hwritten⟩

theorem finalize_resolves (hdir : Dir p dir) (hc : Course p dir k₀ I Wait Done)
    (hk₀ : ∀ w, Wait w → Files dir k₀) (hself : Promotes p dir k₀ I Wait Done)
    (commit : MetadataState → MetadataState) :
    Spec I (fun w => Shape p w ∧ (Wait w ∨ Done w)) (finalizeStaging p dir commit)
      (fun _ w => Shape p w ∧ Done w) :=
  (promote_resolves hdir hc hk₀ hself).andThen (fun _ =>
    (commit_kept hc.done hc.ended commit).andThen (fun _ =>
      (delete_resolves hdir (Course.of_kept k₀ hc.done hc.ended) (fun _ h => h.elim)
        (fun _ h => h.elim)).pre (fun _ hw => ⟨hw.1, .inr hw.2⟩)))

/-! ### Shared recovery -/

theorem files_of_base (hdir : Dir p dir) (hk : dir <+: k)
    (hbase : Path.base k ≠ parquet2PCFinishFile) : Files dir k := by
  refine ⟨hk, fun heq => hbase ?_⟩
  rw [← hdir.base_drop hk, heq, drop_left]
  decide

/-- The directory in whose turn a recovery comes to a staged key. -/
def turnOf (p : Config) (backfill : Bool) (k : Key) : Option Key :=
  if backfill then threadDir (stagingRootPrefix p) k else some (stagingRootPrefix p)

/-- What the recovery of `w₀` does to the file itself. -/
structure Turns (p : Config) (backfill : Bool) (k₀ : Key) (w₀ : World) (I Wait Done : World → Prop) :
    Prop where
  del : ∀ dir, turnOf p backfill k₀ = some dir → w₀.at (dir ++ parquet2PCFinishFile) = none →
    ∀ w, Wait w → Done (w.del k₀)
  promote : ∀ dir, turnOf p backfill k₀ = some dir → w₀.at (dir ++ parquet2PCFinishFile) ≠ none →
    Promotes p dir k₀ I Wait Done

theorem recoverShared_resolves (hw₀ : Shape p w₀)
    (hc : Course p (stagingRootPrefix p) k₀ I Wait Done) (hstart : Wait w₀ ∨ Done w₀)
    (hk₀ : InStaging p k₀) (hat : w₀.at k₀ ≠ none) (hbase : Path.base k₀ ≠ parquet2PCFinishFile)
    (hmarker : w₀.at (sharedFinishObjectKey p) ≠ none →
      ∃ st, w₀.at (sharedFinishObjectKey p) = some (.finish (.stream (some st))))
    (hturns : Turns p false k₀ w₀ I Wait Done) :
    Spec I (fun w => w = w₀) (recoverSharedStaging p) (fun _ => Done) := by
  have hfiles := files_of_base (dir_root p) hk₀ hbase
  have hpre : ∀ w, w = w₀ → Shape p w ∧ (Wait w ∨ Done w) := fun w hw => hw ▸ ⟨hw₀, hstart⟩
  refine recoverSharedStaging_rule (hc.inv hstart) (fun hnone => ?_) (fun hfin => ?_)
    (fun hfin => ?_)
  · exact absurd (hnone k₀ hk₀) hat
  · exact (delete_resolves (dir_root p) hc (fun _ _ => hfiles) (hturns.del _ rfl hfin)).mono
      (fun _ h => h) hpre (fun _ _ h => h.2)
  · obtain ⟨st, hst⟩ := hmarker hfin
    exact ⟨st, hst, (finalize_resolves (dir_root p) hc (fun _ _ => hfiles)
      (hturns.promote _ rfl hfin) _).mono (fun _ h => h) hpre (fun _ _ h => h.2)⟩

/-! ### Backfill recovery -/

variable {hash : Key}

/-- A key below a thread directory is not the shared marker. -/
theorem thread_ne_shared (hno : '/' ∉ hash) (hk : stagingDir p hash <+: k) :
    k ≠ stagingRootPrefix p ++ parquet2PCFinishFile := by
  rintro rfl
  have hdir := threadDir_of_under hno hk
  unfold threadDir at hdir
  rw [drop_left] at hdir
  revert hdir
  have hsplit : splitThread parquet2PCFinishFile = none := by decide
  rw [hsplit]
  simp

theorem Course.below (hc : Course p (stagingRootPrefix p) k₀ I Wait Done) (hno : '/' ∉ hash) :
    Course p (stagingDir p hash) k₀ I Wait Done := by
  have hunder : ∀ k, stagingDir p hash <+: k → InStaging p k :=
    fun k hk => (inStaging_dir p hash).trans hk
  have hfiles : ∀ k, Files (stagingDir p hash) k → Files (stagingRootPrefix p) k :=
    fun k hk => ⟨hunder k hk.1, thread_ne_shared hno hk.1⟩
  exact ⟨hc.wait.mono (fun k hk => ⟨hunder k hk.1, hk.2⟩) (fun k hk => ⟨hfiles k hk.1, hk.2⟩),
    hc.done.mono hunder hfiles, hc.waiting, hc.ended⟩

/-- Only markers are named `finish.json`, and those of the entries ahead can be read. -/
structure Marked (p : Config) (ahead : List StagingEntry) (w : World) : Prop where
  only : ∀ hash rel, '/' ∉ hash → w.at (stagingDir p hash ++ rel) ≠ none →
    Path.base rel = parquet2PCFinishFile → rel = parquet2PCFinishFile
  read : ∀ e ∈ ahead, e.finished = true → ∃ t, t ≠ [] ∧
    w.at (e.dir ++ parquet2PCFinishFile) = some (.finish (.backfill t))

theorem base_thread (p : Config) (hash rel : Key) :
    Path.base (stagingDir p hash ++ rel) = Path.base rel := by
  rw [append_assoc _, singleton_append, base_append]

theorem marked_kept (hno : '/' ∉ hash)
    (hahead : ∀ e ∈ ahead, (∃ h, '/' ∉ h ∧ e.dir = stagingDir p h) ∧
      e.dir ≠ stagingDir p hash) :
    Kept p (stagingDir p hash <+: ·) (Files (stagingDir p hash)) (Marked p ahead) := by
  rintro w w' ⟨honly, hread⟩ ht
  have hroot : ∀ h rel, metadataObjectKey p ≠ stagingRootPrefix p ++ h ++ ['/'] ++ rel := fun h rel =>
    metadataKey_ne_of_root p ((dir_thread p h).root.trans (prefix_append _ _))
  have hfile : ∀ {src o}, Files (stagingDir p hash) src → w.at src = some o →
      base src ≠ parquet2PCFinishFile := by
    rintro _ o ⟨⟨rel, rfl⟩, hne⟩ ho hbase
    rw [base_thread] at hbase
    exact hne (by rw [honly hash rel hno (by rw [ho]; simp) hbase])
  refine ⟨fun h rel hh hat hfin => ?_, fun e he hfin => ?_⟩
  · obtain ⟨o, ho⟩ := Option.ne_none_iff_exists'.1 hat
    rcases ht.source (hroot h rel) ho with ho | ⟨src, hsrc, hname, ho⟩
    · exact honly h rel hh (by rw [ho]; simp) hfin
    · exact absurd (hname.trans ((base_thread p h rel).trans hfin)) (hfile hsrc ho)
  · obtain ⟨t, htn, hat⟩ := hread e he hfin
    obtain ⟨⟨h, hh, hdir⟩, hne⟩ := hahead e he
    rw [hdir] at hat hne ⊢
    refine ⟨t, htn, ht.stays hat (hroot h _) (fun hk => ?_) fun src o hsrc hname ho => ?_⟩
    · -- the marker of another directory is not below this one
      have hthis := threadDir_of_under hno hk
      rw [threadDir_of_under hh (prefix_append _ _)] at hthis
      exact hne (Option.some.inj hthis)
    · exact absurd (hname.trans ((base_thread p h _).trans (by decide))) (hfile hsrc ho)

/-- Where the course stands when these entries are behind. -/
def Phase (k₀ : Key) (Wait Done : World → Prop) (behind : List StagingEntry) (w : World) : Prop :=
  (Wait w ∧ ∀ e ∈ behind, ¬ e.dir <+: k₀) ∨ Done w

/-- The course of a file through the directory of an entry; in another one it goes on
waiting. -/
theorem Course.entry (hc : Course p e.dir k₀ I Wait Done) (behind : List StagingEntry) :
    Course p e.dir k₀ I (fun w => Wait w ∧ e.dir <+: k₀) (Phase k₀ Wait Done (behind ++ [e])) := by
  have hne : ∀ {k}, e.dir <+: k → (∀ e' ∈ behind ++ [e], ¬ e'.dir <+: k₀) → k ≠ k₀ := by
    rintro k hk hnot rfl
    exact hnot e (by simp) hk
  refine ⟨fun w w' hw ht => hw.imp_left (hc.wait · ht), ?_, fun w hw => hc.waiting w hw.1,
    fun w hw => hc.inv (hw.imp_left And.left)⟩
  rintro w w' (⟨hwait, hnot⟩ | hdone) ht
  · exact .inl ⟨hc.wait hwait (ht.mono (fun _ hk => ⟨hk, hne hk hnot⟩) fun _ hk => ⟨hk, hne hk.1 hnot⟩), hnot⟩
  · exact .inr (hc.done hdone ht)

/-- What backfill recovery does with one entry. -/
theorem entry_resolves
    (hc : Course p (stagingRootPrefix p) k₀ I Wait Done) (hlisted : Listed p w₀ (behind ++ e :: rest))
    (hbase : Path.base k₀ ≠ parquet2PCFinishFile)
    (hdel : e.dir <+: k₀ → e.finished = false → ∀ w, Wait w → Done (w.del k₀))
    (hpromote : e.dir <+: k₀ → e.finished = true → Promotes p e.dir k₀ I Wait Done)
    (hw : Shape p w ∧ Marked p (e :: rest) w ∧ Phase k₀ Wait Done behind w) :
    (e.finished = false → Spec I (fun s => s = w) (deleteStagingPrefix e.dir)
      (fun _ w => Shape p w ∧ Marked p rest w ∧ Phase k₀ Wait Done (behind ++ [e]) w)) ∧
    (e.finished = true → ∃ id, id ≠ [] ∧
      w.at (e.dir ++ parquet2PCFinishFile) = some (.finish (.backfill id)) ∧
      Spec I (fun s => s = w) (finalizeStaging p e.dir (addCommittedID · id))
        (fun _ w => Shape p w ∧ Marked p rest w ∧ Phase k₀ Wait Done (behind ++ [e]) w)) := by
  obtain ⟨hash, hno, hdir⟩ := hlisted.form e (by simp)
  have hcd := hc.below hno
  have hd := dir_thread p hash
  have hkept : Kept p _ (Files _) (Marked p rest) := marked_kept hno fun e' he' =>
    ⟨hlisted.form e' (by simp [he']), hdir ▸ hlisted.behind (.inr he')⟩
  rw [← hdir] at hcd hd hkept
  have hcm := (hcd.entry behind).and hkept
  have hfiles : ∀ w, Marked p rest w ∧ Wait w ∧ e.dir <+: k₀ → Files e.dir k₀ := fun w hw =>
    files_of_base hd hw.2.2 hbase
  obtain ⟨hshape, ⟨honly, hread⟩, hphase⟩ := hw
  have hmarked : Marked p rest w := ⟨honly, fun e' he' => hread e' (mem_cons_of_mem _ he')⟩
  have hstart : ∀ s, s = w → Shape p s ∧ ((Marked p rest s ∧ Wait s ∧ e.dir <+: k₀) ∨
      (Marked p rest s ∧ Phase k₀ Wait Done (behind ++ [e]) s)) := by
    rintro s rfl
    refine ⟨hshape, ?_⟩
    rcases hphase with ⟨hwait, hnot⟩ | hdone
    · by_cases hk : e.dir <+: k₀
      · exact .inl ⟨hmarked, hwait, hk⟩
      · refine .inr ⟨hmarked, .inl ⟨hwait, fun e' he' => ?_⟩⟩
        rcases mem_append.1 he' with he' | he'
        · exact hnot e' he'
        · rwa [mem_singleton.1 he']
    · exact .inr ⟨hmarked, .inr hdone⟩
  refine ⟨fun hfin => ?_, fun hfin => ?_⟩
  · refine (delete_resolves hd hcm hfiles (fun w hw => ?_)).pre hstart
    exact ⟨hkept hw.1 (.del hw.2.2), .inr (hdel hw.2.2 hfin w hw.2.1)⟩
  · obtain ⟨id, hid, hat⟩ := hread e mem_cons_self hfin
    refine ⟨id, hid, hat, (finalize_resolves hd hcm hfiles (fun w o hw ho hname => ?_) _).pre hstart⟩
    obtain ⟨hcopied, hdone⟩ := hpromote hw.2.2 hfin w o hw.2.1 ho hname
    exact ⟨hcopied, hkept (hkept hw.1 (.copy (hfiles w hw) ho hname)) (.del hw.2.2), .inr hdone⟩

theorem recoverBackfill_resolves (hw₀ : Shape p w₀)
    (hc : Course p (stagingRootPrefix p) k₀ I Wait Done) (hstart : Wait w₀ ∨ Done w₀)
    (hk₀ : InStaging p k₀) (hat : w₀.at k₀ ≠ none) (hbase : Path.base k₀ ≠ parquet2PCFinishFile)
    (hmarked : Marked p (w₀.entries p) w₀) (hturns : Turns p true k₀ w₀ I Wait Done) :
    Spec I (fun w => w = w₀) (recoverBackfillStaging p)
      (fun _ w => Done w ∨ threadDir (stagingRootPrefix p) k₀ = none ∧ Wait w) := by
  have hlisted := listed_entries p w₀
  refine (recoverBackfillStaging_rule (J := fun behind t => Shape p t ∧
    Marked p ((w₀.entries p).drop behind.length) t ∧ Phase k₀ Wait Done behind t) ?_ ?_
    (fun behind e rest hsplit t ht => ?_)).post ?_
  · exact fun _ t ht => hc.inv (ht.2.2.imp_left And.left)
  · exact ⟨hw₀, hmarked, hstart.imp_left fun hwait => ⟨hwait, fun e he => absurd he not_mem_nil⟩⟩
  · rw [hsplit] at hlisted ht ⊢
    have hdrop : (behind ++ e :: rest).drop (behind ++ [e]).length = rest := by simp
    rw [drop_left] at ht
    rw [hdrop]
    have hflag := hlisted.finished e (by simp)
    have hthread : e.dir <+: k₀ → threadDir (stagingRootPrefix p) k₀ = some e.dir := by
      obtain ⟨hash, hno, hdir⟩ := hlisted.form e (by simp)
      intro hk
      rw [hdir] at hk ⊢
      exact threadDir_of_under hno hk
    refine entry_resolves hc hlisted hbase (fun hk hfin => hturns.del e.dir (hthread hk) ?_)
      (fun hk hfin => hturns.promote e.dir (hthread hk) (hflag.1 hfin)) ht
    rwa [Bool.eq_false_iff, Ne, hflag, not_not] at hfin
  · rintro _ t ⟨_, _, ⟨hwaits, hnot⟩ | hdone⟩
    · refine .inr ⟨?_, hwaits⟩
      -- the directory of the file would have had its turn
      cases hd : threadDir (stagingRootPrefix p) k₀ with
      | none => rfl
      | some d =>
        obtain ⟨e, he, rfl⟩ := hlisted.covers k₀ hk₀ hat d hd
        obtain ⟨_, _, _, hunder⟩ := (threadDir_some hk₀).1 hd
        exact absurd hunder (hnot e he)
    · exact .inl hdone

/-! ### Both recoveries -/

/-- The markers can be read. -/
structure Readable (p : Config) (w : World) : Prop where
  shared : w.at (sharedFinishObjectKey p) ≠ none →
    ∃ st, w.at (sharedFinishObjectKey p) = some (.finish (.stream (some st)))
  threads : Marked p (w.entries p) w

theorem recover_resolves (hw₀ : Shape p w₀) (hread : Readable p w₀)
    (hc : Course p (stagingRootPrefix p) k₀ I Wait Done) (hstart : Wait w₀ ∨ Done w₀)
    (hk₀ : InStaging p k₀) (hat : w₀.at k₀ ≠ none)
    (hbase : Path.base k₀ ≠ parquet2PCFinishFile) (hturns : Turns p backfill k₀ w₀ I Wait Done) :
    Spec I (fun w => w = w₀) (recoverStaging p backfill)
      (fun _ w => Done w ∨ turnOf p backfill k₀ = none ∧ Wait w) := by
  cases backfill with
  | true => exact recoverBackfill_resolves hw₀ hc hstart hk₀ hat hbase hread.threads hturns
  | false =>
    exact (recoverShared_resolves hw₀ hc hstart hk₀ hat hbase hread.shared hturns).post (fun _ _ => .inl)

end Steps

end Olake.Parquet
