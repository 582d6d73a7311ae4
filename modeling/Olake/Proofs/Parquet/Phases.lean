/-
Recovery and the finished work of the other phase.

Backfill writers and CDC or incremental writers share the staging prefix, and each
recovery resolves its own layout only.  Whatever lies there after a crash, it is told
here which of the staged files of finished commits a recovery deletes before they are
at their final keys: those of the other phase, unless it is backfill recovery and they
lie in no partition directory; and those whose final key is in the staging area itself.
-/
import Olake.Proofs.Parquet.Course
import Olake.Proofs.Parquet.Runs

namespace Olake.Parquet

open Faulty Faulty.Prog List Option Path

/-! ### What lies in the staging area after a crash -/

/-- What the `finish.json` of a writer's commit holds. -/
inductive Marks : Writer → FinishState → Prop
  | backfill (t : ThreadID) (named : t ≠ []) : Marks (.backfill t) (.backfill t)
  | stream (state : MetadataState) : Marks .stream (.stream (some state))

/-- The commit of this writer has its `finish.json`. -/
def Finished (p : Config) (b : Bucket) (wr : Writer) : Prop :=
  ∃ s, b.lookup (finishObjectKey p wr) = some (.finish s) ∧ Marks wr s

/-- The file lies where its writer stages it. -/
def Staged (p : Config) (b : Bucket) (wr : Writer) (f : DataPath) : Prop :=
  b.lookup (stagingObjectKey p wr f) = some (.data wr f)

/-- The file is at its final key.  What is in the staging area is not: it goes with the
rest of it. -/
def AtFinal (p : Config) (b : Bucket) (wr : Writer) (f : DataPath) : Prop :=
  b.lookup (finalKey p f.path) = some (.data wr f) ∧ ¬ InStaging p (finalKey p f.path)

/-- Any mixture of data files, by their generated names, and finish markers of any
number of writers. -/
structure WellStaged (p : Config) (b : Bucket) : Prop where
  objects : ∀ k, InStaging p k → ∀ o, b.lookup k = some o →
    (∃ wr f, o = .data wr f ∧ Path.base k = Path.base f.path) ∨
      ∃ wr s, k = finishObjectKey p wr ∧ o = .finish s ∧ Marks wr s
  names : ∀ k k', InStaging p k → InStaging p k' → ∀ wr f wr' f',
    b.lookup k = some (.data wr f) → b.lookup k' = some (.data wr' f') →
    Path.base f.path = Path.base f'.path → Object.data wr f = Object.data wr' f'
  once : ∀ wr f k, Staged p b wr f → InStaging p k → b.lookup k = some (.data wr f) →
    k = stagingObjectKey p wr f ∨ k = finalKey p f.path
  metadata : ∀ o, b.lookup (metadataObjectKey p) = some o → ∃ m, o = .metadata m

def startOf (b : Bucket) : World := { bucket := b, deletions := [], finished := [] }

/-- However the recovery ends, no staged file of a finished commit has been deleted
before it was at its final key. -/
def Spares (p : Config) (backfill : Bool) (b : Bucket) : Prop :=
  ∀ faults wr f, Finished p b wr → Staged p b wr f →
    ∀ e ∈ ((recoverStaging p backfill).after faults (startOf b)).deletions,
      e.2 = stagingObjectKey p wr f → e.1.lookup e.2 = some (.data wr f) → AtFinal p e.1 wr f

/-- Nothing of a finished commit is in the way of the recovery: a staged file of the
same phase has its final key outside of the staging area; one of the other phase is at
its final key, or the recovery is a backfill one and the file lies in no directory. -/
def Separate (p : Config) (backfill : Bool) (b : Bucket) : Prop :=
  ∀ wr f, Finished p b wr → Staged p b wr f →
    if wr.isBackfill = backfill then ¬ InStaging p (finalKey p f.path)
    else (backfill = true → '/' ∈ f.path) → AtFinal p b wr f

section Start

variable {p : Config} {b : Bucket} (h : WellStaged p b)

include h

theorem WellStaged.marker (hk : InStaging p k)
    (ho : b.lookup k = some o) (hbase : Path.base k = parquet2PCFinishFile) :
    ∃ wr s, k = finishObjectKey p wr ∧ o = .finish s ∧ Marks wr s := by
  rcases h.objects k hk o ho with ⟨wr, f, _, hname⟩ | hmarker
  · exact absurd (hname.symm.trans hbase) (base_data_ne f not_parquet_finish)
  · exact hmarker

/-- The marker of a thread directory is that of the thread. -/
theorem WellStaged.thread {hash rel : Key} (hno : '/' ∉ hash)
    (ho : b.lookup (stagingDir p hash ++ rel) = some o)
    (hbase : Path.base rel = parquet2PCFinishFile) :
    rel = parquet2PCFinishFile ∧ ∃ t, t ≠ [] ∧ hash = p.hashThreadID t ∧ o = .finish (.backfill t) := by
  have hunder : stagingDir p hash <+: stagingDir p hash ++ rel := prefix_append _ _
  obtain ⟨wr, s, hkey, rfl, hmarks⟩ := h.marker ((inStaging_dir p hash).trans hunder) ho
    ((base_thread p hash rel).trans hbase)
  cases hmarks with
  | stream st => exact absurd hkey (thread_ne_shared hno hunder)
  | backfill t ht =>
    simp only [finishObjectKey, currentStagingPrefix, backfillStagingPrefix, append_assoc,
      append_cancel_left_eq, singleton_append] at hkey
    have hsplit := splitThread_some.2 ⟨hkey, no_slash_hash p t⟩
    rw [splitThread_some.2 ⟨rfl, hno⟩] at hsplit
    simp only [some.injEq, Prod.mk.injEq] at hsplit
    exact ⟨hsplit.2, t, ht, hsplit.1, rfl⟩

theorem WellStaged.shape : Shape p (startOf b) := by
  have hname : ∀ k, InStaging p k → (startOf b).at k ≠ none →
      Path.Normal (base k) ∧ base k ≠ parquet2PCMetadataFile := by
    intro k hk hat
    obtain ⟨o, ho⟩ := ne_none_iff_exists'.1 hat
    rcases h.objects k hk o ho with ⟨wr, f, _, hname⟩ | ⟨wr, s, rfl, _⟩
    · rw [hname]
      exact ⟨f.base_normal, base_data_ne f not_parquet_metadata⟩
    · rw [base_finishKey]
      exact ⟨⟨by decide, by decide, by decide, by decide⟩, by decide⟩
  refine ⟨fun k hk hat => (hname k hk hat).1, fun k hk hat => (hname k hk hat).2, ?_⟩
  cases ho : b.lookup (metadataObjectKey p) with
  | none => exact ⟨none, ho⟩
  | some o =>
    obtain ⟨m, rfl⟩ := h.metadata o ho
    exact ⟨some m, ho⟩

theorem WellStaged.readable : Readable p (startOf b) := by
  refine ⟨fun hat => ?_, fun hash rel hno hat hbase => ?_, fun e he hfin => ?_⟩
  · obtain ⟨o, ho⟩ := ne_none_iff_exists'.1 hat
    obtain ⟨wr, s, hkey, rfl, hmarks⟩ :=
      h.marker (root_finishKey p .stream) ho (base_finishKey p .stream)
    cases hmarks with
    | stream st => exact ⟨st, ho⟩
    | backfill t ht =>
      exact absurd hkey.symm (thread_ne_shared (no_slash_hash p t) (prefix_append _ _))
  · obtain ⟨o, ho⟩ := ne_none_iff_exists'.1 hat
    exact (h.thread hno ho hbase).1
  · have hlisted := listed_entries p (startOf b)
    obtain ⟨hash, hno, hdir⟩ := hlisted.form e he
    obtain ⟨o, ho⟩ := ne_none_iff_exists'.1 ((hlisted.finished e he).1 hfin)
    rw [hdir] at ho ⊢
    obtain ⟨_, t, ht, _, rfl⟩ := h.thread hno ho (by decide)
    exact ⟨t, ht, ho⟩

end Start

/-! ### What recovery does to one file -/

section File

variable (p : Config) (wr : Writer) (f : DataPath)

/-- The name belongs to the file. -/
def Named (w : World) : Prop :=
  ∀ k, InStaging p k → Path.base k = Path.base f.path → ∀ o, w.at k = some o →
    o = .data wr f

/-- The file waits where its writer has staged it. -/
def Waiting (w : World) : Prop := Named p wr f w ∧ Staged p w.bucket wr f

def Arrived (w : World) : Prop := Named p wr f w ∧ AtFinal p w.bucket wr f

def Safe (w : World) : Prop :=
  ∀ e ∈ w.deletions, e.2 = stagingObjectKey p wr f → e.1.lookup e.2 = some (.data wr f) →
    AtFinal p e.1 wr f

def Harmed (w : World) : Prop :=
  ∃ e ∈ w.deletions, e.2 = stagingObjectKey p wr f ∧ e.1.lookup e.2 = some (.data wr f) ∧
    ¬ AtFinal p e.1 wr f

/-- Unless its final key is in the staging area, the file is not there, and only its
staged copy could be brought there. -/
def Lone (w : World) : Prop :=
  ¬ InStaging p (finalKey p f.path) →
    w.at (finalKey p f.path) ≠ some (.data wr f) ∧
      ∀ k, InStaging p k → w.at k = some (.data wr f) → k = stagingObjectKey p wr f

/-- A key of the staging area other than the file's own. -/
def Elsewhere (k : Key) : Prop := InStaging p k ∧ k ≠ stagingObjectKey p wr f

variable {p wr f}

theorem named_kept : Kept p (InStaging p) (InStaging p) (Named p wr f) := by
  intro w w' hw ht k hk hbase o ho
  rcases ht.source (metadataKey_ne_of_root p hk) ho with ho | ⟨src, hsrc, hname, ho⟩
  · exact hw k hk hbase o ho
  · exact hw src hsrc (hname.trans hbase) o ho

/-- The staged file stays where it is as long as its own key is left alone. -/
theorem waiting_kept : Kept p (Elsewhere p wr f) (Elsewhere p wr f) (Waiting p wr f) := by
  rintro w w' ⟨hw, hst⟩ ht
  refine ⟨named_kept hw (ht.mono (fun _ hk => hk.1) fun _ hk => hk.1), ht.stays hst
    (metadataKey_ne_of_root p (root_stagingKey p wr f)) (fun hk => hk.2 rfl) fun src o hsrc hname ho => ?_⟩
  exact hw src hsrc.1 (hname.trans (base_stagingKey p wr f)) o ho

theorem arrived_kept : Kept p (InStaging p) (InStaging p) (Arrived p wr f) := by
  rintro w w' ⟨hw, hat, hout⟩ ht
  refine ⟨named_kept hw ht, ht.stays hat (finalKey_ne_metadataKey p f).symm hout
    fun src o hsrc hname ho => ?_, hout⟩
  exact hw src hsrc (hname.trans (base_finalKey p f)) o ho

/-- What is deleted is recorded with the bucket it was deleted from. -/
theorem Touch.deleted (h : Touch p dels copies w w') (he : e ∈ w'.deletions) :
    e ∈ w.deletions ∨ dels e.2 ∧ e.1 = w.bucket := by
  cases h with
  | del hk =>
    rcases mem_cons.1 he with rfl | he
    · exact .inr ⟨hk, rfl⟩
    · exact .inl he
  | copy | metadata => exact .inl he

theorem safe_kept : Kept p (Elsewhere p wr f) (Elsewhere p wr f) (Safe p wr f) := by
  intro w w' hw ht e he hkey
  rcases ht.deleted he with he | ⟨hk, -⟩
  · exact hw e he hkey
  · exact absurd hkey hk.2

theorem saved_kept : Kept p (InStaging p) (InStaging p)
    (fun w => Arrived p wr f w ∧ Safe p wr f w) := by
  rintro w w' ⟨hw, hsafe⟩ ht
  refine ⟨arrived_kept hw ht, fun e he hkey hlook => ?_⟩
  rcases ht.deleted he with he | ⟨-, hbucket⟩
  · exact hsafe e he hkey hlook
  · exact hbucket ▸ hw.2

theorem harmed_kept : Kept p dels copies (Harmed p wr f) := by
  rintro w w' ⟨e, he, hharm⟩ ht
  cases ht with
  | del hk => exact ⟨e, mem_cons_of_mem _ he, hharm⟩
  | copy | metadata => exact ⟨e, he, hharm⟩

theorem lone_kept : Kept p (Elsewhere p wr f) (Elsewhere p wr f) (Lone p wr f) := by
  intro w w' hw ht hout
  obtain ⟨hnot, honly⟩ := hw hout
  have hold : ∀ {k}, metadataObjectKey p ≠ k → w'.at k = some (.data wr f) → w.at k = some (.data wr f) :=
    fun hk hat => (ht.source hk hat).resolve_right fun ⟨src, hsrc, _, ho⟩ => hsrc.2 (honly src hsrc.1 ho)
  exact ⟨fun hat => hnot (hold (finalKey_ne_metadataKey p f).symm hat),
    fun k hk hat => honly k hk (hold (metadataKey_ne_of_root p hk) hat)⟩

variable {w : World}

/-! ### The courses of a file -/

theorem Kept.waits (h : Kept p (Elsewhere p wr f) (Elsewhere p wr f) J) :
    Kept p (fun k => InStaging p k ∧ k ≠ stagingObjectKey p wr f)
      (fun k => Files (stagingRootPrefix p) k ∧ k ≠ stagingObjectKey p wr f) J :=
  h.mono (fun _ hk => hk) (fun _ hk => ⟨hk.1.1, hk.2⟩)

theorem Kept.over (h : Kept p (InStaging p) (InStaging p) J) :
    Kept p (InStaging p) (Files (stagingRootPrefix p)) J :=
  h.mono (fun _ hk => hk) (fun _ hk => hk.1)

theorem Staged.ne_none (h : Staged p w.bucket wr f) : w.at (stagingObjectKey p wr f) ≠ none := by
  unfold World.at
  rw [h]
  simp

theorem course_own : Course p (stagingRootPrefix p) (stagingObjectKey p wr f) (Safe p wr f)
    (fun w => Waiting p wr f w ∧ Safe p wr f w) (fun w => Arrived p wr f w ∧ Safe p wr f w) :=
  ⟨(waiting_kept.and safe_kept).waits, saved_kept.over, fun _ hw => ⟨hw.2, hw.1.2.ne_none⟩,
    fun _ hw => hw.2⟩

theorem course_harm : Course p (stagingRootPrefix p) (stagingObjectKey p wr f) (fun _ => True)
    (fun w => Waiting p wr f w ∧ Lone p wr f w) (Harmed p wr f) :=
  ⟨(waiting_kept.and lone_kept).waits, harmed_kept, fun _ hw => ⟨trivial, hw.1.2.ne_none⟩,
    fun _ _ => trivial⟩

/-- Promotion to the final key, and then the staged copy goes. -/
theorem own_promoted (hout : ¬ InStaging p (finalKey p f.path))
    (hw : Waiting p wr f w ∧ Safe p wr f w)
    (ho : w.at (stagingObjectKey p wr f) = some o) : Safe p wr f (w.put (finalKey p f.path) o) ∧
      Arrived p wr f ((w.put (finalKey p f.path) o).del (stagingObjectKey p wr f)) ∧
      Safe p wr f ((w.put (finalKey p f.path) o).del (stagingObjectKey p wr f)) := by
  obtain ⟨⟨hnamed, hst⟩, hsafe⟩ := hw
  have hroot := root_stagingKey p wr f
  have hname : base (finalKey p f.path) = base (stagingObjectKey p wr f) := by
    rw [base_finalKey, base_stagingKey]
  have hfile : o = .data wr f := by
    have h := ho.symm.trans hst
    exact some.inj h
  have hfinal : AtFinal p (w.put (finalKey p f.path) o).bucket wr f := by
    rw [hfile]
    exact ⟨at_put_self w _ _, hout⟩
  exact ⟨hsafe, saved_kept ⟨⟨named_kept hnamed (.copy hroot ho hname), hfinal⟩, hsafe⟩ (.del hroot)⟩

theorem harm_deleted (hw : Waiting p wr f w ∧ Lone p wr f w) :
    Harmed p wr f (w.del (stagingObjectKey p wr f)) :=
  ⟨_, mem_cons_self, rfl, hw.1.2, fun hfinal => (hw.2 hfinal.2).1 hfinal.1⟩

/-- The file is promoted to a key that is not its final one. -/
theorem harm_promoted (hdst : ¬ InStaging p (finalKey p f.path) → dst ≠ finalKey p f.path)
    (hw : Waiting p wr f w ∧ Lone p wr f w) (ho : w.at (stagingObjectKey p wr f) = some o) :
    Harmed p wr f ((w.put dst o).del (stagingObjectKey p wr f)) := by
  have hfile : (w.put dst o).at (stagingObjectKey p wr f) = some (.data wr f) := by
    by_cases heq : stagingObjectKey p wr f = dst
    · rw [← heq, at_put_self, ← ho]
      exact hw.1.2
    · rw [at_put_ne w o heq]
      exact hw.1.2
  refine ⟨_, mem_cons_self, rfl, hfile, fun hfinal => ?_⟩
  have hat : (w.put dst o).at (finalKey p f.path) = some (.data wr f) := hfinal.1
  rw [at_put_ne w o (hdst hfinal.2).symm] at hat
  exact (hw.2 hfinal.2).1 hat

end File

/-! ### Where a staged file lies -/

section Keys

variable {p : Config} {f : DataPath}

theorem drop_own (wr : Writer) :
    (stagingObjectKey p wr f).drop (currentStagingPrefix p wr).length = f.path := by
  rw [stagingObjectKey_eq, drop_left]

theorem drop_root_backfill (t : ThreadID) :
    (stagingObjectKey p (.backfill t) f).drop (stagingRootPrefix p).length =
      p.hashThreadID t ++ '/' :: f.path := by
  simp only [stagingObjectKey_eq, currentStagingPrefix, backfillStagingPrefix, append_assoc,
    drop_left, singleton_append]

theorem threadDir_backfill (t : ThreadID) :
    threadDir (stagingRootPrefix p) (stagingObjectKey p (.backfill t) f) =
      some (backfillStagingPrefix p t) :=
  staged_threadDir (current_stagingKey (.backfill t) f)

theorem turnOf_own (wr : Writer) : turnOf p wr.isBackfill (stagingObjectKey p wr f) =
    some (currentStagingPrefix p wr) := by
  cases wr with
  | stream => rfl
  | backfill t => exact threadDir_backfill t

/-- A file of a stream writer is in a thread's place when it is in a partition directory. -/
theorem threadDir_stream :
    threadDir (stagingRootPrefix p) (stagingObjectKey p .stream f) = none ↔ '/' ∉ f.path := by
  have hdrop : (stagingObjectKey p .stream f).drop (stagingRootPrefix p).length = f.path :=
    drop_own .stream
  unfold threadDir
  rw [hdrop]
  constructor
  · intro hnone hslash
    obtain ⟨hash, staged, hpath, hno⟩ := eq_append_cons_of_mem hslash
    rw [splitThread_some.2 ⟨hpath, hno⟩] at hnone
    cases hnone
  · intro hno
    cases hs : splitThread f.path with
    | none => rfl
    | some parts =>
      obtain ⟨hpath, _⟩ := splitThread_some.1 hs
      exact absurd (by rw [hpath]; simp) hno

theorem hash_normal (p : Config) (t : ThreadID) : Path.Normal (p.hashThreadID t) := by
  have hdot : '.' ∉ p.hashThreadID t := by
    intro hmem
    have hhex := p.hash_hex t '.' hmem
    revert hhex
    decide
  refine ⟨p.hash_ne_nil t, fun heq => hdot ?_, fun heq => hdot ?_, no_slash_hash p t⟩
  · rw [heq]
    simp
  · rw [heq]
    simp

theorem shared_dst_ne (t : ThreadID) :
    finalKey p ((stagingObjectKey p (.backfill t) f).drop (stagingRootPrefix p).length) ≠
      finalKey p f.path := by
  rw [drop_root_backfill]
  exact join_cons_ne p.tablePath_normal (hash_normal p t) f.base_normal

/-- Promotion of a thread brings the file of a stream writer to another key. -/
theorem thread_dst_ne (hdir : dir = backfillStagingPrefix p t)
    (hk : threadDir (stagingRootPrefix p) (stagingObjectKey p .stream f) = some dir) :
    finalKey p ((stagingObjectKey p .stream f).drop dir.length) ≠ finalKey p f.path := by
  obtain ⟨_, _, _, rel, hrel⟩ := (threadDir_some (root_stagingKey p .stream f)).1 hk
  have hpath : f.path = p.hashThreadID t ++ '/' :: rel := by
    have hkey := hrel
    rw [hdir, stagingObjectKey_eq] at hkey
    simp only [currentStagingPrefix, backfillStagingPrefix, append_assoc,
      append_cancel_left_eq] at hkey
    exact hkey.symm
  have hnormal : Path.Normal (base rel) := by
    have h := f.base_normal
    rwa [hpath, base_append] at h
  rw [← hrel, drop_left, hpath]
  exact (join_cons_ne p.tablePath_normal (hash_normal p t) hnormal).symm

end Keys

/-! ### Both directions -/

section Both

variable {p : Config} {b : Bucket} (h : WellStaged p b) {wr : Writer} {f : DataPath}
  {backfill : Bool}

theorem base_staged_ne : Path.base (stagingObjectKey p wr f) ≠ parquet2PCFinishFile := by
  rw [base_stagingKey]
  exact base_data_ne f not_parquet_finish

theorem Finished.marker (hfin : Finished p b t) : (startOf b).at (finishObjectKey p t) ≠ none := by
  obtain ⟨s, hs, _⟩ := hfin
  show b.lookup (finishObjectKey p t) ≠ none
  rw [hs]
  simp

theorem Spares.not_harmed (hs : Spares p backfill b) (hfin : Finished p b wr)
    (hst : Staged p b wr f) :
    ¬ Harmed p wr f ((recoverStaging p backfill).after [] (startOf b)) := by
  rintro ⟨e, he, hkey, hlook, hnot⟩
  exact hnot (hs [] wr f hfin hst e he hkey hlook)

include h

theorem WellStaged.named (hst : Staged p b wr f) : Named p wr f (startOf b) := by
  intro k hk hbase o ho
  rcases h.objects k hk o ho with ⟨wr', f', rfl, hname⟩ | ⟨wr', s, rfl, _⟩
  · exact h.names k _ hk (root_stagingKey p wr f) wr' f' wr f ho hst (hname.symm.trans hbase)
  · rw [base_finishKey] at hbase
    exact absurd hbase.symm (base_data_ne f not_parquet_finish)

theorem WellStaged.waits (hst : Staged p b wr f) :
    Waiting p wr f (startOf b) ∧ Safe p wr f (startOf b) :=
  ⟨⟨h.named hst, hst⟩, fun _ he => absurd he not_mem_nil⟩

/-- A file of the same phase is promoted before it is deleted; one that backfill recovery does
not come to is left alone. -/
theorem own_safe (hfin : Finished p b wr) (hst : Staged p b wr f)
    (hturn : ∀ dir, turnOf p backfill (stagingObjectKey p wr f) = some dir →
      dir = currentStagingPrefix p wr ∧ ¬ InStaging p (finalKey p f.path))
    (faults : List Fault) : Safe p wr f ((recoverStaging p backfill).after faults (startOf b)) := by
  refine Spec.after_inv (recover_resolves h.shape h.readable course_own (.inl (h.waits hst))
    (root_stagingKey p wr f) hst.ne_none base_staged_ne ⟨fun dir hd hnone => ?_, fun dir hd _ w o hw ho _ => ?_⟩)
    ?_ rfl faults
  · rw [(hturn dir hd).1] at hnone
    exact absurd hnone hfin.marker
  · rw [(hturn dir hd).1, drop_own]
    exact own_promoted (hturn dir hd).2 hw ho
  · rintro _ w (hw | ⟨_, hw⟩)
    · exact hw.2
    · exact hw.2

theorem final_safe (hst : Staged p b wr f) (hfinal : AtFinal p b wr f) (faults : List Fault) :
    Safe p wr f ((recoverStaging p backfill).after faults (startOf b)) := by
  refine Spec.after_inv (recover_resolves h.shape h.readable
    (Course.of_kept _ saved_kept.over fun _ hw => hw.2)
    (.inr ⟨⟨h.named hst, hfinal⟩, (h.waits hst).2⟩) (root_stagingKey p wr f) hst.ne_none base_staged_ne
    ⟨fun _ _ _ _ hw => hw.elim, fun _ _ _ _ _ hw => hw.elim⟩) ?_ rfl faults
  rintro _ w (hw | ⟨_, hw⟩)
  · exact hw.2
  · exact hw.elim

/-- A recovery that comes to a file that is not at its final key deletes it, unless it
promotes it there. -/
theorem recovery_harms (hst : Staged p b wr f) (hlone : Lone p wr f (startOf b))
    (hturn : turnOf p backfill (stagingObjectKey p wr f) ≠ none)
    (hdst : ∀ dir, turnOf p backfill (stagingObjectKey p wr f) = some dir →
      (startOf b).at (dir ++ parquet2PCFinishFile) ≠ none →
      ¬ InStaging p (finalKey p f.path) →
      finalKey p ((stagingObjectKey p wr f).drop dir.length) ≠ finalKey p f.path) :
    Harmed p wr f ((recoverStaging p backfill).after [] (startOf b)) := by
  obtain ⟨_, hharm | ⟨hnone, _⟩⟩ := Spec.without_faults (recover_resolves h.shape h.readable course_harm
    (.inl ⟨⟨h.named hst, hst⟩, hlone⟩) (root_stagingKey p wr f) hst.ne_none base_staged_ne
    ⟨fun _ _ _ w hw => harm_deleted hw,
      fun dir hd hm w o hw ho _ => ⟨trivial, harm_promoted (hdst dir hd hm) hw ho⟩⟩) rfl
  · exact hharm
  · exact absurd hnone hturn

theorem WellStaged.lone (hst : Staged p b wr f) (hfinal : ¬ AtFinal p b wr f) :
    Lone p wr f (startOf b) := by
  intro hout
  refine ⟨fun hat => hfinal ⟨hat, hout⟩, fun k hk hat => ?_⟩
  rcases h.once wr f k hst hk hat with heq | heq
  · exact heq
  · exact absurd (heq ▸ hk) hout

theorem separate_of_spares (hs : Spares p backfill b) : Separate p backfill b := by
  intro wr f hfin hst
  by_cases hphase : wr.isBackfill = backfill
  · rw [if_pos hphase]
    intro hin
    refine hs.not_harmed hfin hst (recovery_harms h hst (fun hout => absurd hin hout) ?_
      fun _ _ _ hout => absurd hin hout)
    rw [← hphase, turnOf_own]
    simp
  · rw [if_neg hphase]
    intro hslash
    by_contra hfinal
    have hother : turnOf p backfill (stagingObjectKey p wr f) ≠ none ∧
        ∀ dir, turnOf p backfill (stagingObjectKey p wr f) = some dir →
          (startOf b).at (dir ++ parquet2PCFinishFile) ≠ none →
          finalKey p ((stagingObjectKey p wr f).drop dir.length) ≠ finalKey p f.path := by
      cases wr with
      | stream =>
        obtain rfl : backfill = true := (Bool.not_eq_false backfill).mp (fun hb => hphase hb.symm)
        refine ⟨fun hnone => threadDir_stream.1 hnone (hslash rfl), fun dir hd hm => ?_⟩
        -- the directory has a marker, so it is a thread's
        obtain ⟨hash, hno, hdir, _⟩ := (threadDir_some (root_stagingKey p .stream f)).1 hd
        obtain ⟨o, ho⟩ := ne_none_iff_exists'.1 hm
        rw [hdir] at ho
        obtain ⟨_, t, _, hhash, _⟩ := h.thread hno ho (by decide)
        exact thread_dst_ne (by rw [hdir, hhash]; rfl) hd
      | backfill t =>
        obtain rfl : backfill = false := (Bool.not_eq_true backfill).mp (fun hb => hphase hb.symm)
        refine ⟨some_ne_none _, fun dir hd _ => ?_⟩
        cases hd
        exact shared_dst_ne t
    exact hs.not_harmed hfin hst (recovery_harms h hst (h.lone hst hfinal) hother.1
      fun dir hd hm _ => hother.2 dir hd hm)

theorem spares_of_separate (hs : Separate p backfill b) : Spares p backfill b := by
  intro faults wr f hfin hst
  have hsep := hs wr f hfin hst
  by_cases hphase : wr.isBackfill = backfill
  · rw [if_pos hphase] at hsep
    refine own_safe h hfin hst (fun dir hd => ⟨?_, hsep⟩) faults
    rw [← hphase, turnOf_own] at hd
    exact (some.inj hd).symm
  · rw [if_neg hphase] at hsep
    by_cases hslash : backfill = true → '/' ∈ f.path
    · exact final_safe h hst (hsep hslash) faults
    · -- a file in no directory, under backfill recovery
      obtain ⟨hb, hflat⟩ := Classical.not_imp.1 hslash
      subst hb
      cases wr with
      | backfill t => exact absurd rfl hphase
      | stream =>
        refine own_safe h hfin hst (fun dir hd => ?_) faults
        cases (threadDir_stream.2 hflat).symm.trans hd

end Both

/-- **Which recoveries spare finished work.**  Whatever lies in the staging area after a
crash, recovery deletes no staged file of a finished commit before it is at its final
key, however it ends, exactly when nothing of a finished commit is in its way. -/
theorem recovery_spares_iff (p : Config) (backfill : Bool) (b : Bucket) (h : WellStaged p b) :
    Spares p backfill b ↔ Separate p backfill b :=
  ⟨separate_of_spares h, spares_of_separate h⟩

/-! ### A finished CDC commit in a partition directory -/

/-- The file of a CDC commit and its `finish.json`. -/
def crashedCommit : Bucket :=
  ((∅ : Bucket).insert (stagingObjectKey oneTable .stream partitionFile) (.data .stream partitionFile)).insert
    (finishObjectKey oneTable .stream) (.finish (.stream (some { state := some (.other "pos") })))

theorem crashedCommit_lookup (h : crashedCommit.lookup k = some o) :
    (k = finishObjectKey oneTable .stream ∧
        o = .finish (.stream (some { state := some (.other "pos") }))) ∨
      (k = stagingObjectKey oneTable .stream partitionFile ∧ o = .data .stream partitionFile) := by
  unfold crashedCommit at h
  by_cases hm : k = finishObjectKey oneTable .stream
  · rw [hm] at h
    exact .inl ⟨hm, (some.inj h).symm⟩
  · rw [AList.lookup_insert_ne hm] at h
    by_cases hf : k = stagingObjectKey oneTable .stream partitionFile
    · rw [hf] at h
      exact .inr ⟨hf, (some.inj h).symm⟩
    · rw [AList.lookup_insert_ne hf] at h
      cases h

theorem crashedCommit_data (h : crashedCommit.lookup k = some (.data wr f)) :
    k = stagingObjectKey oneTable .stream partitionFile ∧ wr = .stream ∧ f = partitionFile := by
  rcases crashedCommit_lookup h with ⟨_, ho⟩ | ⟨hk, ho⟩
  · cases ho
  · injection ho with hwr hf
    exact ⟨hk, hwr, hf⟩

theorem crashedCommit_wellStaged : WellStaged oneTable crashedCommit := by
  refine ⟨?_, ?_, ?_, ?_⟩
  · intro k _ o ho
    rcases crashedCommit_lookup ho with ⟨hk, ho'⟩ | ⟨hk, ho'⟩
    · exact .inr ⟨.stream, _, hk, ho', Marks.stream _⟩
    · refine .inl ⟨.stream, partitionFile, ho', ?_⟩
      rw [hk, base_stagingKey]
  · intro k k' _ _ wr f wr' f' ho ho' _
    obtain ⟨_, rfl, rfl⟩ := crashedCommit_data ho
    obtain ⟨_, rfl, rfl⟩ := crashedCommit_data ho'
    rfl
  · intro wr f k hst _ ho
    obtain ⟨hk, rfl, rfl⟩ := crashedCommit_data ho
    exact .inl hk
  · intro o ho
    rcases crashedCommit_lookup ho with ⟨hk, _⟩ | ⟨hk, _⟩
    · exact absurd hk (by decide)
    · exact absurd hk (by decide)

theorem crashedCommit_finished : Finished oneTable crashedCommit .stream :=
  ⟨_, AList.lookup_insert _, Marks.stream _⟩

theorem crashedCommit_staged : Staged oneTable crashedCommit .stream partitionFile := by
  unfold Staged crashedCommit
  rw [AList.lookup_insert_ne (by decide), AList.lookup_insert]

/-- The next CDC writer rolls it forward. -/
theorem recovery_spares_own : Spares oneTable false crashedCommit := by
  refine (recovery_spares_iff oneTable false crashedCommit crashedCommit_wellStaged).2 ?_
  intro wr f hfin hst
  obtain ⟨_, rfl, rfl⟩ := crashedCommit_data hst
  show ¬ stagingRootPrefix oneTable <+: finalKey oneTable partitionFile.path
  decide

/-- A backfill writer takes the partition directory for an unfinished thread and deletes
the file. -/
theorem recovery_deletes_other_phase : ¬ Spares oneTable true crashedCommit := by
  intro hs
  have hsep := separate_of_spares crashedCommit_wellStaged hs .stream partitionFile
    crashedCommit_finished crashedCommit_staged
  have hfinal := (hsep (by decide)).1
  obtain ⟨hk, _⟩ := crashedCommit_data hfinal
  revert hk
  decide

end Olake.Parquet
