/-
The keys of the parquet two-phase commit and what single S3 calls do to them.

Staged files, finish markers, the metadata document and final keys never coincide:
a data file is told from the documents by its name, and the staging area by its
directory.  Each call changes at most one key.
-/
import Olake.Model.Parquet

namespace Olake.Parquet

open Faulty Faulty.Prog List Path Spec

/-! ### One key at a time -/

def World.put (w : World) (k : Key) (o : Object) : World := { w with bucket := w.bucket.insert k o }

def World.del (w : World) (k : Key) : World :=
  { w with bucket := w.bucket.erase k, deletions := (w.bucket, k) :: w.deletions }

variable (w : World)

@[simp] theorem at_put_self (k : Key) (o : Object) : (w.put k o).at k = some o :=
  AList.lookup_insert _

@[simp] theorem at_put_ne (o : Object) (h : k' ≠ k) : (w.put k o).at k' = w.at k' :=
  AList.lookup_insert_ne h

@[simp] theorem at_del_self (k : Key) : (w.del k).at k = none :=
  AList.lookup_erase k _

@[simp] theorem at_del_ne (h : k' ≠ k) : (w.del k).at k' = w.at k' :=
  AList.lookup_erase_ne h

theorem at_of_del {w : World} (h : (w.del k).at k' ≠ none) : w.at k' ≠ none := by
  by_cases heq : k' = k
  · rw [heq] at h
    exact absurd (at_del_self w k) h
  · rw [at_del_ne w heq] at h
    exact h

@[simp] theorem finished_put (k : Key) (o : Object) : (w.put k o).finished = w.finished :=
  rfl

theorem mem_keysUnder : k ∈ keysUnder b dir ↔ b.lookup k ≠ none ∧ dir <+: k := by
  unfold keysUnder
  rw [(perm_insertionSort _ _).mem_iff, mem_filter, isPrefixOf_iff_prefix,
    ← Option.isSome_iff_ne_none, AList.lookup_isSome, AList.mem_keys]

theorem keysUnder_nodup (b : Bucket) (dir : Key) : (keysUnder b dir).Nodup :=
  (perm_insertionSort _ _).nodup_iff.2 (b.keys_nodup.filter _)

theorem keysUnder_sorted (b : Bucket) (dir : Key) : (keysUnder b dir).Pairwise (· ≤ ·) :=
  pairwise_insertionSort _ _

/-! ### The calls -/

section Calls

variable {I P : World → Prop}

theorem listS3Keys_spec (dir : Key) (hI : ∀ w, P w → I w) :
    Spec I P (listS3Keys dir) (fun keys w => P w ∧ keys = keysUnder w.bucket dir) :=
  call hI (fun w hw => ⟨hI w hw, hw, rfl⟩)

theorem getObject_spec (key : Key) (hI : ∀ w, P w → I w) :
    Spec I P (getObject key) (fun o w => P w ∧ o = w.at key) :=
  call hI (fun w hw => ⟨hI w hw, hw, rfl⟩)

variable {Q : World → Prop}

theorem writeS3Object_spec (key : Key) (o : Object) (hI : ∀ w, P w → I w)
    (hput : ∀ w, P w → I (w.put key o) ∧ Q (w.put key o)) :
    Spec I P (writeS3Object key o) (fun _ => Q) :=
  call hI hput

theorem deleteS3Object_spec (key : Key) (hI : ∀ w, P w → I w)
    (hdel : ∀ w, P w → I (w.del key) ∧ Q (w.del key)) :
    Spec I P (deleteS3Object key) (fun _ => Q) :=
  call hI hdel

theorem copyS3Object_spec (src dst : Key) (hI : ∀ w, P w → I w)
    (hput : ∀ w, P w → ∃ o, w.at src = some o ∧ I (w.put dst o) ∧ Q (w.put dst o)) :
    Spec I P (copyS3Object src dst) (fun _ => Q) := by
  refine Spec.andThen (Q := fun found w => found = true ∧ Q w) (Spec.call hI fun w hw => ?_) fun found => ?_
  · obtain ⟨o, ho, hinv, hq⟩ := hput w hw
    rw [ho]
    exact ⟨hinv, rfl, hq⟩
  · cases found with
    | true => exact ret (fun w hw => hw.2)
    | false => exact of_false (fun w hw => absurd hw.1 (by simp))

end Calls

/-! ### Names -/

variable (p : Config) (wr : Writer) (f : DataPath)

theorem DataPath.base_normal : Path.Normal (Path.base f.path) := by
  have hne : ∀ s : Key, s.length < 8 → Path.base f.path ≠ s := by
    intro s hs heq
    have hle := f.named.length_le
    rw [heq] at hle
    exact absurd hs (not_lt.2 hle)
  exact ⟨hne _ (by decide), hne _ (by decide), hne _ (by decide),
    no_slash_of_mem_segments (getLast_mem _)⟩

theorem DataPath.dropWhile_slash : f.path.dropWhile (· == '/') = f.path := by
  have h := f.relative
  cases hp : f.path with
  | nil => rfl
  | cons c cs =>
    rw [hp] at h
    have hc : c ≠ '/' := fun heq => h (by rw [heq]; rfl)
    simp [hc]

theorem not_parquet_finish : ¬ ".parquet".toList <:+ parquet2PCFinishFile := by decide

theorem not_parquet_metadata : ¬ ".parquet".toList <:+ parquet2PCMetadataFile := by decide

theorem stagingObjectKey_eq : stagingObjectKey p wr f = currentStagingPrefix p wr ++ f.path := by
  unfold stagingObjectKey
  rw [f.dropWhile_slash]

theorem currentStagingPrefix_slash : ∃ d, currentStagingPrefix p wr = d ++ ['/'] := by
  cases wr with
  | backfill t => exact ⟨stagingRootPrefix p ++ p.hashThreadID t, rfl⟩
  | stream => exact ⟨p.tablePath ++ '/' :: parquet2PCDir, rfl⟩

theorem base_under (wr : Writer) : Path.base (currentStagingPrefix p wr ++ d) = Path.base d := by
  obtain ⟨dir, hdir⟩ := currentStagingPrefix_slash p wr
  rw [hdir, append_assoc, singleton_append, base_append]

theorem base_finishKey : Path.base (finishObjectKey p wr) = parquet2PCFinishFile := by
  unfold finishObjectKey
  rw [base_under]
  decide

theorem base_stagingKey : Path.base (stagingObjectKey p wr f) = Path.base f.path := by
  rw [stagingObjectKey_eq, base_under]

theorem base_metadataKey : Path.base (metadataObjectKey p) = parquet2PCMetadataFile := by
  unfold metadataObjectKey
  rw [base_append]
  decide

theorem base_finalKey : Path.base (finalKey p f.path) = Path.base f.path := base_join f.base_normal

theorem base_data_ne (f : DataPath) (hname : ¬ ".parquet".toList <:+ name) :
    Path.base f.path ≠ name := by
  intro heq
  exact hname (heq ▸ f.named)

theorem stagingKey_ne_finishKey (wr wr' : Writer) (f : DataPath) :
    stagingObjectKey p wr f ≠ finishObjectKey p wr' := by
  intro h
  have hbase := congrArg base h
  rw [base_stagingKey, base_finishKey] at hbase
  exact base_data_ne f not_parquet_finish hbase

theorem finalKey_ne_metadataKey : finalKey p f.path ≠ metadataObjectKey p := by
  intro h
  have hbase := congrArg base h
  rw [base_finalKey, base_metadataKey] at hbase
  exact base_data_ne f not_parquet_metadata hbase

theorem stagingKey_injective {wr : Writer} {f g : DataPath}
    (h : stagingObjectKey p wr f = stagingObjectKey p wr g) : f = g := by
  rw [stagingObjectKey_eq, stagingObjectKey_eq] at h
  have hpath := append_cancel_left h
  cases f
  cases g
  cases hpath
  rfl

/-! ### The staging area -/

abbrev InStaging (k : Key) : Prop := stagingRootPrefix p <+: k

abbrev stagingDir (hash : Key) : Key := stagingRootPrefix p ++ hash ++ ['/']

theorem inStaging_dir (hash : Key) : InStaging p (stagingDir p hash) :=
  (prefix_append _ hash).trans (prefix_append _ _)

theorem root_under (d : Key) : InStaging p (currentStagingPrefix p wr ++ d) := by
  cases wr with
  | stream => exact prefix_append _ d
  | backfill t =>
    simp only [currentStagingPrefix, backfillStagingPrefix, append_assoc]
    exact prefix_append _ _

theorem root_stagingKey : InStaging p (stagingObjectKey p wr f) := by
  rw [stagingObjectKey_eq]
  exact root_under p wr f.path

theorem root_finishKey : InStaging p (finishObjectKey p wr) := root_under p wr _

theorem not_root_metadataKey : ¬ InStaging p (metadataObjectKey p) := by
  intro h
  unfold InStaging stagingRootPrefix metadataObjectKey at h
  rw [append_assoc, prefix_append_right_inj] at h
  revert h
  decide

theorem metadataKey_ne_of_root (h : InStaging p k) : metadataObjectKey p ≠ k := by
  rintro rfl
  exact not_root_metadataKey p h

/-! ### One specification for each step of a commit -/

section Steps

variable {p} {I P : World → Prop}

/-- What is in a directory apart from its marker. -/
def Files (dir k : Key) : Prop := dir <+: k ∧ k ≠ dir ++ parquet2PCFinishFile

/-- Promotion: each listed file is copied and then deleted.  Of the file at `k₀`, `W` holds
until its turn and `D` from then on. -/
theorem promoteS3Staging_spec {W D : World → Prop} (k₀ : Key)
    (hW : ∀ w, W w → I w ∧ w.at k₀ ≠ none ∧ Files dir k₀ ∧ k₀ ≠ dir) (hD : ∀ w, D w → I w)
    (hother : ∀ w k o, W w → Files dir k → k ≠ k₀ → w.at k = some o →
      I (w.put (finalKey p (k.drop dir.length)) o) ∧
        W ((w.put (finalKey p (k.drop dir.length)) o).del k))
    (hself : ∀ w o, W w → w.at k₀ = some o → I (w.put (finalKey p (k₀.drop dir.length)) o) ∧
      D ((w.put (finalKey p (k₀.drop dir.length)) o).del k₀))
    (hdone : ∀ w k o, D w → Files dir k → w.at k = some o →
      I (w.put (finalKey p (k.drop dir.length)) o) ∧
        D ((w.put (finalKey p (k.drop dir.length)) o).del k)) :
    Spec I (fun w => W w ∨ D w) (promoteS3Staging p dir) (fun _ => D) := by
  refine (listS3Keys_spec dir fun w hw => hw.elim (fun h => (hW w h).1) (hD w)).andThen
    (fun keys => of_start (fun w₀ hw₀ => ?_))
  obtain ⟨hw₀, rfl⟩ := hw₀
  have hnodup := keysUnder_nodup w₀.bucket dir
  have hunder : ∀ k ∈ keysUnder w₀.bucket dir, dir <+: k := fun k hk => (mem_keysUnder.1 hk).2
  have hlisted : W w₀ → k₀ ∈ keysUnder w₀.bucket dir := fun hw =>
    mem_keysUnder.2 ⟨(hW w₀ hw).2.1, (hW w₀ hw).2.2.1.1⟩
  have hthere : ∀ k ∈ keysUnder w₀.bucket dir, w₀.at k ≠ none := fun k hk => (mem_keysUnder.1 hk).1
  generalize keysUnder w₀.bucket dir = keys at hnodup hunder hlisted hthere
  -- the keys ahead are there, since only keys behind have been deleted
  refine mono (forEach (J := fun before w => (k₀ ∈ keys ∧ k₀ ∉ before ∧ W w ∨ D w) ∧
      ∀ k ∈ keys, k ∉ before → w.at k ≠ none) keys (fun before k rest hsplit => ?_))
    (fun _ h => h) ?_ ?_
  · have hk : k ∈ keys := by simp [hsplit]
    have hbefore : k ∉ before := fun hmem => by
      rw [hsplit] at hnodup
      exact (disjoint_of_nodup_append hnodup) hmem mem_cons_self
    obtain ⟨rel, rfl⟩ := hunder k hk
    dsimp only
    rw [drop_left]
    split
    · next hskip =>
      refine ret (fun w hw => ⟨hw.1.imp_left ?_, fun k' hk' hnot => hw.2 k' hk' ?_⟩)
      · rintro ⟨hmem, hnot, hwait⟩
        obtain ⟨-, -, hfiles, hne⟩ := hW w hwait
        refine ⟨hmem, fun hin => ?_, hwait⟩
        rcases mem_append.1 hin with hin | hin
        · exact hnot hin
        · cases mem_singleton.1 hin
          rcases hskip with rfl | rfl
          · exact hne (append_nil dir)
          · exact hfiles.2 rfl
      · exact fun hmem => hnot (mem_append_left _ hmem)
    · next hskip =>
      have hfiles : Files dir (dir ++ rel) :=
        ⟨prefix_append _ _, fun heq => hskip (.inr (append_cancel_left heq))⟩
      have hstep : ∀ w o, k₀ ∈ keys ∧ k₀ ∉ before ∧ W w ∨ D w → w.at (dir ++ rel) = some o →
          I (w.put (finalKey p rel) o) ∧ (k₀ ∈ keys ∧ k₀ ∉ before ++ [dir ++ rel] ∧
            W ((w.put (finalKey p rel) o).del (dir ++ rel)) ∨
            D ((w.put (finalKey p rel) o).del (dir ++ rel))) := by
        rintro w o (⟨hmem, hnot, hwait⟩ | hover) ho
        · by_cases heq : dir ++ rel = k₀
          · have hstep := hself w o hwait (heq ▸ ho)
            rw [← heq, drop_left] at hstep
            exact hstep.imp_right .inr
          · have hstep := hother w _ o hwait hfiles heq ho
            rw [drop_left] at hstep
            refine hstep.imp_right fun hw => .inl ⟨hmem, ?_, hw⟩
            simp [hnot, Ne.symm heq]
        · have hstep := hdone w _ o hover hfiles ho
          rw [drop_left] at hstep
          exact hstep.imp_right .inr
      -- between the copy and the deletion the world is the old one with the copy
      refine (copyS3Object_spec (Q := fun w => I w ∧ _) _ _ (fun w hw => ?_) (fun w hw => ?_)).andThen
        (fun _ => deleteS3Object_spec _ (fun w hw => hw.1) (fun w hw => hw.2))
      · exact hw.1.elim (fun h => (hW w h.2.2).1) (hD w)
      · obtain ⟨o, ho⟩ := Option.ne_none_iff_exists'.1 (hw.2 _ hk hbefore)
        obtain ⟨hcopied, hnext⟩ := hstep w o hw.1 ho
        refine ⟨o, ho, hcopied, hcopied, hnext.elim (fun h => (hW _ h.2.2).1) (hD _), hnext,
          fun k' hk' hnot => ?_⟩
        rw [mem_append, mem_singleton, not_or] at hnot
        rw [at_del_ne _ hnot.2]
        by_cases heq : k' = finalKey p rel
        · simp [heq]
        · rw [at_put_ne w o heq]
          exact hw.2 k' hk' hnot.1
  · rintro w rfl
    exact ⟨hw₀.imp_left fun hw => ⟨hlisted hw, not_mem_nil, hw⟩, fun k hk _ => hthere k hk⟩
  · rintro _ w ⟨⟨hmem, hnot, -⟩ | hover, -⟩
    · exact absurd hmem hnot
    · exact hover

/-- Cleanup: the listed data keys go side by side, and the marker after them. -/
theorem deleteStagingPrefix_spec (dir : Key) (hJ : ∀ w, J w → I w)
    (hdata : ∀ w k, J w → dir <+: k → k ≠ dir ++ parquet2PCFinishFile → J (w.del k))
    (hnone : ∀ w, J w → (∀ k, dir <+: k → w.at k = none) → Q w)
    (hmarker : ∀ w, J w →
      (∀ k, dir <+: k → k ≠ dir ++ parquet2PCFinishFile → w.at k = none) →
      I (w.del (dir ++ parquet2PCFinishFile)) ∧ Q (w.del (dir ++ parquet2PCFinishFile))) :
    Spec I J (deleteStagingPrefix dir) (fun _ => Q) := by
  refine (listS3Keys_spec dir hJ).andThen (fun keys => of_start (fun w₀ hw₀ => ?_))
  obtain ⟨hw₀, rfl⟩ := hw₀
  have hunder : ∀ k ∈ keysUnder w₀.bucket dir, dir <+: k := fun k hk => (mem_keysUnder.1 hk).2
  have hlisted : ∀ k, dir <+: k → w₀.at k ≠ none → k ∈ keysUnder w₀.bucket dir := fun k hk hat =>
    mem_keysUnder.2 ⟨hat, hk⟩
  generalize keysUnder w₀.bucket dir = keys at hunder hlisted
  split
  · next hempty =>
    refine ret (fun w hw => hw ▸ hnone w₀ hw₀ fun k hk => ?_)
    by_contra hat
    exact ne_nil_of_mem (hlisted k hk hat) hempty
  · -- deletions only: what is under `dir` is among the listed keys
    let K : List Key → World → Prop := fun before w =>
      J w ∧ ∀ k, dir <+: k → w.at k ≠ none → k ∈ keys ∧ k ∉ before
    refine ((concurrent (J := K) (keys.filter (· ≠ dir ++ parquet2PCFinishFile))
      (fun before rest w hw => ⟨hw.1, fun k hk hat => ?_⟩) (fun before k hk => ?_)).mono
      (fun w hw => hJ w hw.1) (fun w hw => ?_) (fun _ w hw => hw)).andThen (fun _ => ?_)
    · exact (hw.2 k hk hat).imp_right fun hnot hmem => hnot (mem_append_left rest hmem)
    · obtain ⟨hkmem, hkne⟩ := mem_filter.1 hk
      refine deleteS3Object_spec k (fun w hw => hw) (fun w hw => ?_)
      have hdel := hdata w k hw.1 (hunder k hkmem) (by simpa using hkne)
      refine ⟨⟨hdel, fun k' hk' hat => hw.2 k' hk' (at_of_del hat)⟩, hdel, fun k' hk' hat => ?_⟩
      refine (hw.2 k' hk' (at_of_del hat)).imp_right fun hnot hmem => ?_
      rcases mem_append.1 hmem with hmem | hmem
      · exact hnot hmem
      · rw [mem_singleton.1 hmem] at hat
        exact hat (at_del_self w k)
    · rw [hw]
      exact ⟨hw₀, fun k hk hat => ⟨hlisted k hk hat, not_mem_nil⟩⟩
    have hgone : ∀ w, K (keys.filter (· ≠ dir ++ parquet2PCFinishFile)) w →
        ∀ k, dir <+: k → k ≠ dir ++ parquet2PCFinishFile → w.at k = none := by
      intro w hw k hk hne
      by_contra hat
      obtain ⟨hmem, hnot⟩ := hw.2 k hk hat
      exact hnot (mem_filter.2 ⟨hmem, by simpa using hne⟩)
    split
    · exact deleteS3Object_spec _ (fun w hw => hJ w hw.1) (fun w hw => hmarker w hw.1 (hgone w hw))
    · next hfin =>
      refine ret (fun w hw => hnone w hw.1 (fun k hk => ?_))
      by_cases hne : k = dir ++ parquet2PCFinishFile
      · by_contra hat
        exact hfin (hne ▸ (hw.2 k hk hat).1)
      · exact hgone w hw k hk hne

end Steps

end Olake.Parquet
