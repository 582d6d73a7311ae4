/-
How backfill recovery groups the staged keys by thread directory.

`listBackfillStagingEntries` compares each key only with the last entry.  That is
enough because the keys are sorted: the keys below one directory stand next to each
other, so every directory gets one entry, and the entry sees the marker of its
directory wherever it stands among the keys.
-/
import Olake.Proofs.Parquet.Keys
import Mathlib.Data.List.TakeWhile

namespace Olake.Parquet

open List Option

/-! ### The directory of a key -/

variable {hash : Key}

theorem splitThread_some :
    splitThread rel = some (hash, staged) ↔ rel = hash ++ '/' :: staged ∧ '/' ∉ hash := by
  unfold splitThread
  constructor
  · intro h
    have hsplit := takeWhile_append_dropWhile (p := (· != '/')) (l := rel)
    cases hdrop : rel.dropWhile (· != '/') with
    | nil =>
      rw [hdrop] at h
      cases h
    | cons c rest =>
      have hc : c = '/' := by
        have hhead := head?_dropWhile_not (· != '/') rel
        rw [hdrop] at hhead
        simpa using hhead
      subst hc
      rw [hdrop] at h hsplit
      obtain ⟨rfl, rfl⟩ := h
      refine ⟨hsplit.symm, fun hmem => ?_⟩
      have hne := mem_takeWhile_imp hmem
      simp at hne
  · rintro ⟨rfl, hno⟩
    have hall : ∀ c ∈ hash, (c != '/') = true := by
      intro c hc
      simp only [bne_iff_ne]
      rintro rfl
      exact hno hc
    rw [dropWhile_append_of_pos hall, takeWhile_append_of_pos hall]
    simp

/-- The thread directory a key lies in, if it lies in one. -/
def threadDir (root key : Key) : Option Key :=
  (splitThread (key.drop root.length)).map (fun s => root ++ s.1 ++ ['/'])

variable {root : Key}

theorem threadDir_some (hroot : root <+: key) :
    threadDir root key = some d ↔ ∃ hash, '/' ∉ hash ∧ d = root ++ hash ++ ['/'] ∧ d <+: key := by
  obtain ⟨rel, rfl⟩ := hroot
  unfold threadDir
  rw [drop_left]
  constructor
  · intro h
    obtain ⟨⟨hash, staged⟩, hs, rfl⟩ := map_eq_some_iff.1 h
    obtain ⟨rfl, hno⟩ := splitThread_some.1 hs
    exact ⟨hash, hno, rfl, ⟨staged, by simp⟩⟩
  · rintro ⟨hash, hno, rfl, staged, hstaged⟩
    have hrel : rel = hash ++ '/' :: staged := by
      simp only [append_assoc, append_cancel_left_eq] at hstaged
      rw [← hstaged]
      rfl
    rw [splitThread_some.2 ⟨hrel, hno⟩]
    rfl

theorem threadDir_of_under (hno : '/' ∉ hash) (h : root ++ hash ++ ['/'] <+: key) :
    threadDir root key = some (root ++ hash ++ ['/']) := by
  have hroot : root <+: key := by
    obtain ⟨t, rfl⟩ := h
    exact ⟨hash ++ ['/'] ++ t, by simp⟩
  exact (threadDir_some hroot).2 ⟨hash, hno, rfl, h⟩

/-! ### One entry for each directory -/

/-- What the entries say of the keys seen so far; the last entry is at the head. -/
structure Grouped (root : Key) (seen : List Key) (entries : List StagingEntry) : Prop where
  nodup : (entries.map StagingEntry.dir).Nodup
  dirs : ∀ d, d ∈ entries.map StagingEntry.dir ↔ ∃ k ∈ seen, threadDir root k = some d
  finished : ∀ e ∈ entries, e.finished = true ↔ e.dir ++ parquet2PCFinishFile ∈ seen
  last : ∀ e ∈ entries.head?, ∃ k ∈ seen, threadDir root k = some e.dir ∧
    ∀ k' ∈ seen, threadDir root k' ≠ none → k' ≤ k

theorem Grouped.nil (root : Key) : Grouped root [] [] where
  nodup := nodup_nil
  dirs := by simp
  finished := by simp
  last := by simp

section Add

variable {root : Key} {seen : List Key} {entries : List StagingEntry} {k d : Key}

theorem Grouped.dir_form (h : Grouped root seen entries) (hseen : ∀ k' ∈ seen, root <+: k')
    (he : e ∈ entries) : ∃ hash, '/' ∉ hash ∧ e.dir = root ++ hash ++ ['/'] := by
  obtain ⟨k', hk', hd⟩ := (h.dirs e.dir).1 (mem_map_of_mem he)
  obtain ⟨hash, hno, heq, _⟩ := (threadDir_some (hseen k' hk')).1 hd
  exact ⟨hash, hno, heq⟩

/-- A key of another directory leaves the flag of an entry right. -/
theorem Grouped.finished_append (h : Grouped root seen entries) (hseen : ∀ k' ∈ seen, root <+: k')
    (he : e ∈ entries) (hk : threadDir root k ≠ some e.dir) :
    e.finished = true ↔ e.dir ++ parquet2PCFinishFile ∈ seen ++ [k] := by
  rw [h.finished e he, mem_append, mem_singleton]
  refine (or_iff_left fun heq => hk ?_).symm
  obtain ⟨hash, hno, hd⟩ := h.dir_form hseen he
  rw [← heq, hd]
  exact threadDir_of_under hno (prefix_append _ _)

/-- A key directly below the root belongs to no thread. -/
theorem Grouped.skip (h : Grouped root seen entries) (hseen : ∀ k' ∈ seen, root <+: k')
    (hnone : threadDir root k = none) : Grouped root (seen ++ [k]) entries where
  nodup := h.nodup
  dirs := by simp [or_and_right, exists_or, hnone, ← h.dirs]
  finished := fun e he => h.finished_append hseen he (by simp [hnone])
  last := fun e he => by
    obtain ⟨k', hk', hd, hmax⟩ := h.last e he
    refine ⟨k', mem_append_left _ hk', hd, fun k'' hk'' hne => hmax k'' ?_ hne⟩
    exact (mem_append.1 hk'').resolve_right fun heq => hne (mem_singleton.1 heq ▸ hnone)

theorem last_of_le (hle : ∀ k' ∈ seen, k' ≤ k) :
    ∀ k' ∈ seen ++ [k], threadDir root k' ≠ none → k' ≤ k := by
  intro k' hk' _
  rcases mem_append.1 hk' with hk' | hk'
  · exact hle k' hk'
  · rw [mem_singleton.1 hk']

/-- The first key of a directory opens an entry. -/
theorem Grouped.open (h : Grouped root seen entries) (hseen : ∀ k' ∈ seen, root <+: k')
    (hle : ∀ k' ∈ seen, k' ≤ k) (hk : threadDir root k = some d)
    (hfinish : threadDir root (d ++ parquet2PCFinishFile) = some d)
    (hnew : d ∉ entries.map StagingEntry.dir) (hb : b = true ↔ d ++ parquet2PCFinishFile = k) :
    Grouped root (seen ++ [k]) (⟨d, b⟩ :: entries) where
  nodup := nodup_cons.2 ⟨hnew, h.nodup⟩
  dirs := fun d' => by
    simp only [map_cons, mem_cons, h.dirs, mem_append, not_mem_nil, or_false, or_and_right, exists_or,
      exists_eq_left, hk, some.injEq]
    exact or_comm.trans (or_congr_right eq_comm)
  finished := by
    intro e he
    rcases mem_cons.1 he with rfl | he
    · -- a marker seen before would have opened the entry before
      rw [hb, mem_append, mem_singleton]
      exact (or_iff_right fun hin => hnew ((h.dirs d).2 ⟨_, hin, hfinish⟩)).symm
    · refine h.finished_append hseen he fun heq => hnew ?_
      rw [some.inj (hk.symm.trans heq)]
      exact mem_map_of_mem he
  last := by
    rintro e ⟨⟩
    exact ⟨k, by simp, hk, last_of_le hle⟩

/-- A further key of the last entry's directory. -/
theorem Grouped.extend (h : Grouped root seen (e₀ :: entries))
    (hseen : ∀ k' ∈ seen, root <+: k') (hle : ∀ k' ∈ seen, k' ≤ k)
    (hk : threadDir root k = some e₀.dir) (hb : b = true ↔ e₀.dir ++ parquet2PCFinishFile = k) :
    Grouped root (seen ++ [k]) (⟨e₀.dir, e₀.finished || b⟩ :: entries) where
  nodup := h.nodup
  dirs := fun d => by
    have hdirs := h.dirs d
    simp only [mem_append, mem_singleton, or_and_right, exists_or, exists_eq_left, hk, ← hdirs]
    exact (or_iff_left_of_imp fun heq => some.inj heq ▸ mem_cons_self).symm
  finished := by
    intro e he
    rcases mem_cons.1 he with rfl | he
    · rw [Bool.or_eq_true, h.finished e₀ mem_cons_self, hb, mem_append, mem_singleton]
    · refine h.finished_append hseen (mem_cons_of_mem _ he) fun heq => (nodup_cons.1 h.nodup).1 ?_
      rw [some.inj (hk.symm.trans heq)]
      exact mem_map_of_mem he
  last := by
    rintro e ⟨⟩
    exact ⟨k, by simp, hk, last_of_le hle⟩

/-- In sorted keys a directory that is not the last entry's is a new one. -/
theorem Grouped.fresh (h : Grouped root seen (e₀ :: entries))
    (hseen : ∀ k' ∈ seen, root <+: k') (hle : ∀ k' ∈ seen, k' ≤ k) (hno : '/' ∉ hash)
    (hk : root ++ hash ++ ['/'] <+: k) (hne : e₀.dir ≠ root ++ hash ++ ['/']) :
    root ++ hash ++ ['/'] ∉ (e₀ :: entries).map StagingEntry.dir := by
  intro hin
  obtain ⟨k₁, hk₁, hd₁⟩ := (h.dirs _).1 hin
  obtain ⟨k₂, hk₂, hd₂, hmax⟩ := h.last e₀ rfl
  obtain ⟨_, _, _, hunder⟩ := (threadDir_some (hseen k₁ hk₁)).1 hd₁
  -- the last entry's key lies between two keys of the directory
  have hbetween := Path.begins_between (hmax k₁ hk₁ (by simp [hd₁])) (hle k₂ hk₂) hunder hk
  rw [threadDir_of_under hno hbetween] at hd₂
  exact hne (some.inj hd₂).symm

theorem Grouped.add (h : Grouped root seen entries) (hseen : ∀ k' ∈ seen, root <+: k')
    (hroot : root <+: k) (hle : ∀ k' ∈ seen, k' ≤ k) :
    Grouped root (seen ++ [k]) (addKey root entries k) := by
  obtain ⟨rel, rfl⟩ := hroot
  unfold addKey
  rw [drop_left]
  cases hs : splitThread rel with
  | none => exact h.skip hseen (by simp [threadDir, hs])
  | some hp =>
    obtain ⟨hash, staged⟩ := hp
    obtain ⟨rfl, hno⟩ := splitThread_some.1 hs
    have hunder : root ++ hash ++ ['/'] <+: root ++ (hash ++ '/' :: staged) := ⟨staged, by simp⟩
    have hthread := threadDir_of_under hno hunder
    have hfinish := threadDir_of_under hno (prefix_append (root ++ hash ++ ['/']) parquet2PCFinishFile)
    have hflag : decide (staged = parquet2PCFinishFile) = true ↔
        root ++ hash ++ ['/'] ++ parquet2PCFinishFile = root ++ (hash ++ '/' :: staged) := by
      simp [eq_comm]
    cases entries with
    | nil => exact h.open hseen hle hthread hfinish not_mem_nil hflag
    | cons e₀ rest =>
      by_cases hsame : e₀.dir = root ++ hash ++ ['/']
      · simp only [ne_eq, hsame, not_true_eq_false, if_false]
        rw [← hsame]
        rw [← hsame] at hthread hflag
        exact h.extend hseen hle hthread hflag
      · simp only [ne_eq, hsame, not_false_eq_true, if_true]
        exact h.open hseen hle hthread hfinish (h.fresh hseen hle hno hunder hsame) hflag

end Add

theorem Grouped.foldl (h : Grouped root seen entries) (hroot : ∀ k ∈ seen ++ rest, root <+: k)
    (hsorted : (seen ++ rest).Pairwise (· ≤ ·)) :
    Grouped root (seen ++ rest) (rest.foldl (addKey root) entries) := by
  induction rest generalizing seen entries with
  | nil =>
    rw [append_nil]
    exact h
  | cons k rest ih =>
    have hle : ∀ k' ∈ seen, k' ≤ k := fun k' hk' =>
      (pairwise_append.1 hsorted).2.2 k' hk' k mem_cons_self
    have hadd := h.add (fun k' hk' => hroot k' (mem_append_left _ hk'))
      (hroot k (mem_append_right _ mem_cons_self)) hle
    have hsplit : seen ++ k :: rest = (seen ++ [k]) ++ rest := by simp
    rw [hsplit] at hroot hsorted ⊢
    exact ih hadd hroot hsorted

/-- **One entry for each thread directory**, finished exactly when the directory's
marker is among the keys. -/
theorem stagingEntries_grouped {keys : List Key} (hroot : ∀ k ∈ keys, root <+: k)
    (hsorted : keys.Pairwise (· ≤ ·)) : Grouped root keys (stagingEntries root keys).reverse := by
  unfold stagingEntries
  rw [reverse_reverse]
  exact (Grouped.nil root).foldl hroot hsorted

def World.entries (w : World) (p : Config) : List StagingEntry :=
  stagingEntries (stagingRootPrefix p) (keysUnder w.bucket (stagingRootPrefix p))

/-- What the entries say of the staging area. -/
structure Listed (p : Config) (w : World) (entries : List StagingEntry) : Prop where
  nodup : (entries.map StagingEntry.dir).Nodup
  form : ∀ e ∈ entries, ∃ hash, '/' ∉ hash ∧ e.dir = stagingDir p hash
  dir : ∀ e ∈ entries, ∃ k, InStaging p k ∧ w.at k ≠ none ∧
    threadDir (stagingRootPrefix p) k = some e.dir
  finished : ∀ e ∈ entries, e.finished = true ↔ w.at (e.dir ++ parquet2PCFinishFile) ≠ none
  covers : ∀ k, InStaging p k → w.at k ≠ none → ∀ d,
    threadDir (stagingRootPrefix p) k = some d → ∃ e ∈ entries, e.dir = d

theorem listed_entries (p : Config) (w : World) : Listed p w (w.entries p) := by
  have hgroup := stagingEntries_grouped
    (fun k (hk : k ∈ keysUnder w.bucket (stagingRootPrefix p)) => (mem_keysUnder.1 hk).2)
    (keysUnder_sorted _ _)
  have hform : ∀ e ∈ w.entries p, ∃ hash, '/' ∉ hash ∧ e.dir = stagingDir p hash :=
    fun e he => hgroup.dir_form (fun k hk => (mem_keysUnder.1 hk).2) (mem_reverse.2 he)
  obtain ⟨hnodup, hdirs, hfinished, -⟩ := hgroup
  rw [map_reverse, nodup_reverse] at hnodup
  simp only [map_reverse, mem_reverse, List.mem_map] at hdirs hfinished
  refine ⟨hnodup, hform, fun e he => ?_, fun e he => ?_, fun k hk hat d hd => ?_⟩
  · obtain ⟨k, hk, hd⟩ := (hdirs e.dir).1 ⟨e, he, rfl⟩
    exact ⟨k, (mem_keysUnder.1 hk).2, (mem_keysUnder.1 hk).1, hd⟩
  · obtain ⟨hash, _, hd⟩ := hform e he
    rw [hfinished e he, mem_keysUnder]
    refine and_iff_left ?_
    rw [hd, append_assoc, append_assoc]
    exact prefix_append _ _
  · exact (hdirs d).2 ⟨k, mem_keysUnder.2 ⟨hat, hk⟩, hd⟩

theorem Listed.behind {behind rest : List StagingEntry}
    (h : Listed p w (behind ++ e :: rest)) (he : e' ∈ behind ∨ e' ∈ rest) : e'.dir ≠ e.dir := by
  have hnodup := h.nodup
  rw [map_append, map_cons, nodup_append, nodup_cons] at hnodup
  rcases he with he | he
  · exact hnodup.2.2 _ (mem_map_of_mem he) _ mem_cons_self
  · exact fun heq => hnodup.2.1.1 (heq ▸ mem_map_of_mem he)

theorem no_slash_hash (p : Config) (t : ThreadID) : '/' ∉ p.hashThreadID t := by
  intro h
  have hhex := p.hash_hex t '/' h
  revert hhex
  decide

end Olake.Parquet
