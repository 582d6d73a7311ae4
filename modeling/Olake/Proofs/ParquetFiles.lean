/-
Every record is in one file, and every file is sealed and uploaded once.

`Adds` says what any piece of a run does to the files: some rows are added, and it stays so
that a file's footer is written if and only if the file is no longer open.
-/
import Olake.Model.ParquetFiles

namespace Olake.ParquetFiles

open List

variable {P R : Type} {c : Config P R} {files files' : List (FileMetadata R)} {rows : List R}

def rowsOf (files : List (FileMetadata R)) : List R := files.flatMap FileMetadata.rows

/-- A file that is not uploaded, and sealed once if it is not open. -/
def Kept (f : FileMetadata R) : Prop := f.uploaded = 0 ∧ f.closed = if f.file then 0 else 1

/-- From the first files to the second, rows are added. -/
structure Adds (files files' : List (FileMetadata R)) (rows : List R) : Prop where
  rows : (rowsOf files').Perm (rowsOf files ++ rows)
  kept : (∀ f ∈ files, Kept f) → ∀ f ∈ files', Kept f

namespace Adds

theorem refl : Adds files files [] := ⟨by simp, id⟩

theorem trans (h : Adds files files' rows)
    (h' : Adds files' files'' rows') : Adds files files'' (rows ++ rows') :=
  ⟨h'.rows.trans (by simpa using h.rows.append_right rows'), h'.kept ∘ h.kept⟩

theorem append_left (h : Adds files files' rows) (others : List (FileMetadata R)) :
    Adds (others ++ files) (others ++ files') rows where
  rows := by simpa [rowsOf] using h.rows.append_left (rowsOf others)
  kept hall := by
    rw [forall_mem_append] at hall ⊢
    exact ⟨hall.1, h.kept hall.2⟩

theorem append_right (h : Adds files files' rows) (others : List (FileMetadata R)) :
    Adds (files ++ others) (files' ++ others) rows where
  rows := by
    have hswap := (h.rows.append_right (rowsOf others)).trans
      (by simpa using perm_append_comm.append_left (rowsOf files))
    simpa [rowsOf] using hswap
  kept hall := by
    rw [forall_mem_append] at hall ⊢
    exact ⟨h.kept hall.1, hall.2⟩

end Adds

theorem adds_createNewPartitionFile : Adds files (createNewPartitionFile files) [] :=
  ⟨by simp [createNewPartitionFile, rowsOf], fun h => forall_mem_cons.2 ⟨⟨rfl, rfl⟩, h⟩⟩

theorem adds_getOrCreatePartitionFile
    (h : getOrCreatePartitionFile files = (pf, older)) : pf.file = true ∧ Adds files (pf :: older) [] := by
  unfold getOrCreatePartitionFile at h
  split at h
  · cases h
    exact ⟨rfl, adds_createNewPartitionFile⟩
  · split at h
    · cases h
      exact ⟨‹_›, .refl⟩
    · cases h
      exact ⟨rfl, adds_createNewPartitionFile⟩

/-- The file of the partition takes the record; a roll leaves its rows as they are. -/
theorem adds_writeRecord (index total : Nat) (record : R) :
    Adds files (writeRecord c index total record files) [record] := by
  obtain ⟨pf, older, hget⟩ : ∃ pf older, getOrCreatePartitionFile files = (pf, older) := ⟨_, _, rfl⟩
  obtain ⟨hopen, hadds⟩ := adds_getOrCreatePartitionFile hget
  have hwrite : Adds [pf] [{ pf with rows := pf.rows ++ [record] }] [record] :=
    ⟨by simp [rowsOf], by simp [Kept]⟩
  have hroll : ∀ f : FileMetadata R, f.file = true → Adds [f] [rollPartitionFile c f] [] := by
    intro f hf
    by_cases hsize : c.size f.rows < c.maxFileBytes
    · simpa [rollPartitionFile, hsize] using Adds.refl
    · refine ⟨by simp [rollPartitionFile, hsize, rowsOf, FileMetadata.finalize], ?_⟩
      simp only [forall_mem_singleton, Kept, rollPartitionFile, hsize, FileMetadata.finalize, hf]
      simp +contextual
  simp only [writeRecord, hget]
  split
  · exact hadds.trans ((hwrite.trans (hroll _ hopen)).append_right older)
  · exact hadds.trans (hwrite.append_right older)

variable [DecidableEq P] {p p' : Files P R}

theorem adds_atPath (path : P) (index total : Nat) (record : R) :
    Adds (pendingDataFiles p) (pendingDataFiles (atPath path (writeRecord c index total record) p)) [record] := by
  induction p with
  | nil => simpa [atPath, pendingDataFiles] using adds_writeRecord index total record
  | cons entry rest ih =>
    simp only [pendingDataFiles, atPath] at ih ⊢
    split
    · exact (adds_writeRecord index total record).append_right _
    · exact ih.append_left _

theorem adds_writeFrom (h : writeFrom c index total batch p = some p') :
    Adds (pendingDataFiles p) (pendingDataFiles p') (batch.map Prod.fst) := by
  induction batch generalizing index p with
  | nil =>
    cases h
    exact .refl
  | cons call rest ih =>
    rw [writeFrom] at h
    split at h
    · exact (adds_atPath _ index total call.1).trans (ih h)
    · cases h

theorem adds_step (h : step c p op = some p') :
    Adds (pendingDataFiles p) (pendingDataFiles p') (accepted [op]) := by
  cases op with
  | write batch => simpa [accepted] using adds_writeFrom h
  | evolveSchema ok =>
    simp only [step] at h
    split at h <;> [skip; split at h] <;> cases h
    · exact .refl
    · -- every partition gets a file
      induction p with
      | nil => exact .refl
      | cons entry rest ih =>
        exact (adds_createNewPartitionFile.append_right _).trans (ih.append_left _)

theorem adds_foldlM (h : ops.foldlM (step c) p = some p') :
    Adds (pendingDataFiles p) (pendingDataFiles p') (accepted ops) := by
  induction ops generalizing p with
  | nil =>
    cases h
    exact .refl
  | cons op rest ih =>
    obtain ⟨p₁, hop, hrest⟩ := Option.bind_eq_some_iff.1 h
    simpa [accepted] using (adds_step hop).trans (ih hrest)

/-- What `Close` has made of the records: all of them are in the files, of which each was
sealed once, and uploaded once if there was a commit.  Without a file there was no record, and
only a call that something disturbs gives up. -/
def Closed.Covers (disturbed : Bool) (records : List R) : Closed R → Prop
  | .committed files => (rowsOf files).Perm records ∧ ∀ f ∈ files, f.closed = 1 ∧ f.uploaded = 1
  | .onDisk files => (rowsOf files).Perm records ∧ ∀ f ∈ files, f.closed = 1
  | .nothing => records = []
  | .aborted => disturbed = true

/-- The records of any calls are spread over the files, each in one of them, and `Close` seals
and uploads every file once before it commits.  If nothing disturbs it, it commits the files of
a writer to S3 that was given records, and leaves those of a local writer on the disk. -/
theorem records_in_files_sealed_uploaded_once (c : Config P R) (ops : List (Op R))
    (hrun : run c ops = some p) (ctxDone finishState ok : Bool) :
    (rowsOf (pendingDataFiles p)).Perm (accepted ops) ∧
      (Close c p ctxDone finishState ok).Covers (ctxDone || !finishState || !ok) (accepted ops) ∧
      (c.s3 = true → accepted ops ≠ [] → ∃ files, Close c p false true true = .committed files) ∧
      (c.s3 = false → ∃ files, Close c p false true true = .onDisk files) := by
  have hadds := adds_foldlM hrun
  have hrows : (rowsOf (pendingDataFiles p)).Perm (accepted ops) := hadds.rows
  have hclosed : pendingDataFiles (closePqFiles p) =
      (pendingDataFiles p).map fun pf => if pf.file then pf.finalize else pf := by
    simp [closePqFiles, pendingDataFiles, flatMap_map, map_flatMap]
  have hsame : ∀ pf : FileMetadata R, (if pf.file then pf.finalize else pf).rows = pf.rows := by
    intro pf
    split <;> rfl
  have honce : ∀ f ∈ pendingDataFiles (closePqFiles p), f.closed = 1 ∧ f.uploaded = 0 := by
    rw [hclosed]
    intro f hf
    obtain ⟨pf, hpf, rfl⟩ := mem_map.1 hf
    obtain ⟨huploaded, hpf⟩ := hadds.kept (by simp [pendingDataFiles]) pf hpf
    by_cases hopen : pf.file <;> simp [FileMetadata.finalize, hopen, huploaded, hpf]
  have hsome : accepted ops ≠ [] → pendingDataFiles p ≠ [] := by
    intro hne hempty
    rw [hempty] at hrows
    exact hne (nil_perm.1 hrows)
  refine ⟨hrows, ?_, fun hs3 hne => ?_, fun hs3 => ?_⟩
  · unfold Close
    split <;> split
    · show (ctxDone || !finishState || !ok) = true
      grind
    · exact ⟨by simpa [hclosed, rowsOf, flatMap_map, hsame] using hrows, fun f hf => (honce f hf).1⟩
    · next hnone =>
      split
      · next hdone => simp [Closed.Covers, hdone]
      · obtain ⟨-, hempty⟩ : _ ∧ pendingDataFiles p = [] := by simpa using hnone
        simpa [Closed.Covers, hempty, rowsOf] using hrows
    · split
      · show (ctxDone || !finishState || !ok) = true
        grind
      · refine ⟨by simpa [uploadPqFiles, hclosed, rowsOf, flatMap_map, hsame] using hrows, fun f hf => ?_⟩
        obtain ⟨info, hinfo, rfl⟩ := mem_map.1 hf
        exact ⟨(honce info hinfo).1, by simp [(honce info hinfo).2]⟩
  · simp [Close, hs3, hsome hne]
  · simp [Close, hs3]

/-- Rows below 10 go to one partition, the others to another.  A file is full with two rows. -/
def twoPartitions : Config Bool Nat where
  path n := decide (n < 10)
  size rows := rows.length
  maxFileBytes := 2
  checkIntervalForRoll := 1
  normalization := true
  s3 := true
  backfill := false

/-- Two partitions, a roll and an evolution. -/
def rollAndEvolve : List (Op Nat) :=
  [.write [(1, true), (11, true), (2, true), (3, true)], .evolveSchema true, .write [(12, true)]]

theorem records_in_files_after_roll_and_evolution :
    ∃ p files, run twoPartitions rollAndEvolve = some p ∧
      (rowsOf (pendingDataFiles p)).Perm [1, 11, 2, 3, 12] ∧
      Close twoPartitions p false true true = .committed files ∧
      (rowsOf files).Perm [1, 11, 2, 3, 12] ∧ ∀ f ∈ files, f.closed = 1 ∧ f.uploaded = 1 := by
  obtain ⟨hrows, hcovers, hcommits, -⟩ :=
    records_in_files_sealed_uploaded_once twoPartitions rollAndEvolve rfl false true true
  obtain ⟨files, hfiles⟩ := hcommits rfl (by decide)
  rw [hfiles] at hcovers
  exact ⟨_, files, rfl, hrows, hfiles, hcovers⟩

end Olake.ParquetFiles
