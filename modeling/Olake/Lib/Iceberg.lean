/-
Iceberg tables: data files, and the deletes that hide rows of them.

Every commit has a sequence number, and its files carry it.  An equality delete removes
the rows it describes from the data files in its scope with a strictly smaller number.  A
position is deleted by a positional delete file or by a deletion vector with a number at
least as large as the data file's.  A file that has a vector is not read with positional
delete files any more, so a new vector takes over what was deleted before.

Which data files a positional delete file is read for depends on the reader (`covers`):
by the path in its entries alone, or by its partition too.

The main result is `live_commit`: which rows are live after a commit, in terms of the
rows that were live before and of what the commit stages.
-/
import Mathlib.Data.List.Dedup

namespace Iceberg

open List

/-- A row, by its file and its place in the file. -/
@[ext]
structure RowLocation (P : Type) where
  path : P
  position : Nat
deriving DecidableEq, Repr

structure DataFile (P K R : Type) where
  path : P
  partition : K
  sequence : Nat
  rows : List R
deriving DecidableEq, Repr

structure EqualityDelete (K E : Type) where
  partition : K
  sequence : Nat
  content : E

structure PositionDelete (P K : Type) where
  partition : K
  sequence : Nat
  entries : List (RowLocation P)

structure DeletionVector (P : Type) where
  path : P
  sequence : Nat
  positions : List Nat

structure Table (P K R E : Type) where
  data : List (DataFile P K R)
  equalityDeletes : List (EqualityDelete K E)
  positionDeletes : List (PositionDelete P K)
  vectors : List (DeletionVector P)
  lastSequence : Nat

def Table.empty {P K R E : Type} : Table P K R E := ⟨[], [], [], [], 0⟩

/-- How deletes are matched. -/
structure Reader (P K R E : Type) where
  /-- Whether the equality deletes of a partition are for the data files of another: for
  those of the same partition, or of the whole table. -/
  scope : K → K → Prop
  /-- Whether the content of an equality delete removes the row. -/
  hits : E → R → Bool
  /-- Whether a positional delete file is read for a data file at all. -/
  covers : PositionDelete P K → DataFile P K R → Bool

variable {P K R E : Type} [DecidableEq P] (rd : Reader P K R E)

/-- How Iceberg matches positional delete files: a file that lists rows of one data file only
is matched by that file's path, and any other by its partition. -/
def readsFor [DecidableEq K] (d : PositionDelete P K) (f : DataFile P K R) : Bool :=
  d.entries.all (fun loc => loc.path = f.path) || d.partition = f.partition

/-- What the planning of a scan reports: the equality deletes that are read for a data file.
They are in scope, and none that hits a row of the file is left out. -/
structure Planner (rd : Reader P K R E) where
  pairs : EqualityDelete K E → DataFile P K R → Bool
  in_scope : ∀ d f, pairs d f → rd.scope d.partition f.partition ∧ f.sequence < d.sequence
  complete : ∀ d f, rd.scope d.partition f.partition → f.sequence < d.sequence →
    ∀ row ∈ f.rows, rd.hits d.content row → pairs d f

def Planner.all [∀ k k', Decidable (rd.scope k k')] : Planner rd where
  pairs d f := rd.scope d.partition f.partition && f.sequence < d.sequence
  in_scope d f h := by simpa using h
  complete d f hscope hlt _ _ _ := by simp [hscope, hlt]

variable (t : Table P K R E)

namespace Table

variable (f : DataFile P K R)

/-- An equality delete removes the row of the file. -/
def EqualityDeleted (row : R) : Prop :=
  ∃ d ∈ t.equalityDeletes, rd.scope d.partition f.partition ∧ f.sequence < d.sequence ∧
    rd.hits d.content row

variable {f}

omit [DecidableEq P] in
theorem equalityDeleted_iff_pairs {rd : Reader P K R E} (planner : Planner rd) (t : Table P K R E)
    (hrow : row ∈ f.rows) : t.EqualityDeleted rd f row ↔
      ∃ d ∈ t.equalityDeletes, planner.pairs d f ∧ rd.hits d.content row := by
  constructor
  · rintro ⟨d, hd, hscope, hlt, hhits⟩
    exact ⟨d, hd, planner.complete d f hscope hlt row hrow hhits, hhits⟩
  · rintro ⟨d, hd, hpairs, hhits⟩
    obtain ⟨hscope, hlt⟩ := planner.in_scope d f hpairs
    exact ⟨d, hd, hscope, hlt, hhits⟩

variable (f)

def HasVector : Prop :=
  ∃ v ∈ t.vectors, v.path = f.path ∧ f.sequence ≤ v.sequence

/-- The position of the file is deleted: by its vector, or else by the positional
delete files. -/
def PositionDeleted (position : Nat) : Prop :=
  (∃ v ∈ t.vectors, v.path = f.path ∧ f.sequence ≤ v.sequence ∧ position ∈ v.positions) ∨
    ¬ t.HasVector f ∧ ∃ d ∈ t.positionDeletes,
      rd.covers d f ∧ f.sequence ≤ d.sequence ∧ ⟨f.path, position⟩ ∈ d.entries

instance [∀ k k', Decidable (rd.scope k k')] (row : R) : Decidable (t.EqualityDeleted rd f row) :=
  inferInstanceAs (Decidable (∃ d ∈ _, _))

instance : Decidable (t.HasVector f) :=
  inferInstanceAs (Decidable (∃ v ∈ _, _))

instance (position : Nat) : Decidable (t.PositionDeleted rd f position) :=
  inferInstanceAs (Decidable (_ ∨ _))

variable (loc : RowLocation P) {f}

def Holds (row : R) : Prop :=
  ∃ f ∈ t.data, f.path = loc.path ∧ f.rows[loc.position]? = some row

def Lists : Prop :=
  (∃ d ∈ t.positionDeletes, loc ∈ d.entries) ∨
    ∃ v ∈ t.vectors, v.path = loc.path ∧ loc.position ∈ v.positions

/-- The row can be read at the location. -/
def Live (row : R) : Prop :=
  ∃ f ∈ t.data, f.path = loc.path ∧ f.rows[loc.position]? = some row ∧
    ¬ t.EqualityDeleted rd f row ∧ ¬ t.PositionDeleted rd f loc.position

instance [∀ k k', Decidable (rd.scope k k')] [DecidableEq R]
    (row : R) : Decidable (t.Live rd loc row) :=
  inferInstanceAs (Decidable (∃ f ∈ _, _))

/-! ### Commits -/

/-- The positions of a file that are deleted already; a vector that replaces other
deletes starts from them. -/
def previousPositions (path : P) : List Nat :=
  match t.data.find? (fun f => f.path = path) with
  | some f => (List.range f.rows.length).filter (fun position => t.PositionDeleted rd f position)
  | none => []

end Table

/-- The files of a commit.  The vectors are given by the rows they remove. -/
structure Delta (P K R E : Type) where
  data : List (P × K × List R)
  equalityDeletes : List (K × E)
  positionDeletes : List (K × List (RowLocation P))
  vectors : List (RowLocation P)

variable (δ : Delta P K R E)

def Table.newVector (path : P) : DeletionVector P where
  path := path
  sequence := t.lastSequence + 1
  positions := t.previousPositions rd path ++
    (δ.vectors.filter (fun loc => loc.path = path)).map RowLocation.position

/-- The table after a commit.  Every new file has the next sequence number, and a new
vector replaces the one its data file has. -/
def Table.commit : Table P K R E where
  data := t.data ++ δ.data.map (fun f => ⟨f.1, f.2.1, t.lastSequence + 1, f.2.2⟩)
  equalityDeletes :=
    t.equalityDeletes ++ δ.equalityDeletes.map (fun d => ⟨d.1, t.lastSequence + 1, d.2⟩)
  positionDeletes :=
    t.positionDeletes ++ δ.positionDeletes.map (fun d => ⟨d.1, t.lastSequence + 1, d.2⟩)
  vectors :=
    t.vectors.filter (fun v => v.path ∉ δ.vectors.map RowLocation.path) ++
      (δ.vectors.map RowLocation.path).dedup.map (t.newVector rd δ)
  lastSequence := t.lastSequence + 1

/-! ### Which rows a commit leaves live -/

namespace Delta

def Holds (loc : RowLocation P) (row : R) : Prop :=
  ∃ f ∈ δ.data, f.1 = loc.path ∧ f.2.2[loc.position]? = some row

/-- An equality delete of the commit removes the row from files of the partition. -/
def Equality (partition : K) (row : R) : Prop :=
  ∃ d ∈ δ.equalityDeletes, rd.scope d.1 partition ∧ rd.hits d.2 row

def Position (loc : RowLocation P) : Prop :=
  (∃ d ∈ δ.positionDeletes, loc ∈ d.2) ∨ loc ∈ δ.vectors

end Delta

namespace Table

/-- The numbers of the files are those of commits up to now, and a path names one data
file. -/
structure Ordered : Prop where
  data : ∀ f ∈ t.data, f.sequence ≤ t.lastSequence
  equality : ∀ d ∈ t.equalityDeletes, d.sequence ≤ t.lastSequence
  vector : ∀ v ∈ t.vectors, v.sequence ≤ t.lastSequence
  position : ∀ d ∈ t.positionDeletes, d.sequence ≤ t.lastSequence
  paths : (t.data.map DataFile.path).Nodup

/-- No file of the table has the path, and no delete mentions it. -/
structure Unmentioned (path : P) : Prop where
  data : ∀ f ∈ t.data, f.path ≠ path
  vector : ∀ v ∈ t.vectors, v.path ≠ path
  position : ∀ d ∈ t.positionDeletes, ∀ loc ∈ d.entries, loc.path ≠ path

/-- What a commit has to look like: its data files are new and have names of their own,
positional delete files are not written for tables with vectors, and of the positional
delete files that list a row one is read for the row's file. -/
structure Accepts : Prop where
  fresh : ∀ f ∈ δ.data, t.Unmentioned f.1
  paths : (δ.data.map Prod.fst).Nodup
  vectors : δ.positionDeletes = [] ∨ t.vectors = [] ∧ δ.vectors = []
  covered : ∀ f ∈ (t.commit rd δ).data, ∀ d ∈ δ.positionDeletes, ∀ loc ∈ d.2, loc.path = f.path →
    ∃ d' ∈ δ.positionDeletes, loc ∈ d'.2 ∧ rd.covers ⟨d'.1, t.lastSequence + 1, d'.2⟩ f

section Commit

variable {rd} {t : Table P K R E} {δ : Delta P K R E} {f : DataFile P K R}

theorem mem_data_commit :
    f ∈ (t.commit rd δ).data ↔
      f ∈ t.data ∨ ∃ g ∈ δ.data, f = ⟨g.1, g.2.1, t.lastSequence + 1, g.2.2⟩ := by
  simp [commit, eq_comm]

variable {position : Nat}

omit [DecidableEq P] in
theorem live_iff_of_mem (ht : t.Ordered) (hf : f ∈ t.data)
    (hrow : f.rows[position]? = some row) : t.Live rd ⟨f.path, position⟩ row ↔
      ¬ t.EqualityDeleted rd f row ∧ ¬ t.PositionDeleted rd f position := by
  constructor
  · rintro ⟨g, hg, hpath, -, hdel⟩
    rwa [inj_on_of_nodup_map ht.paths hg hf hpath] at hdel
  · intro hdel
    exact ⟨f, hf, rfl, hrow, hdel⟩

theorem find?_path (ht : t.Ordered) (hf : f ∈ t.data) :
    t.data.find? (fun g => g.path = f.path) = some f := by
  obtain ⟨g, hg⟩ : ∃ g, t.data.find? (fun g => g.path = f.path) = some g :=
    Option.isSome_iff_exists.1 (find?_isSome.2 ⟨f, hf, by simp⟩)
  have hpath : g.path = f.path := by simpa using find?_some hg
  rw [hg, inj_on_of_nodup_map ht.paths (mem_of_find?_eq_some hg) hf hpath]

theorem mem_previousPositions (ht : t.Ordered) (hf : f ∈ t.data) (hpos : position < f.rows.length) :
    position ∈ t.previousPositions rd f.path ↔ t.PositionDeleted rd f position := by
  rw [previousPositions, find?_path ht hf]
  simp [hpos]

omit [DecidableEq P] in
theorem not_positionDeleted_of_unmentioned (h : t.Unmentioned f.path) :
    ¬ t.PositionDeleted rd f position := by
  rintro (⟨v, hv, hpath, -⟩ | ⟨-, d, hd, -, -, hmem⟩)
  · exact h.vector v hv hpath
  · exact h.position d hd _ hmem rfl

theorem previousPositions_of_unmentioned (h : t.Unmentioned path) :
    t.previousPositions rd path = [] := by
  have hnone : t.data.find? (fun f => f.path = path) = none := by
    rw [find?_eq_none]
    intro f hf
    simpa using h.data f hf
  rw [previousPositions, hnone]

/-- A file that is there already is hit by the new equality deletes in whose scope it is. -/
theorem equalityDeleted_commit (ht : t.Ordered) (hf : f ∈ t.data) :
    (t.commit rd δ).EqualityDeleted rd f row ↔
      t.EqualityDeleted rd f row ∨ δ.Equality rd f.partition row := by
  have hlt : f.sequence < t.lastSequence + 1 := Nat.lt_succ_of_le (ht.data f hf)
  simp only [EqualityDeleted, commit, mem_append, mem_map, or_and_right,
    exists_or]
  refine or_congr Iff.rfl ⟨?_, ?_⟩
  · rintro ⟨_, ⟨d, hd, rfl⟩, hpart, -, hhits⟩
    exact ⟨d, hd, hpart, hhits⟩
  · rintro ⟨d, hd, hpart, hhits⟩
    exact ⟨_, ⟨d, hd, rfl⟩, hpart, hlt, hhits⟩

/-- A new file is hit by no equality delete. -/
theorem not_equalityDeleted_commit (ht : t.Ordered) (hf : f.sequence = t.lastSequence + 1) :
    ¬ (t.commit rd δ).EqualityDeleted rd f row := by
  rintro ⟨d, hd, -, hlt, -⟩
  rcases mem_append.1 hd with hd | hd
  · have hle := ht.equality d hd
    omega
  · obtain ⟨d', -, rfl⟩ := mem_map.1 hd
    dsimp only at hlt
    omega

theorem mem_vectors_commit_of_notMem (hv : v.path ∉ δ.vectors.map RowLocation.path) :
    v ∈ (t.commit rd δ).vectors ↔ v ∈ t.vectors := by
  rw [commit, mem_append, mem_filter]
  constructor
  · rintro (⟨hmem, -⟩ | hnew)
    · exact hmem
    · obtain ⟨path, hpath, rfl⟩ := mem_map.1 hnew
      exact absurd (mem_dedup.1 hpath) hv
  · intro hmem
    exact .inl ⟨hmem, by simpa using hv⟩

/-- The vectors of a file that gets a new one: it is the only one. -/
theorem mem_vectors_commit_of_mem (hv : v.path ∈ δ.vectors.map RowLocation.path) :
    v ∈ (t.commit rd δ).vectors ↔ v = t.newVector rd δ v.path := by
  rw [commit, mem_append, mem_filter]
  constructor
  · rintro (⟨-, hnot⟩ | hnew)
    · exact absurd hv (of_decide_eq_true hnot)
    · obtain ⟨path, -, rfl⟩ := mem_map.1 hnew
      rfl
  · intro heq
    exact .inr (mem_map.2 ⟨v.path, mem_dedup.2 hv, heq.symm⟩)

/-- A file that gets a vector: it removes what was deleted before and the new rows. -/
theorem positionDeleted_commit_of_vector (hδ : t.Accepts rd δ)
    (hvec : f.path ∈ δ.vectors.map RowLocation.path) (hseq : f.sequence ≤ t.lastSequence + 1) :
    (t.commit rd δ).PositionDeleted rd f position ↔
      position ∈ t.previousPositions rd f.path ∨ δ.Position ⟨f.path, position⟩ := by
  have hnone : δ.positionDeletes = [] := by
    rcases hδ.vectors with h | ⟨-, h⟩
    · exact h
    · simp [h] at hvec
  have hnew : position ∈ (t.newVector rd δ f.path).positions ↔
      position ∈ t.previousPositions rd f.path ∨ δ.Position ⟨f.path, position⟩ := by
    rw [newVector, mem_append, Delta.Position, hnone]
    refine or_congr Iff.rfl ⟨?_, ?_⟩
    · intro h
      obtain ⟨loc, hloc, rfl⟩ := mem_map.1 h
      obtain ⟨hmem, hpath⟩ := mem_filter.1 hloc
      rw [← of_decide_eq_true hpath]
      exact .inr hmem
    · rintro (⟨_, h, -⟩ | h)
      · cases h
      · exact mem_map.2 ⟨_, mem_filter.2 ⟨h, by simp⟩, rfl⟩
  have hmem : t.newVector rd δ f.path ∈ (t.commit rd δ).vectors :=
    (mem_vectors_commit_of_mem hvec).2 rfl
  rw [← hnew]
  constructor
  · rintro (⟨v, hv, hpath, -, hin⟩ | ⟨hno, -⟩)
    · rw [← hpath] at hvec
      rw [(mem_vectors_commit_of_mem hvec).1 hv, hpath] at hin
      exact hin
    · exact absurd ⟨_, hmem, rfl, hseq⟩ hno
  · intro hin
    exact .inl ⟨_, hmem, rfl, hseq, hin⟩

/-- Without vectors, a file is read with the new positional delete files that cover it. -/
theorem positionDeleted_commit_of_files (hnone : t.vectors = []) (hnone' : δ.vectors = [])
    (hseq : f.sequence ≤ t.lastSequence + 1) :
    (t.commit rd δ).PositionDeleted rd f position ↔
      t.PositionDeleted rd f position ∨ ∃ d ∈ δ.positionDeletes,
        rd.covers ⟨d.1, t.lastSequence + 1, d.2⟩ f ∧ ⟨f.path, position⟩ ∈ d.2 := by
  have hno : ∀ t' : Table P K R E, t'.vectors = [] →
      (t'.PositionDeleted rd f position ↔ ∃ d ∈ t'.positionDeletes,
        rd.covers d f ∧ f.sequence ≤ d.sequence ∧ ⟨f.path, position⟩ ∈ d.entries) := by
    intro t' ht'
    simp [PositionDeleted, HasVector, ht']
  rw [hno t hnone, hno (t.commit rd δ) (by simp [commit, hnone, hnone'])]
  simp only [commit, mem_append, mem_map, or_and_right, exists_or]
  refine or_congr Iff.rfl ⟨?_, ?_⟩
  · rintro ⟨_, ⟨d, hd, rfl⟩, hcov, -, hin⟩
    exact ⟨d, hd, hcov, hin⟩
  · rintro ⟨d, hd, hcov, hin⟩
    exact ⟨_, ⟨d, hd, rfl⟩, hcov, hseq, hin⟩

/-- A file that gets no vector keeps those it has, and without one it is read with the new
positional delete files. -/
theorem positionDeleted_commit_of_no_vector (hδ : t.Accepts rd δ)
    (hvec : f.path ∉ δ.vectors.map RowLocation.path) (hf : f ∈ (t.commit rd δ).data)
    (hseq : f.sequence ≤ t.lastSequence + 1) :
    (t.commit rd δ).PositionDeleted rd f position ↔
      t.PositionDeleted rd f position ∨ δ.Position ⟨f.path, position⟩ := by
  have hnot : (⟨f.path, position⟩ : RowLocation P) ∉ δ.vectors := by
    intro hmem
    exact hvec (mem_map.2 ⟨_, hmem, rfl⟩)
  have hkeep : ∀ v : DeletionVector P, v.path = f.path →
      (v ∈ (t.commit rd δ).vectors ↔ v ∈ t.vectors) := by
    intro v hv
    exact mem_vectors_commit_of_notMem (by rw [hv]; exact hvec)
  rcases hδ.vectors with hnone | ⟨hnone, hnone'⟩
  · -- no positional delete file is written
    have hdel : (t.commit rd δ).positionDeletes = t.positionDeletes := by simp [commit, hnone]
    have hhas : (t.commit rd δ).HasVector f ↔ t.HasVector f :=
      exists_congr fun v => ⟨fun ⟨hv, hpath, hle⟩ => ⟨(hkeep v hpath).1 hv, hpath, hle⟩,
        fun ⟨hv, hpath, hle⟩ => ⟨(hkeep v hpath).2 hv, hpath, hle⟩⟩
    have hposition : ¬ δ.Position ⟨f.path, position⟩ := by
      rintro (⟨d, hd, -⟩ | h)
      · rw [hnone] at hd
        cases hd
      · exact hnot h
    rw [PositionDeleted, hdel, hhas, or_iff_left hposition]
    refine or_congr (exists_congr fun v => ?_) Iff.rfl
    constructor
    · rintro ⟨hv, hpath, hle, hin⟩
      exact ⟨(hkeep v hpath).1 hv, hpath, hle, hin⟩
    · rintro ⟨hv, hpath, hle, hin⟩
      exact ⟨(hkeep v hpath).2 hv, hpath, hle, hin⟩
  · -- there are no vectors, before or after
    rw [positionDeleted_commit_of_files hnone hnone' hseq]
    refine or_congr Iff.rfl ⟨?_, ?_⟩
    · rintro ⟨d, hd, -, hin⟩
      exact .inl ⟨d, hd, hin⟩
    · rintro (⟨d, hd, hin⟩ | h)
      · obtain ⟨d', hd', hin', hcov⟩ := hδ.covered f hf d hd _ hin rfl
        exact ⟨d', hd', hcov, hin'⟩
      · exact absurd h hnot

/-- A commit adds its own positions to those that are deleted already. -/
theorem positionDeleted_commit (ht : t.Ordered) (hδ : t.Accepts rd δ)
    (hf : f ∈ (t.commit rd δ).data) (hpos : position < f.rows.length) :
    (t.commit rd δ).PositionDeleted rd f position ↔
      t.PositionDeleted rd f position ∨ δ.Position ⟨f.path, position⟩ := by
  by_cases hvec : f.path ∈ δ.vectors.map RowLocation.path
  · rcases mem_data_commit.1 hf with hold | ⟨g, hg, rfl⟩
    · rw [positionDeleted_commit_of_vector hδ hvec (Nat.le_succ_of_le (ht.data f hold)),
        mem_previousPositions ht hold hpos]
    · have hfresh : t.Unmentioned g.1 := hδ.fresh g hg
      rw [positionDeleted_commit_of_vector hδ hvec (Nat.le_refl _),
        previousPositions_of_unmentioned hfresh]
      refine or_congr (iff_of_false not_mem_nil ?_) Iff.rfl
      exact not_positionDeleted_of_unmentioned hfresh
  · refine positionDeleted_commit_of_no_vector hδ hvec hf ?_
    rcases mem_data_commit.1 hf with hold | ⟨g, -, rfl⟩
    · exact Nat.le_succ_of_le (ht.data f hold)
    · exact Nat.le_refl _

/-- The rows that are live after a commit: those that were, unless an equality delete of
the commit removes them, and those of its own files, except for the positions it
deletes. -/
theorem live_commit (ht : t.Ordered) (hδ : t.Accepts rd δ) :
    (t.commit rd δ).Live rd loc row ↔
      ((∃ f ∈ t.data, f.path = loc.path ∧ f.rows[loc.position]? = some row ∧
          ¬ t.EqualityDeleted rd f row ∧ ¬ t.PositionDeleted rd f loc.position ∧
          ¬ δ.Equality rd f.partition row) ∨ δ.Holds loc row) ∧ ¬ δ.Position loc := by
  constructor
  · rintro ⟨f, hf, hpath, hrow, heq, hpos⟩
    have hlt : loc.position < f.rows.length := (List.getElem?_eq_some_iff.1 hrow).1
    rw [positionDeleted_commit ht hδ hf hlt, not_or, hpath] at hpos
    refine ⟨?_, hpos.2⟩
    rcases mem_data_commit.1 hf with hold | ⟨g, hg, rfl⟩
    · rw [equalityDeleted_commit ht hold, not_or] at heq
      exact .inl ⟨f, hold, hpath, hrow, heq.1, hpos.1, heq.2⟩
    · exact .inr ⟨g, hg, hpath, hrow⟩
  · rintro ⟨⟨f, hf, hpath, hrow, heq, hpos, hnew⟩ | ⟨g, hg, hpath, hrow⟩, hdel⟩
    · have hlt : loc.position < f.rows.length := (List.getElem?_eq_some_iff.1 hrow).1
      have hmem : f ∈ (t.commit rd δ).data := mem_data_commit.2 (.inl hf)
      refine ⟨f, hmem, hpath, hrow, ?_, ?_⟩
      · rw [equalityDeleted_commit ht hf]
        exact not_or.2 ⟨heq, hnew⟩
      · rw [positionDeleted_commit ht hδ hmem hlt, hpath]
        exact not_or.2 ⟨hpos, hdel⟩
    · have hmem : ⟨g.1, g.2.1, t.lastSequence + 1, g.2.2⟩ ∈ (t.commit rd δ).data :=
        mem_data_commit.2 (.inr ⟨g, hg, rfl⟩)
      refine ⟨_, hmem, hpath, hrow, not_equalityDeleted_commit ht rfl, ?_⟩
      rw [positionDeleted_commit ht hδ hmem (List.getElem?_eq_some_iff.1 hrow).1]
      refine not_or.2 ⟨not_positionDeleted_of_unmentioned (hδ.fresh g hg), ?_⟩
      rw [hpath]
      exact hdel

theorem ordered_commit (ht : t.Ordered) (hpaths : (δ.data.map Prod.fst).Nodup)
    (hfresh : ∀ g ∈ δ.data, ∀ f ∈ t.data, f.path ≠ g.1) : (t.commit rd δ).Ordered where
  data := by
    intro f hf
    rcases mem_data_commit.1 hf with hf | ⟨g, -, rfl⟩
    · exact Nat.le_succ_of_le (ht.data f hf)
    · exact Nat.le_refl _
  equality := by
    intro d hd
    rcases mem_append.1 hd with hd | hd
    · exact Nat.le_succ_of_le (ht.equality d hd)
    · obtain ⟨_, -, rfl⟩ := mem_map.1 hd
      exact Nat.le_refl _
  vector := by
    intro v hv
    rcases mem_append.1 hv with hv | hv
    · exact Nat.le_succ_of_le (ht.vector v (mem_of_mem_filter hv))
    · obtain ⟨_, -, rfl⟩ := mem_map.1 hv
      exact Nat.le_refl _
  position := by
    intro d hd
    rcases mem_append.1 hd with hd | hd
    · exact Nat.le_succ_of_le (ht.position d hd)
    · obtain ⟨_, -, rfl⟩ := mem_map.1 hd
      exact Nat.le_refl _
  paths := by
    have hmap : (t.commit rd δ).data.map DataFile.path =
        t.data.map DataFile.path ++ δ.data.map Prod.fst := by
      simp [commit]
    rw [hmap, nodup_append]
    refine ⟨ht.paths, hpaths, fun p hp q hq => ?_⟩
    obtain ⟨f, hf, rfl⟩ := mem_map.1 hp
    obtain ⟨g, hg, rfl⟩ := mem_map.1 hq
    exact hfresh g hg f hf

theorem holds_commit : (t.commit rd δ).Holds loc row ↔ t.Holds loc row ∨ δ.Holds loc row := by
  simp [Holds, Delta.Holds, mem_data_commit, or_and_right, exists_or]

/-- A new vector lists what was listed before, and the rows of the commit. -/
theorem lists_commit (h : (t.commit rd δ).Lists loc) : t.Lists loc ∨ δ.Position loc := by
  rcases h with ⟨d, hd, hloc⟩ | ⟨v, hv, hpath, hloc⟩
  · rcases mem_append.1 hd with hd | hd
    · exact .inl (.inl ⟨d, hd, hloc⟩)
    · obtain ⟨d', hd', rfl⟩ := mem_map.1 hd
      exact .inr (.inl ⟨d', hd', hloc⟩)
  · rcases mem_append.1 hv with hv | hv
    · exact .inl (.inr ⟨v, mem_of_mem_filter hv, hpath, hloc⟩)
    · obtain ⟨path, -, rfl⟩ := mem_map.1 hv
      obtain rfl : path = loc.path := hpath
      rcases mem_append.1 hloc with hloc | hloc
      · refine .inl ?_
        unfold previousPositions at hloc
        split at hloc
        · next f hf =>
          have hfile : f.path = loc.path := by simpa using find?_some hf
          obtain ⟨-, hdel⟩ := mem_filter.1 hloc
          rcases of_decide_eq_true hdel with ⟨v, hv, hpath, -, hin⟩ | ⟨-, d, hd, -, -, hin⟩
          · exact .inr ⟨v, hv, hpath.trans hfile, hin⟩
          · rw [hfile] at hin
            exact .inl ⟨d, hd, hin⟩
        · cases hloc
      · obtain ⟨l, hl, hposition⟩ := mem_map.1 hloc
        obtain ⟨hvector, hlpath⟩ := mem_filter.1 hl
        obtain rfl : l = loc := RowLocation.ext (of_decide_eq_true hlpath) hposition
        exact .inr (.inr hvector)

theorem unmentioned_commit (ht : t.Unmentioned path) (hdata : ∀ f ∈ δ.data, f.1 ≠ path)
    (hdel : ∀ loc, δ.Position loc → loc.path ≠ path) : (t.commit rd δ).Unmentioned path where
  data := by
    intro f hf
    rcases mem_data_commit.1 hf with hf | ⟨g, hg, rfl⟩
    · exact ht.data f hf
    · exact hdata g hg
  vector := by
    intro v hv
    rcases mem_append.1 hv with hv | hv
    · exact ht.vector v (mem_of_mem_filter hv)
    · obtain ⟨p, hp, rfl⟩ := mem_map.1 hv
      obtain ⟨loc, hloc, rfl⟩ := mem_map.1 (mem_dedup.1 hp)
      exact hdel loc (.inr hloc)
  position := by
    intro d hd loc hloc
    rcases mem_append.1 hd with hd | hd
    · exact ht.position d hd loc hloc
    · obtain ⟨d', hd', rfl⟩ := mem_map.1 hd
      exact hdel loc (.inl ⟨d', hd', hloc⟩)

end Commit

end Table

end Iceberg
