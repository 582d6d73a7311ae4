/-
What the two Iceberg writers share: records, the row index of a table
(types/stream_index_interface.go), and the commit of a writer thread (`commitThread`
of IcebergTableOperator.java).

The index maps an `_olake_id` to the location of its row.  A writer thread buffers its
own changes and resolves an id against them first; they reach the index only after the
commit of the table.
-/
import Mathlib.Data.List.Induction
import Olake.Lib.Iceberg
import Olake.Lib.Versions

namespace Olake.IcebergWriter

open Iceberg
export Iceberg (Table)

variable {P Id K V D : Type}

/-- The operation of a record, `_op_type`: a row read by a backfill, an insert, an
insert that may have been read before, an update, a delete. -/
inductive Op where
  | r
  | c
  | i
  | u
  | d
deriving DecidableEq, Repr

/-- A record on its way into a table, and as a row of a data file.  `pKey` and `values`
are what `getRecordPartition` gives for it: the partition as a directory, and its
values. -/
structure Record (Id K V D : Type) where
  op : Op
  id : Id
  pKey : K
  values : V
  data : D
deriving DecidableEq, Repr

/-- `UpdateType`: how a row that is superseded is deleted. -/
inductive UpdateType where
  | equality
  | position
  | deletionVector
deriving DecidableEq, Repr

def UpdateType.NeedsTableIndex : UpdateType → Bool
  | .equality => false
  | .position => true
  | .deletionVector => true

abbrev StreamIndex (P Id : Type) := Id → Option (RowLocation P)

structure StreamIndexThread (P Id : Type) where
  index : StreamIndex P Id
  changes : StreamIndex P Id

namespace StreamIndexThread

/-- `NewStreamIndexThread`. -/
def new (index : StreamIndex P Id) : StreamIndexThread P Id := ⟨index, fun _ => none⟩

variable (b : StreamIndexThread P Id)

def Put [DecidableEq Id] (key : Id) (loc : RowLocation P) : StreamIndexThread P Id :=
  { b with changes := Function.update b.changes key (some loc) }

def Lookup (key : Id) : Option (RowLocation P) :=
  match b.changes key with
  | some loc => some loc
  | none => b.index key

theorem lookup_put [DecidableEq Id] (key : Id) (loc : RowLocation P)
    (id : Id) : (b.Put key loc).Lookup id = if id = key then some loc else b.Lookup id := by
  by_cases h : id = key <;> simp [Put, Lookup, h]

theorem lookup_eq (id : Id) : b.Lookup id = (b.changes id).or (b.index id) := by
  unfold Lookup
  cases b.changes id <;> rfl

/-- What was put last is what is changed. -/
theorem changes_foldl_put [DecidableEq Id] (es : List (RowLocation P × Id)) (b : StreamIndexThread P Id)
    (id : Id) : (es.foldl (fun b e => b.Put e.2 e.1) b).changes id =
      ((Versions.last (fun x => x) es id).map Prod.fst).or (b.changes id) := by
  induction es using List.reverseRecOn with
  | nil => rfl
  | append_singleton es e ih =>
    rw [List.foldl_append, List.foldl_cons, List.foldl_nil, Versions.last_append_singleton, Put]
    dsimp only
    rw [Function.update_apply, ih]
    by_cases h : id = e.2
    · simp [h]
    · simp [h, Ne.symm h]

theorem index_foldl_put [DecidableEq Id] (es : List (RowLocation P × Id)) (b : StreamIndexThread P Id) :
    (es.foldl (fun b e => b.Put e.2 e.1) b).index = b.index := by
  induction es generalizing b with
  | nil => rfl
  | cons e rest ih => exact ih (b.Put e.2 e.1)

/-- The index after `Commit` of the batch. -/
def Commit (index : StreamIndex P Id) : StreamIndex P Id := fun key =>
  match b.changes key with
  | some loc => some loc
  | none => index key

theorem commit_eq (index : StreamIndex P Id) (id : Id) :
    b.Commit index id = (b.changes id).or (index id) := by
  unfold Commit
  cases b.changes id <;> rfl

end StreamIndexThread

/-- The tables of the writers: an equality delete file lists ids. -/
abbrev IdTable (P Id K V D : Type) := Table P V (Record Id K V D) (List Id)

abbrev IdDelta (P Id K V D : Type) := Delta P V (Record Id K V D) (List Id)

/-- Rows, and where they landed. -/
abbrev Landings (P Id K V D : Type) := List (RowLocation P × Record Id K V D)

/-- The positional delete files that are read for a data file. -/
abbrev FileMatch (P Id K V D : Type) := PositionDelete P V → DataFile P V (Record Id K V D) → Bool

/-- The reader of such tables; how positional delete files are matched is left open. -/
def idReader [DecidableEq Id] (covers : FileMatch P Id K V D) :
    Reader P V (Record Id K V D) (List Id) where
  scope values values' := values = values'
  hits ids row := row.id ∈ ids
  covers := covers

instance [DecidableEq Id] [DecidableEq V] (covers : FileMatch P Id K V D) (values values' : V) :
    Decidable ((idReader covers).scope values values') :=
  inferInstanceAs (Decidable (values = values'))

/-- `commitThread`, as far as files go.  `none`: there are no files, and nothing is
committed at all. -/
def commitThread {K R E : Type} [DecidableEq P] (rd : Reader P K R E) (t : Table P K R E)
    (δ : Delta P K R E) : Option (Table P K R E) :=
  if δ.data.isEmpty && δ.equalityDeletes.isEmpty && δ.positionDeletes.isEmpty && δ.vectors.isEmpty then
    none
  else some (t.commit rd δ)

section CommitThread

variable {K R E : Type} [DecidableEq P] {rd : Reader P K R E} {t t' : Table P K R E} {δ : Delta P K R E}

theorem commitThread_eq_none :
    commitThread rd t δ = none ↔
      δ.data = [] ∧ δ.equalityDeletes = [] ∧ δ.positionDeletes = [] ∧ δ.vectors = [] := by
  simp [commitThread, and_assoc]

theorem commitThread_eq_some (h : commitThread rd t δ = some t') : t' = t.commit rd δ := by
  unfold commitThread at h
  split at h
  · cases h
  · exact (Option.some.inj h).symm

end CommitThread

end Olake.IcebergWriter
