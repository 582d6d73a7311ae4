/-
What the arrow writer has staged, whichever file it is in.

The writer of a partition appends to buffers, writes the buffers to open files, rolls
and finishes the files.  None of that moves a row or drops a delete: `Same` says that
two states of the writer stage the same rows, the same ids and the same positions.  The
one thing that stages something new is `placeRecord` (`Placed`).
-/
import Olake.Model.Iceberg.ArrowWriter

namespace Olake.Arrow

open Iceberg IcebergWriter Rolling Function Lane

variable {P Id K V D : Type}

/-! ### The files of a writer -/

/-- The data file of a partition with the rows that are still in the buffer. -/
def Writer.dataFile (writer : Writer P Id K V D) : Option (File P V (Record Id K V D)) :=
  writer.dataWriter.map (fun f => ⟨f.filePath, f.rows ++ writer.data, f.partitionValues⟩)

/-- The equality delete file of a partition with the ids in the buffer. -/
def Writer.eqFile (writer : Writer P Id K V D) : Option (File P V Id) :=
  writer.equalityDeleteWriter.map
    (fun f => ⟨f.filePath, f.rows ++ writer.equalityDeletes, f.partitionValues⟩)

abbrev lane {α : Type} (files : CreatedFiles P Id K V D → List (RollingWriter P V α))
    (file : Writer P Id K V D → Option (File P V α)) (w : ArrowWriter P Id K V D) :
    Lane K P V α where
  created := files w.createdFiles
  opened k := (w.writers k).bind file

def dataLane : ArrowWriter P Id K V D → Lane K P V (Record Id K V D) :=
  lane CreatedFiles.dataFiles Writer.dataFile

def eqLane : ArrowWriter P Id K V D → Lane K P V Id :=
  lane CreatedFiles.eqDeleteFiles Writer.eqFile

def posLane : ArrowWriter P Id K V D → Lane K P V (RowLocation P) :=
  lane CreatedFiles.posDeleteFiles Writer.positionalDeleteWriter

/-- The position is in the buffer of a partition. -/
def Noted (w : ArrowWriter P Id K V D) (loc : RowLocation P) : Prop :=
  ∃ k writer, w.writers k = some writer ∧ loc ∈ writer.positionalDeletes

/-- The position is in the buffer for deletion vectors. -/
def Pending (pending : List (PendingVector P V)) (loc : RowLocation P) : Prop :=
  ∃ v ∈ pending, v.path = loc.path ∧ loc.position ∈ v.positions

/-- The position is on its way into a deletion vector. -/
def Queued (w : ArrowWriter P Id K V D) (loc : RowLocation P) : Prop :=
  Pending w.pendingVectors loc ∨ loc ∈ w.vectors

/-- The thread deletes the position. -/
def Position (w : ArrowWriter P Id K V D) (loc : RowLocation P) : Prop :=
  (∃ values, (posLane w).HasItem values loc) ∨ Noted w loc ∨ Queued w loc

def idPosition (w : ArrowWriter P Id K V D) (k : K) (id : Id) : Option (RowLocation P) :=
  (w.writers k).bind (fun writer => writer.olakeIDPosition id)

/-- The buffers of a partition are for files that are open, and they are filled
together. -/
structure Writer.Ready (upsertMode : Bool) (deleteMode : UpdateType) (writer : Writer P Id K V D) :
    Prop where
  data : writer.dataWriter = none → writer.data = []
  equality : writer.equalityDeleteWriter = none → writer.equalityDeletes = []
  position : deleteMode ≠ .deletionVector → writer.positionalDeleteWriter = none →
    writer.positionalDeletes = []
  empty : writer.data = [] → writer.equalityDeletes = [] ∧ writer.positionalDeletes = []
  append : upsertMode = false → writer.equalityDeletes = [] ∧ writer.positionalDeletes = []
  closed : upsertMode = false → writer.equalityDeleteWriter = none ∧ writer.positionalDeleteWriter = none
  vector : deleteMode = .deletionVector → writer.positionalDeleteWriter = none

/-- Every partition is ready, there is an index in the modes that need one, and the files
are those of the mode. -/
structure Ready (w : ArrowWriter P Id K V D) : Prop where
  index : w.indexThread.isSome = w.deleteMode.NeedsTableIndex
  writers : ∀ k writer, w.writers k = some writer → writer.Ready w.upsertMode w.deleteMode
  noVectors : w.deleteMode ≠ .deletionVector → w.pendingVectors = [] ∧ w.vectors = []
  noFiles : w.deleteMode = .deletionVector → w.createdFiles.posDeleteFiles = []

/-- The second state of the writer stages what the first one does. -/
structure Same (alloc : Nat → P) (w w' : ArrowWriter P Id K V D) : Prop extends
    Rolled alloc (dataLane w) w.allocated (dataLane w') w'.allocated where
  ids : ∀ values id, (eqLane w').HasItem values id ↔ (eqLane w).HasItem values id
  positions : ∀ loc, Position w' loc ↔ Position w loc
  idPosition : ∀ k id, idPosition w' k id = idPosition w k id
  index : w'.indexThread = w.indexThread
  upsertMode : w'.upsertMode = w.upsertMode
  deleteMode : w'.deleteMode = w.deleteMode
  ready : Ready w → Ready w'

theorem Same.refl (alloc : Nat → P) (w : ArrowWriter P Id K V D) : Same alloc w w where
  toRolled := .refl _ (Nat.le_refl _)
  ids _ _ := Iff.rfl
  positions _ := Iff.rfl
  idPosition _ _ := rfl
  index := rfl
  upsertMode := rfl
  deleteMode := rfl
  ready h := h

theorem Same.trans (h : Same alloc w₁ w₂) (h' : Same alloc w₂ w₃) : Same alloc w₁ w₃ where
  toRolled := h.toRolled.trans h'.toRolled
  ids values id := (h'.ids values id).trans (h.ids values id)
  positions loc := (h'.positions loc).trans (h.positions loc)
  idPosition k id := (h'.idPosition k id).trans (h.idPosition k id)
  index := h'.index.trans h.index
  upsertMode := h'.upsertMode.trans h.upsertMode
  deleteMode := h'.deleteMode.trans h.deleteMode
  ready hr := h'.ready (h.ready hr)

/-! ### Lanes of a changed writer -/

section Lanes

variable [DecidableEq K] {w : ArrowWriter P Id K V D} {k : K} {writer : Writer P Id K V D}

theorem lane_setWriter {α : Type} {files : CreatedFiles P Id K V D → List (RollingWriter P V α)}
    {file : Writer P Id K V D → Option (File P V α)} :
    lane files file (setWriter w k writer) =
      (lane files file w).set (files w.createdFiles) k (file writer) := by
  simp only [setWriter, mk.injEq, true_and]
  funext k'
  simp only [update_apply]
  split <;> rfl

theorem idPosition_setWriter {id : Id} : idPosition (setWriter w k writer) k' id =
      if k' = k then writer.olakeIDPosition id else idPosition w k' id := by
  simp only [idPosition, setWriter, update_apply]
  split <;> rfl

theorem ready_setWriter (hw : Ready w) (hwriter : writer.Ready w.upsertMode w.deleteMode) :
    Ready (setWriter w k writer) := by
  refine ⟨hw.index, fun k' writer' hk' => ?_, hw.noVectors, hw.noFiles⟩
  simp only [setWriter, update_apply] at hk'
  split at hk'
  · cases hk'
    exact hwriter
  · exact hw.writers k' writer' hk'

/-- The buffers are that of a partition and those of the others. -/
theorem noted_iff (w : ArrowWriter P Id K V D) (k : K) :
    Noted w loc ↔ loc ∈ ((w.writers k).getD .new).positionalDeletes ∨
      ∃ k' writer', k' ≠ k ∧ w.writers k' = some writer' ∧ loc ∈ writer'.positionalDeletes := by
  constructor
  · rintro ⟨k', writer', hk', hmem⟩
    by_cases hne : k' = k
    · subst hne
      rw [hk']
      exact .inl hmem
    · exact .inr ⟨k', writer', hne, hk', hmem⟩
  · rintro (hmem | ⟨k', writer', -, hk', hmem⟩)
    · cases hk : w.writers k with
      | none =>
        rw [hk] at hmem
        cases hmem
      | some writer' =>
        rw [hk] at hmem
        exact ⟨k, writer', hk, hmem⟩
    · exact ⟨k', writer', hk', hmem⟩

theorem noted_setWriter :
    Noted (setWriter w k writer) loc ↔
      loc ∈ writer.positionalDeletes ∨
        ∃ k' writer', k' ≠ k ∧ w.writers k' = some writer' ∧ loc ∈ writer'.positionalDeletes := by
  rw [noted_iff _ k]
  refine or_congr (by simp [setWriter]) (exists_congr fun k' => exists_congr fun _ => and_congr_right fun hne => ?_)
  simp [setWriter, hne]

end Lanes

/-! ### Opening files -/

/-- A file is open as before, or an empty one was opened. -/
def Started {α : Type} (before after : Option (File P V α)) : Prop :=
  after = before ∨ before = none ∧ ∃ path values, after = some ⟨path, [], values⟩

section Started

variable {α : Type} [DecidableEq K] {l : Lane K P V α} {k : K} {after : Option (File P V α)}

theorem Started.before (h : Started b none) : b = none := by rcases h with rfl | ⟨rfl, -⟩ <;> rfl

theorem hasItem_started (h : Started (l.opened k) after) :
    (l.set l.created k after).HasItem values x ↔ l.HasItem values x := by
  rcases h with rfl | ⟨hnone, p, values, rfl⟩
  · rw [Lane.set, update_eq_self]
  · exact hasItem_start hnone

end Started

section Opening

variable {alloc : Nat → P} {n : Nat}

theorem orCreate_started {α : Type} {existing : Option (RollingWriter P V α)} :
    Started existing (some (orCreate alloc existing values n).1) := by
  cases existing with
  | none => exact .inr ⟨rfl, _, _, rfl⟩
  | some rw => exact .inl rfl

theorem le_orCreate {α : Type} {existing : Option (RollingWriter P V α)} :
    n ≤ (orCreate alloc existing values n).2 := by
  cases existing with
  | none => exact Nat.le_succ n
  | some rw => exact Nat.le_refl n

variable {w : ArrowWriter P Id K V D} {writer : Writer P Id K V D} {values : V}

/-- What `withRollingWriters` does to a writer. -/
structure Rolls (alloc : Nat → P) (w : ArrowWriter P Id K V D) (values : V)
    (writer writer' : Writer P Id K V D) (n : Nat) : Prop where
  data : writer'.data = writer.data
  equalityDeletes : writer'.equalityDeletes = writer.equalityDeletes
  positionalDeletes : writer'.positionalDeletes = writer.positionalDeletes
  olakeIDPosition : writer'.olakeIDPosition = writer.olakeIDPosition
  dataWriter : writer'.dataWriter = some (orCreate alloc writer.dataWriter values w.allocated).1
  equality : Started writer.equalityDeleteWriter writer'.equalityDeleteWriter
  position : Started writer.positionalDeleteWriter writer'.positionalDeleteWriter
  allocated : (orCreate alloc writer.dataWriter values w.allocated).2 ≤ n
  equality_open : w.upsertMode → w.deleteMode ≠ .deletionVector → w.indexThread = none →
    writer'.equalityDeleteWriter =
      some (orCreate alloc writer.equalityDeleteWriter values
        (orCreate alloc writer.dataWriter values w.allocated).2).1
  position_open : w.upsertMode → w.deleteMode ≠ .deletionVector →
    writer'.positionalDeleteWriter.isSome
  append : w.upsertMode = false → writer'.equalityDeleteWriter = writer.equalityDeleteWriter ∧
    writer'.positionalDeleteWriter = writer.positionalDeleteWriter
  vector : w.deleteMode = .deletionVector →
    writer'.positionalDeleteWriter = writer.positionalDeleteWriter

theorem withRollingWriters_spec :
    Rolls alloc w values writer (withRollingWriters alloc w writer values).1
      (withRollingWriters alloc w writer values).2 := by
  unfold withRollingWriters
  split
  · next hmode =>
    have hupsert : w.upsertMode ≠ false := by
      intro hu
      simp [hu] at hmode
    have hfiles : w.deleteMode ≠ .deletionVector := by
      intro hd
      simp [hd] at hmode
    split
    · exact ⟨rfl, rfl, rfl, rfl, rfl, orCreate_started, orCreate_started,
        Nat.le_trans le_orCreate le_orCreate, fun _ _ _ => rfl, fun _ _ => rfl,
        fun hu => absurd hu hupsert, fun hd => absurd hd hfiles⟩
    · next hindex =>
      refine ⟨rfl, rfl, rfl, rfl, rfl, .inl rfl, orCreate_started, le_orCreate, fun _ _ h => ?_,
        fun _ _ => rfl, fun hu => absurd hu hupsert, fun hd => absurd hd hfiles⟩
      rw [h] at hindex
      exact absurd rfl hindex
  · next hmode =>
    refine ⟨rfl, rfl, rfl, rfl, rfl, .inl rfl, .inl rfl, Nat.le_refl _, fun hu hd => ?_,
      fun hu hd => ?_, fun _ => ⟨rfl, rfl⟩, fun _ => rfl⟩
    · simp [hu, hd] at hmode
    · simp [hu, hd] at hmode

theorem new_ready : (Writer.new : Writer P Id K V D).Ready upsertMode deleteMode :=
  ⟨fun _ => rfl, fun _ => rfl, fun _ _ => rfl, fun _ => ⟨rfl, rfl⟩, fun _ => ⟨rfl, rfl⟩,
    fun _ => ⟨rfl, rfl⟩, fun _ => rfl⟩

theorem getD_ready (hw : Ready w) (k : K) :
    ((w.writers k).getD .new).Ready w.upsertMode w.deleteMode := by
  cases hk : w.writers k with
  | none => exact new_ready
  | some writer => exact hw.writers k writer hk

variable {writer' : Writer P Id K V D}

theorem Rolls.ready (h : Rolls alloc w values writer writer' n)
    (hr : writer.Ready w.upsertMode w.deleteMode) : writer'.Ready w.upsertMode w.deleteMode where
  data hnone := by
    rw [h.dataWriter] at hnone
    cases hnone
  equality hnone := by
    rw [h.equalityDeletes]
    exact hr.equality (hnone ▸ h.equality).before
  position hmode hnone := by
    rw [h.positionalDeletes]
    exact hr.position hmode (hnone ▸ h.position).before
  empty hdata := by
    rw [h.equalityDeletes, h.positionalDeletes]
    exact hr.empty (h.data ▸ hdata)
  append hmode := by
    rw [h.equalityDeletes, h.positionalDeletes]
    exact hr.append hmode
  closed hmode := by
    rw [(h.append hmode).1, (h.append hmode).2]
    exact hr.closed hmode
  vector hmode := (h.vector hmode).trans (hr.vector hmode)

/-- The data file of a partition after `getOrCreateWriter`: the open one, or an empty one
with the next path. -/
theorem Rolls.dataFile (h : Rolls alloc w values writer writer' n)
    (hr : writer.Ready w.upsertMode w.deleteMode) :
    (writer'.dataFile = writer.dataFile ∧ writer.dataFile.isSome) ∨
      writer.dataFile = none ∧ writer'.dataFile = some ⟨alloc w.allocated, [], values⟩ ∧
        w.allocated < n := by
  have hle := h.allocated
  cases hd : writer.dataWriter with
  | none =>
    refine .inr ⟨by simp [Writer.dataFile, hd], ?_, ?_⟩
    · simp [Writer.dataFile, h.dataWriter, hd, orCreate, h.data, hr.data hd]
    · rw [hd] at hle
      exact hle
  | some rw =>
    exact .inl ⟨by simp [Writer.dataFile, h.dataWriter, hd, orCreate, h.data],
      by simp [Writer.dataFile, hd]⟩

theorem Rolls.eqFile (h : Rolls alloc w values writer writer' n)
    (hr : writer.Ready w.upsertMode w.deleteMode) : Started writer.eqFile writer'.eqFile := by
  rcases h.equality with heq | ⟨hnone, path, v, heq⟩
  · exact .inl (by rw [Writer.eqFile, Writer.eqFile, heq, h.equalityDeletes])
  · refine .inr ⟨by simp [Writer.eqFile, hnone], path, v, ?_⟩
    simp [Writer.eqFile, heq, h.equalityDeletes, hr.equality hnone]

theorem bind_writers {β : Type} {f : Writer P Id K V D → Option β} (hnew : f .new = none) (k : K) :
    (w.writers k).bind f = f ((w.writers k).getD .new) := by
  cases hk : w.writers k with
  | none => exact hnew.symm
  | some writer => rfl

theorem noted_setWriter_of_eq [DecidableEq K]
    (h : writer.positionalDeletes = ((w.writers k).getD .new).positionalDeletes) :
    Noted (setWriter { w with allocated := n } k writer) loc ↔ Noted w loc := by
  rw [noted_setWriter, h, ← noted_iff]

theorem same_getOrCreateWriter [DecidableEq K] (halloc : Function.Injective alloc) (hw : Ready w)
    (k : K) : Same alloc w (getOrCreateWriter alloc w k values).1 := by
  have hr := getD_ready hw k
  have hrolls : Rolls alloc w values ((w.writers k).getD .new) _ _ := withRollingWriters_spec
  unfold getOrCreateWriter
  generalize withRollingWriters alloc w ((w.writers k).getD .new) values = created at hrolls ⊢
  have hle : w.allocated ≤ created.2 := Nat.le_trans le_orCreate hrolls.allocated
  have hdata : dataLane (setWriter { w with allocated := created.2 } k created.1) =
      (dataLane w).set (dataLane w).created k created.1.dataFile := lane_setWriter
  have hopened : (dataLane w).opened k = _ := bind_writers rfl k
  have hdataFile := hrolls.dataFile hr
  rw [← hopened] at hdataFile
  refine ⟨?_, fun v id => ?_, fun loc => ?_, fun k' id => ?_, rfl, rfl, rfl,
    fun _ => ready_setWriter ⟨hw.index, hw.writers, hw.noVectors, hw.noFiles⟩ (hrolls.ready hr)⟩
  · rw [hdata]
    rcases hdataFile with ⟨heq, -⟩ | ⟨hnone, heq, hlt⟩
    · rw [heq, Lane.set, update_eq_self]
      exact .refl _ hle
    · rw [heq]
      exact (Rolled.start halloc hnone _ values).trans (.refl _ hlt)
  · rw [eqLane, lane_setWriter]
    have hopened : (eqLane w).opened k = _ := bind_writers rfl k
    exact hasItem_started (l := eqLane w) (hopened ▸ hrolls.eqFile hr)
  · rw [Position, noted_setWriter_of_eq hrolls.positionalDeletes, posLane, lane_setWriter]
    have hopened : (posLane w).opened k = _ := bind_writers rfl k
    exact or_congr (exists_congr fun v => hasItem_started (l := posLane w) (hopened ▸ hrolls.position))
      Iff.rfl
  · rw [idPosition_setWriter]
    split
    · next heq => rw [heq, hrolls.olakeIDPosition, idPosition, bind_writers rfl]
    · rfl

end Opening

/-! ### Placing a record -/

section Placing

/-- The thread looks for an older row of the record's id without an index. -/
def Dedups (w : ArrowWriter P Id K V D) (rec : Record Id K V D) : Prop :=
  w.indexThread = none ∧ w.upsertMode = true ∧ rec.op ≠ .r

instance (w : ArrowWriter P Id K V D) (rec : Record Id K V D) : Decidable (Dedups w rec) :=
  inferInstanceAs (Decidable (_ ∧ _))

variable [DecidableEq Id]

/-- The positions that a record supersedes. -/
def positionDeletes (w : ArrowWriter P Id K V D) (rec : Record Id K V D) : List (RowLocation P) :=
  match w.indexThread with
  | some thread => indexDeletes w.upsertMode thread rec
  | none => if Dedups w rec then (idPosition w rec.pKey rec.id).toList else []

/-- The ids that a record supersedes in older files of its partition. -/
def idDeletes (w : ArrowWriter P Id K V D) (rec : Record Id K V D) : List Id :=
  if Dedups w rec ∧ idPosition w rec.pKey rec.id = none then [rec.id] else []

variable [DecidableEq K] {alloc : Nat → P} {w : ArrowWriter P Id K V D} {writer : Writer P Id K V D}
  {rec : Record Id K V D} {loc : RowLocation P} (hk : w.writers rec.pKey = some writer)
include hk

theorem placeRecord_eq :
    placeRecord w writer rec loc =
      setWriter { w with indexThread := w.indexThread.map (fun thread => thread.Put rec.id loc) } rec.pKey
        { writer with
          data := writer.data ++ [storedRow w rec]
          equalityDeletes := writer.equalityDeletes ++ idDeletes w rec
          positionalDeletes := writer.positionalDeletes ++ positionDeletes w rec
          olakeIDPosition := if Dedups w rec then
              Function.update writer.olakeIDPosition rec.id (some loc)
            else writer.olakeIDPosition } := by
  have hid : idPosition w rec.pKey rec.id = writer.olakeIDPosition rec.id := by
    rw [idPosition, hk]
    rfl
  unfold placeRecord positionDeletes idDeletes
  rw [hid]
  cases hindex : w.indexThread with
  | some thread => simp [Dedups, hindex]
  | none =>
    have hsame : ({ w with indexThread := none } : ArrowWriter P Id K V D) = w := by rw [← hindex]
    simp only [Option.map_none, hsame]
    by_cases hmode : w.upsertMode = true
    · by_cases hop : rec.op = .r
      · simp [Dedups, hop, dedupRecord]
      · cases hpos : writer.olakeIDPosition rec.id with
        | none | some => simp [Dedups, hindex, hmode, hop, dedupRecord, hpos]
    · simp [Dedups, hmode]

theorem dataLane_placeRecord :
    dataLane (placeRecord w writer rec loc) = (dataLane w).push rec.pKey [storedRow w rec] := by
  rw [placeRecord_eq hk, dataLane, lane_setWriter, push]
  cases hd : writer.dataWriter with
  | none | some => simp [hk, Writer.dataFile, hd]

theorem eqLane_placeRecord :
    eqLane (placeRecord w writer rec loc) = (eqLane w).push rec.pKey (idDeletes w rec) := by
  rw [placeRecord_eq hk, eqLane, lane_setWriter, push]
  cases hd : writer.equalityDeleteWriter with
  | none | some => simp [hk, Writer.eqFile, hd]

theorem posLane_placeRecord : posLane (placeRecord w writer rec loc) = posLane w := by
  rw [placeRecord_eq hk, posLane, lane_setWriter]
  simp [hk]

theorem position_placeRecord :
    Position (placeRecord w writer rec loc) l ↔ Position w l ∨ l ∈ positionDeletes w rec := by
  have hnoted : Noted (placeRecord w writer rec loc) l ↔ Noted w l ∨ l ∈ positionDeletes w rec := by
    rw [placeRecord_eq hk, noted_setWriter, List.mem_append, noted_iff w rec.pKey, hk, or_right_comm]
    rfl
  have hqueued : Queued (placeRecord w writer rec loc) l ↔ Queued w l := by
    rw [placeRecord_eq hk]
    exact Iff.rfl
  rw [Position, Position, posLane_placeRecord hk]
  tauto

theorem idPosition_placeRecord {id : Id} :
    idPosition (placeRecord w writer rec loc) k id =
      if Dedups w rec ∧ k = rec.pKey ∧ id = rec.id then some loc else idPosition w k id := by
  rw [placeRecord_eq hk, idPosition_setWriter]
  by_cases hpk : k = rec.pKey
  · subst hpk
    by_cases hd : Dedups w rec <;> by_cases hid : id = rec.id <;> simp [hd, hid, idPosition, hk]
  · simp only [hpk, false_and, and_false]
    rfl

omit hk

omit [DecidableEq Id] [DecidableEq K] in
theorem upsertMode_of_positionDeletes (h : positionDeletes w rec ≠ []) : w.upsertMode = true := by
  by_contra hmode
  apply h
  unfold positionDeletes
  split
  · simp [indexDeletes, hmode]
  · simp [Dedups, hmode]

omit [DecidableEq Id] [DecidableEq K] in
theorem Ready.equality_of_dedups (hw : Ready w) (h : Dedups w rec) : w.deleteMode = .equality := by
  have hindex := hw.index
  rw [h.1] at hindex
  cases hmode : w.deleteMode <;> simp [hmode, UpdateType.NeedsTableIndex] at hindex ⊢

theorem ready_placeRecord (hw : Ready w) (hk : w.writers rec.pKey = some writer)
    (hdata : writer.dataWriter.isSome) (heq : Dedups w rec → writer.equalityDeleteWriter.isSome)
    (hpos : w.upsertMode → w.deleteMode ≠ .deletionVector → writer.positionalDeleteWriter.isSome) :
    Ready (placeRecord w writer rec loc) := by
  have hr := hw.writers _ writer hk
  rw [placeRecord_eq hk]
  refine ready_setWriter ⟨by simpa using hw.index, hw.writers, hw.noVectors, hw.noFiles⟩
    ⟨fun hnone => ?_, fun hnone => ?_, fun hmode hnone => ?_, fun hnil => ?_, fun hmode => ?_,
      hr.closed, hr.vector⟩
  · rw [show writer.dataWriter = none from hnone] at hdata
    cases hdata
  · have hno : ¬ Dedups w rec := by
      intro hd
      rw [show writer.equalityDeleteWriter = none from hnone] at heq
      cases heq hd
    simp [hr.equality hnone, idDeletes, hno]
  · have hno : positionDeletes w rec = [] := by
      by_contra hne
      have hsome := hpos (upsertMode_of_positionDeletes hne) hmode
      rw [show writer.positionalDeleteWriter = none from hnone] at hsome
      cases hsome
    simp [hr.position hmode hnone, hno]
  · simp at hnil
  · have hmode : w.upsertMode = false := hmode
    have hno : positionDeletes w rec = [] := by
      by_contra hne
      rw [upsertMode_of_positionDeletes hne] at hmode
      cases hmode
    simp [hr.append hmode, hno, idDeletes, Dedups, hmode]

/-- The partition values of the equality deletes for a record: those of the open file, or
the record's own. -/
def label (w : ArrowWriter P Id K V D) (rec : Record Id K V D) : V :=
  match (w.writers rec.pKey).bind Writer.equalityDeleteWriter with
  | some ew => ew.partitionValues
  | none => rec.values

/-- What `extractRecord` adds to the staged files. -/
structure Placed (alloc : Nat → P) (w w' : ArrowWriter P Id K V D) (rec : Record Id K V D)
    (loc : RowLocation P) (row : Record Id K V D) : Prop extends
    Pushed alloc (dataLane w) w.allocated (dataLane w') w'.allocated loc.path loc.position row where
  ids : ∀ values id, (eqLane w').HasItem values id ↔
    (eqLane w).HasItem values id ∨ values = label w rec ∧ id ∈ idDeletes w rec
  positions : ∀ l, Position w' l ↔ Position w l ∨ l ∈ positionDeletes w rec
  idPosition : ∀ k id, Arrow.idPosition w' k id =
    if Dedups w rec ∧ k = rec.pKey ∧ id = rec.id then some loc else Arrow.idPosition w k id
  index : w'.indexThread = w.indexThread.map (fun thread => thread.Put rec.id loc)
  upsertMode : w'.upsertMode = w.upsertMode
  deleteMode : w'.deleteMode = w.deleteMode
  ready : Ready w'
  row_id : row.id = rec.id
  row_pKey : row.pKey = rec.pKey

omit [DecidableEq Id] [DecidableEq K] in
theorem Same.deletes (h : Same alloc w w') (rec : Record Id K V D) :
    (Dedups w' rec ↔ Dedups w rec) ∧ positionDeletes w' rec = positionDeletes w rec ∧
      idDeletes w' rec = idDeletes w rec := by
  have hd : Dedups w' rec ↔ Dedups w rec := by rw [Dedups, Dedups, h.index, h.upsertMode]
  refine ⟨hd, ?_, ?_⟩
  · rw [positionDeletes, positionDeletes, h.index, h.upsertMode, h.idPosition]
    simp only [hd]
  · rw [idDeletes, idDeletes, h.idPosition]
    simp only [hd]

omit [DecidableEq Id] [DecidableEq K] in
/-- The equality delete file that is open for a record that is looked for by id. -/
theorem Rolls.label
    (h : Rolls alloc w rec.values ((w.writers rec.pKey).getD .new) writer' n) (hw : Ready w)
    (hd : Dedups w rec) : ∃ g, writer'.eqFile = some g ∧ g.partitionValues = label w rec := by
  have hopen := h.equality_open hd.2.1 (by rw [hw.equality_of_dedups hd]; decide) hd.1
  refine ⟨_, by rw [Writer.eqFile, hopen]; rfl, ?_⟩
  cases hk : w.writers rec.pKey with
  | none => simp [Arrow.label, hk, Writer.new, orCreate]
  | some writer =>
    cases he : writer.equalityDeleteWriter with
    | none | some => simp [Arrow.label, hk, he, orCreate]

/-- One turn of `extract` places the record and stages what it supersedes. -/
theorem extractRecord_placed (halloc : Function.Injective alloc) (hw : Ready w)
    (rec : Record Id K V D) :
    ∃ loc row, landing alloc w rec = some (loc, row) ∧
      Placed alloc w (extractRecord alloc w rec) rec loc row := by
  have hsame : Same alloc w (getOrCreateWriter alloc w rec.pKey rec.values).1 :=
    same_getOrCreateWriter halloc hw rec.pKey
  have hrolls : Rolls alloc w rec.values ((w.writers rec.pKey).getD .new)
      (getOrCreateWriter alloc w rec.pKey rec.values).2 _ := withRollingWriters_spec
  have hk : (getOrCreateWriter alloc w rec.pKey rec.values).1.writers rec.pKey =
      some (getOrCreateWriter alloc w rec.pKey rec.values).2 := by
    simp [getOrCreateWriter, setWriter]
  have hreads : ∀ loc, nextLocation (getOrCreateWriter alloc w rec.pKey rec.values).2 = some loc →
      extractRecord alloc w rec = placeRecord (getOrCreateWriter alloc w rec.pKey rec.values).1
        (getOrCreateWriter alloc w rec.pKey rec.values).2 rec loc := by
    intro loc hloc
    simp only [extractRecord, hloc]
  have hland : landing alloc w rec = (nextLocation
      (getOrCreateWriter alloc w rec.pKey rec.values).2).map (fun loc =>
        (loc, storedRow (getOrCreateWriter alloc w rec.pKey rec.values).1 rec)) := rfl
  generalize getOrCreateWriter alloc w rec.pKey rec.values = got at hsame hrolls hk hreads hland
  obtain ⟨w₁, writer⟩ := got
  dsimp only at hsame hrolls hk hreads hland
  obtain ⟨dw, hdw⟩ : ∃ dw, writer.dataWriter = some dw := ⟨_, hrolls.dataWriter⟩
  have hready := hsame.ready hw
  obtain ⟨hdedups, hpositions, hids⟩ := hsame.deletes rec
  have hnext : nextLocation writer = some ⟨dw.filePath, dw.rows.length + writer.data.length⟩ := by
    rw [nextLocation, hdw]
    rfl
  rw [hnext] at hland
  have hopened : (dataLane w₁).opened rec.pKey =
      some ⟨dw.filePath, dw.rows ++ writer.data, dw.partitionValues⟩ := by
    simp [dataLane, hk, Writer.dataFile, hdw]
  refine ⟨_, _, hland, ?_⟩
  rw [hreads _ hnext]
  refine ⟨?_, fun values id => ?_, fun l => ?_, fun k id => ?_, ?_, ?_, ?_, ?_, rfl, rfl⟩
  · rw [dataLane_placeRecord hk, placeRecord_eq hk, ← List.length_append]
    exact hsame.toRolled.pushed (.push hopened _)
  · rw [eqLane_placeRecord hk, hids]
    by_cases hd : Dedups w rec
    · obtain ⟨g, hg, hvalues⟩ := hrolls.label hw hd
      rw [hasItem_push (show (eqLane w₁).opened rec.pKey = some g by simp [eqLane, hk, hg]),
        hsame.ids, hvalues, eq_comm]
    · have hnil : idDeletes w rec = [] := by simp [idDeletes, hd]
      simp [hnil, push_nil, hsame.ids]
  · rw [position_placeRecord hk, hsame.positions, hpositions]
  · rw [idPosition_placeRecord hk, hsame.idPosition]
    simp only [hdedups]
  · rw [placeRecord_eq hk, ← hsame.index]
    rfl
  · rw [placeRecord_eq hk, ← hsame.upsertMode]
    rfl
  · rw [placeRecord_eq hk, ← hsame.deleteMode]
    rfl
  · refine ready_placeRecord hready hk (by simp [hdw]) (fun hd => ?_) (fun hu hm => ?_)
    · obtain ⟨g, hg, -⟩ := hrolls.label hw (hdedups.1 hd)
      by_contra hno
      simp [Writer.eqFile, Option.not_isSome_iff_eq_none.1 hno] at hg
    · rw [hsame.upsertMode] at hu
      rw [hsame.deleteMode] at hm
      exact hrolls.position_open hu hm

end Placing

end Olake.Arrow
