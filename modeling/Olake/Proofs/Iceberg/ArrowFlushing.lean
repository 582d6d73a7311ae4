/-
Writing and finishing the files of the arrow writer keeps what is staged.

Every turn of the loops of `Write` and `completeWriters` is shown to be a `Same`, and
the loops leave the buffers empty and the files closed.  Then the files that are
registered for the commit are all there is (`delta_holds`, `delta_equality`,
`delta_position`).
-/
import Olake.Proofs.Iceberg.ArrowStaging

namespace Olake.Arrow

open Iceberg IcebergWriter Rolling List Function Lane

variable {P Id K V D : Type}

/-! ### Vectors -/

section Vectors

variable {w : ArrowWriter P Id K V D} {loc : RowLocation P}

theorem queued_sendPendingVectors : Queued (sendPendingVectors w) loc ↔ Queued w loc := by
  simp only [Queued, Pending, sendPendingVectors, not_mem_nil, false_and, exists_false, false_or,
    mem_append, mem_flatMap, mem_map]
  constructor
  · rintro (hmem | ⟨v, hv, i, hi, rfl⟩)
    · exact .inr hmem
    · exact .inl ⟨v, hv, rfl, hi⟩
  · rintro (⟨v, hv, hpath, hi⟩ | hmem)
    · exact .inr ⟨v, hv, loc.position, hi, by rw [hpath]⟩
    · exact .inl hmem

variable [DecidableEq P] {pending : List (PendingVector P V)}

theorem pending_queueVectorDelete :
    Pending (queueVectorDelete values pending d) loc ↔ Pending pending loc ∨ loc = d := by
  unfold queueVectorDelete
  split
  · next hany =>
    constructor
    · rintro ⟨_, hmem, hpath, hi⟩
      obtain ⟨v, hv, rfl⟩ := mem_map.1 hmem
      split at hpath
      · next heq =>
        simp only [heq, if_true, mem_append, mem_singleton] at hi hpath
        rcases hi with hi | hi
        · exact .inl ⟨v, hv, heq.trans hpath, hi⟩
        · refine .inr ?_
          cases loc
          cases d
          simp_all
      · next hne =>
        rw [if_neg hne] at hi
        exact .inl ⟨v, hv, hpath, hi⟩
    · rintro (⟨v, hv, hpath, hi⟩ | rfl)
      · refine ⟨_, mem_map.2 ⟨v, hv, rfl⟩, ?_, ?_⟩
        · split <;> exact hpath
        · split
          · exact mem_append_left _ hi
          · exact hi
      · obtain ⟨v, hv, hpath⟩ := any_eq_true.1 hany
        have hpath : v.path = loc.path := of_decide_eq_true hpath
        exact ⟨_, mem_map.2 ⟨v, hv, rfl⟩, by simp [hpath], by simp [hpath]⟩
  · constructor
    · rintro ⟨v, hv, hpath, hi⟩
      rcases mem_append.1 hv with hv | hv
      · exact .inl ⟨v, hv, hpath, hi⟩
      · rw [mem_singleton] at hv
        refine .inr ?_
        cases loc
        cases d
        simp_all
    · rintro (⟨v, hv, hpath, hi⟩ | rfl)
      · exact ⟨v, mem_append_left _ hv, hpath, hi⟩
      · exact ⟨_, mem_append_right _ (mem_singleton_self _), rfl, by simp⟩

theorem pending_queue {deletes : List (RowLocation P)} :
    Pending (deletes.foldl (queueVectorDelete values) pending) loc ↔ Pending pending loc ∨ loc ∈ deletes := by
  induction deletes generalizing pending with
  | nil => simp
  | cons d rest ih => rw [foldl_cons, ih, pending_queueVectorDelete, mem_cons, or_assoc]

theorem queued_queueVectorDeletes :
    Queued (queueVectorDeletes w deletes values) loc ↔ Queued w loc ∨ loc ∈ deletes := by
  have hqueue : Queued { w with
      pendingVectors := deletes.foldl (queueVectorDelete values) w.pendingVectors } loc ↔
        Queued w loc ∨ loc ∈ deletes := by
    rw [Queued, pending_queue]
    exact or_right_comm
  unfold queueVectorDeletes
  dsimp only
  split
  · exact hqueue
  · rw [queued_sendPendingVectors]
    exact hqueue

end Vectors

/-! ### Writing and finishing files -/

section Writing

variable [DecidableEq K] {alloc : Nat → P} {k : K}

/-- Writing a buffer to its file, and starting a new file if it is full, moves no row and no item. -/
theorem writeOpen_rolled (halloc : Function.Injective alloc) {α : Type} {l : Lane K P V α}
    {rw : Option (RollingWriter P V α)} {rows : List α} (full : Bool) (n : Nat)
    (h : l.opened k = rw.map (fun f => ⟨f.filePath, f.rows ++ rows, f.partitionValues⟩)) :
    Rolled alloc l n (l.set (writeOpen alloc full rw rows l.created n).2.1 k
      (writeOpen alloc full rw rows l.created n).1) (writeOpen alloc full rw rows l.created n).2.2 := by
  have hsame : ∀ f, f = l.opened k → Rolled alloc l n (l.set l.created k f) n := by
    intro f hf
    rw [Lane.set, update_eq_self_iff.2 hf]
    exact .refl l (Nat.le_refl n)
  cases rw with
  | none => exact hsame _ h.symm
  | some f =>
    cases full with
    | false => exact hsame _ h.symm
    | true =>
      have hlane : l.set (writeOpen alloc true (some f) rows l.created n).2.1 k
          (writeOpen alloc true (some f) rows l.created n).1 =
          (l.finish k).start k (alloc n) f.partitionValues := by
        simp [writeOpen, checkAndFlush, flush, finish, start, h]
      rw [hlane]
      exact Rolled.finish.trans (.start halloc (by simp [opened_finish]) n _)

variable [DecidableEq P] {w : ArrowWriter P Id K V D} {writer : Writer P Id K V D}

omit [DecidableEq K] in
theorem queueVectorDeletes_frame (deletes : List (RowLocation P)) (values : V) :
    queueVectorDeletes w deletes values =
      { w with
        pendingVectors := (queueVectorDeletes w deletes values).pendingVectors
        vectors := (queueVectorDeletes w deletes values).vectors } := by
  unfold queueVectorDeletes
  dsimp only
  split
  · rfl
  · rfl

omit [DecidableEq P] in
theorem set_posLane (hk : w.writers k = some writer) :
    (posLane w).set w.createdFiles.posDeleteFiles k writer.positionalDeleteWriter = posLane w := by
  rw [Lane.set, update_eq_self_iff.2]
  · rfl
  · simp [posLane, hk]

/-- The positions of a partition go to its positional delete file, or to the vectors. -/
theorem writePositionalDeletes_spec (halloc : Function.Injective alloc) (full : Full) (hk : w.writers k = some writer)
    (hr : writer.Ready w.upsertMode w.deleteMode) (hdata : writer.data ≠ []) :
    ∃ files n pending vectors pos, writePositionalDeletes alloc full w writer =
      ({ w with
          createdFiles := { w.createdFiles with posDeleteFiles := files }
          allocated := n
          pendingVectors := pending
          vectors := vectors },
        { writer with positionalDeleteWriter := pos }) ∧
      w.allocated ≤ n ∧
      (w.deleteMode ≠ .deletionVector → pending = w.pendingVectors ∧ vectors = w.vectors) ∧
      (w.deleteMode = .deletionVector →
        files = w.createdFiles.posDeleteFiles ∧ pos = writer.positionalDeleteWriter) ∧
      ∀ loc, ((∃ values, ((posLane w).set files k pos).HasItem values loc) ∨ Pending pending loc ∨
          loc ∈ vectors ↔
        (∃ values, (posLane w).HasItem values loc) ∨ loc ∈ writer.positionalDeletes ∨ Queued w loc) := by
  unfold writePositionalDeletes
  split
  · next hmode =>
    -- deletion vectors: the data file is open, since there are rows for it
    split
    · next dw hd =>
      refine ⟨_, _, _, _, writer.positionalDeleteWriter,
        Prod.ext (queueVectorDeletes_frame writer.positionalDeletes dw.partitionValues) rfl,
        Nat.le_refl _, fun h => absurd hmode h, fun _ => ⟨rfl, rfl⟩, fun loc => ?_⟩
      rw [set_posLane hk]
      refine or_congr Iff.rfl (Iff.trans ?_ or_comm)
      exact queued_queueVectorDeletes
    · next hd => exact absurd (hr.data hd) hdata
  · next hmode =>
    split
    · next hnil =>
      refine ⟨_, _, _, _, writer.positionalDeleteWriter, rfl, Nat.le_refl _, fun _ => ⟨rfl, rfl⟩,
        fun _ => ⟨rfl, rfl⟩, fun loc => ?_⟩
      rw [set_posLane hk, isEmpty_iff.1 hnil]
      simp [Queued]
    · next hnil =>
      obtain ⟨pos, hp⟩ : ∃ pos, writer.positionalDeleteWriter = some pos := by
        refine Option.ne_none_iff_exists'.1 fun hnone => ?_
        exact absurd (hr.position hmode hnone) (by simpa using hnil)
      have hopened : (posLane w).opened k = some pos := by simp [posLane, hk, hp]
      have hpush : ((posLane w).push k writer.positionalDeletes).opened k =
          writer.positionalDeleteWriter.map
            (fun f => ⟨f.filePath, f.rows ++ writer.positionalDeletes, f.partitionValues⟩) := by
        rw [Lane.opened_push, if_pos rfl, hopened, hp]
      have hwritten := writeOpen_rolled halloc full.positionalDelete w.allocated hpush
      refine ⟨_, _, _, _, _, rfl, hwritten.allocated, fun _ => ⟨rfl, rfl⟩, fun h => absurd h hmode,
        fun loc => ?_⟩
      have hitems : (∃ values, ((posLane w).push k writer.positionalDeletes).HasItem values loc) ↔
          (∃ values, (posLane w).HasItem values loc) ∨ loc ∈ writer.positionalDeletes := by
        simp only [Lane.hasItem_push hopened, exists_or, exists_eq_left']
      simp only [Lane.set, Lane.push, update_idem] at hwritten
      refine Iff.trans (or_congr ?_ Iff.rfl) or_assoc
      exact (exists_congr fun values => hwritten.items values loc).trans hitems

/-- What the deletes of a partition become.  The rows are not touched. -/
structure WritesDeletes (k : K) (w : ArrowWriter P Id K V D) (writer : Writer P Id K V D)
    (w' : ArrowWriter P Id K V D) (writer' : Writer P Id K V D) : Prop where
  writers : w'.writers = w.writers
  dataFiles : w'.createdFiles.dataFiles = w.createdFiles.dataFiles
  index : w'.indexThread = w.indexThread
  upsertMode : w'.upsertMode = w.upsertMode
  deleteMode : w'.deleteMode = w.deleteMode
  allocated : w.allocated ≤ w'.allocated
  dataWriter : writer'.dataWriter = writer.dataWriter
  data : writer'.data = writer.data
  olakeIDPosition : writer'.olakeIDPosition = writer.olakeIDPosition
  append : w.upsertMode = false → writer' = writer
  noVectors : w.deleteMode ≠ .deletionVector → w'.pendingVectors = w.pendingVectors ∧ w'.vectors = w.vectors
  noFiles : w.deleteMode = .deletionVector → w.createdFiles.posDeleteFiles = [] →
    writer.positionalDeleteWriter = none →
      w'.createdFiles.posDeleteFiles = [] ∧ writer'.positionalDeleteWriter = none
  ids : ∀ values id, ((eqLane w).set w'.createdFiles.eqDeleteFiles k
    writer'.equalityDeleteWriter).HasItem values id ↔ (eqLane w).HasItem values id
  positions : ∀ loc, (∃ values, ((posLane w).set w'.createdFiles.posDeleteFiles k
      writer'.positionalDeleteWriter).HasItem values loc) ∨ Queued w' loc ↔
    (∃ values, (posLane w).HasItem values loc) ∨ loc ∈ writer.positionalDeletes ∨ Queued w loc

theorem writeDeletes_spec (halloc : Function.Injective alloc) (full : Full) (hk : w.writers k = some writer)
    (hr : writer.Ready w.upsertMode w.deleteMode) (hdata : writer.data ≠ []) :
    WritesDeletes k w writer (writeDeletes alloc full w writer).1 (writeDeletes alloc full w writer).2 := by
  have heq : (eqLane w).opened k = writer.equalityDeleteWriter.map
      (fun f => ⟨f.filePath, f.rows ++ writer.equalityDeletes, f.partitionValues⟩) := by
    simp [eqLane, hk, Writer.eqFile]
  unfold writeDeletes
  split
  · next hmode =>
    obtain ⟨files, n, pending, vectors, pos, hpos, hle, hvectors, hfiles, hpositions⟩ :=
      writePositionalDeletes_spec halloc full hk hr hdata
    have hwritten := writeOpen_rolled halloc full.equalityDelete n heq
    rw [hpos]
    exact ⟨rfl, rfl, rfl, rfl, rfl, Nat.le_trans hle hwritten.allocated, rfl, rfl, rfl,
      fun hu => absurd (hmode.symm.trans hu) (by decide), hvectors,
      fun hd hnil hnone => ⟨(hfiles hd).1.trans hnil, (hfiles hd).2.trans hnone⟩, hwritten.items, hpositions⟩
  · next hmode =>
    obtain ⟨hids, hpositions⟩ := hr.append (by simpa using hmode)
    refine ⟨rfl, rfl, rfl, rfl, rfl, Nat.le_refl _, rfl, rfl, rfl, fun _ => rfl, fun _ => ⟨rfl, rfl⟩,
      fun _ hnil hnone => ⟨hnil, hnone⟩, fun values id => ?_, fun loc => ?_⟩
    · rw [Lane.set, update_eq_self_iff.2]
      · rfl
      · rw [heq, hids]
        simp
    · rw [set_posLane hk, hpositions]
      simp only [not_mem_nil, false_or]

/-- The end of a turn of `Write`: the data files of the partition are replaced, and its
buffers are empty. -/
def replaced (w : ArrowWriter P Id K V D) (k : K) (writer : Writer P Id K V D)
    (file : Option (RollingWriter P V (Record Id K V D)))
    (files : List (RollingWriter P V (Record Id K V D))) (n : Nat) : ArrowWriter P Id K V D :=
  setWriter { w with createdFiles := { w.createdFiles with dataFiles := files }, allocated := n } k
    { writer with dataWriter := file, data := [], equalityDeletes := [], positionalDeletes := [] }

variable {w₁ : ArrowWriter P Id K V D}

omit [DecidableEq P] in
theorem replaced_lanes (k : K) (writer₁ : Writer P Id K V D)
    (hwriters : w₁.writers = w.writers) (file : Option (RollingWriter P V (Record Id K V D)))
    (files : List (RollingWriter P V (Record Id K V D))) (n : Nat) :
    dataLane (replaced w₁ k writer₁ file files n) = (dataLane w).set files k file ∧
      eqLane (replaced w₁ k writer₁ file files n) =
        (eqLane w).set w₁.createdFiles.eqDeleteFiles k writer₁.equalityDeleteWriter ∧
      posLane (replaced w₁ k writer₁ file files n) =
        (posLane w).set w₁.createdFiles.posDeleteFiles k writer₁.positionalDeleteWriter := by
  have hnil : ∀ {α : Type} (f : Option (File P V α)),
      f.map (fun f => (⟨f.filePath, f.rows ++ [], f.partitionValues⟩ : File P V α)) = f := by
    intro α f
    cases f <;> simp
  refine ⟨?_, ?_, ?_⟩
  · rw [replaced, dataLane, lane_setWriter, Writer.dataFile, hnil]
    simp only [hwriters]
  · rw [replaced, eqLane, lane_setWriter, Writer.eqFile, hnil]
    simp only [hwriters]
  · rw [replaced, posLane, lane_setWriter]
    simp only [hwriters]

omit [DecidableEq P] in
theorem same_replaced (hw : Ready w)
    (hk : w.writers k = some writer) (hdel : WritesDeletes k w writer w₁ writer₁)
    (file : Option (RollingWriter P V (Record Id K V D)))
    (files : List (RollingWriter P V (Record Id K V D)))
    (hrolled : Rolled alloc (dataLane w) w₁.allocated ((dataLane w).set files k file) n) :
    Same alloc w (replaced w₁ k writer₁ file files n) := by
  obtain ⟨hdata, heq, hpos⟩ := replaced_lanes k writer₁ hdel.writers file files n
  refine ⟨?_, fun values id => ?_, fun loc => ?_, fun k' id => ?_, hdel.index, hdel.upsertMode,
    hdel.deleteMode, fun _ => ⟨?_, fun k' writer' hk' => ?_, fun hd => ?_, fun hd => ?_⟩⟩
  · rw [hdata]
    exact (Rolled.refl _ hdel.allocated).trans hrolled
  · rw [heq]
    exact hdel.ids values id
  · have hpositions := hdel.positions loc
    have hqueued : Queued (replaced w₁ k writer₁ file files n) loc ↔ Queued w₁ loc := Iff.rfl
    have hnoted : Noted (replaced w₁ k writer₁ file files n) loc ↔
        ∃ k' writer', k' ≠ k ∧ w.writers k' = some writer' ∧ loc ∈ writer'.positionalDeletes := by
      rw [replaced, noted_setWriter, hdel.writers]
      exact or_iff_right not_mem_nil
    rw [Position, Position, hpos, hqueued, hnoted, noted_iff w k, hk, Option.getD_some, or_left_comm,
      hpositions, or_assoc, or_left_comm (a := loc ∈ writer.positionalDeletes)]
    exact or_left_comm
  · rw [replaced, idPosition_setWriter]
    split
    · next heq' =>
      rw [heq', idPosition, hk, hdel.olakeIDPosition]
      rfl
    · simp only [idPosition, hdel.writers]
  · have hindex := hw.index
    rw [← hdel.index, ← hdel.deleteMode] at hindex
    exact hindex
  · have hmodes : ∀ writer : Writer P Id K V D, writer.Ready w.upsertMode w.deleteMode →
        writer.Ready w₁.upsertMode w₁.deleteMode := by
      intro writer hr
      rw [hdel.upsertMode, hdel.deleteMode]
      exact hr
    refine hmodes writer' ?_
    simp only [replaced, setWriter, update_apply] at hk'
    split at hk'
    · cases hk'
      refine ⟨fun _ => rfl, fun _ => rfl, fun _ _ => rfl, fun _ => ⟨rfl, rfl⟩, fun _ => ⟨rfl, rfl⟩,
        fun hmode => ?_, fun hmode => ?_⟩
      · rw [hdel.append hmode]
        exact (hw.writers k writer hk).closed hmode
      · exact (hdel.noFiles hmode (hw.noFiles hmode) ((hw.writers k writer hk).vector hmode)).2
    · rw [hdel.writers] at hk'
      exact hw.writers k' writer' hk'
  · have hd : w.deleteMode ≠ .deletionVector := fun h => hd (hdel.deleteMode.trans h)
    exact ⟨(hdel.noVectors hd).1.trans (hw.noVectors hd).1, (hdel.noVectors hd).2.trans (hw.noVectors hd).2⟩
  · have hd : w.deleteMode = .deletionVector := hdel.deleteMode.symm.trans hd
    exact (hdel.noFiles hd (hw.noFiles hd) ((hw.writers k writer hk).vector hd)).1

/-- A turn of `Write` stages what was staged before it. -/
theorem same_writePartition (halloc : Function.Injective alloc) (fulls : K → Full) (hw : Ready w)
    (k : K) : Same alloc w (writePartition alloc fulls w k) := by
  unfold writePartition
  split
  · exact Same.refl alloc w
  · next writer hk =>
    split
    · exact Same.refl alloc w
    · next hnil =>
      have hdel := writeDeletes_spec halloc (fulls k) hk (hw.writers k writer hk) (by simpa using hnil)
      generalize writeDeletes alloc (fulls k) w writer = deletes at hdel
      have hopened : (dataLane w).opened k = writer.dataWriter.map
          (fun f => ⟨f.filePath, f.rows ++ writer.data, f.partitionValues⟩) := by
        simp [dataLane, hk, Writer.dataFile]
      unfold writeData
      dsimp only
      rw [hdel.dataWriter, hdel.data, hdel.dataFiles]
      exact same_replaced hw hk hdel _ _ (writeOpen_rolled halloc (fulls k).data deletes.1.allocated hopened)

omit [DecidableEq K] [DecidableEq P] in
/-- A loop over the partitions whose turns stage nothing new and keep `I`: `Q` holds of the
partitions that had their turn. -/
theorem same_foldl (turn : ArrowWriter P Id K V D → K → ArrowWriter P Id K V D)
    {I : ArrowWriter P Id K V D → Prop} {Q : ArrowWriter P Id K V D → K → Prop}
    (hturn : ∀ w k, I w → Same alloc w (turn w k) ∧ I (turn w k) ∧ ∀ k', k' = k ∨ Q w k' → Q (turn w k) k')
    (order : List K) (hw : I w) :
    Same alloc w (order.foldl turn w) ∧ I (order.foldl turn w) ∧
      ∀ k, k ∈ order ∨ Q w k → Q (order.foldl turn w) k := by
  induction order generalizing w with
  | nil => exact ⟨Same.refl alloc w, hw, fun k h => h.resolve_left not_mem_nil⟩
  | cons k₀ rest ih =>
    obtain ⟨hsame, hI, hQ⟩ := hturn w k₀ hw
    obtain ⟨hrest, hI, hrestQ⟩ := ih hI
    refine ⟨hsame.trans hrest, hI, fun k h => hrestQ k ?_⟩
    rw [mem_cons, or_assoc, or_left_comm] at h
    exact h.imp_right (hQ k)

/-- The buffers of the partition are empty. -/
def Clear (w : ArrowWriter P Id K V D) (k : K) : Prop :=
  ∀ writer, w.writers k = some writer → writer.data = []

theorem writePartition_writers (halloc : Function.Injective alloc) (fulls : K → Full) (hw : Ready w) (k k' : K) :
    ((writePartition alloc fulls w k).writers k').isSome = (w.writers k').isSome ∧
      (k' = k ∨ Clear w k' → Clear (writePartition alloc fulls w k) k') := by
  unfold writePartition
  split
  · next hk =>
    refine ⟨rfl, ?_⟩
    rintro (rfl | h)
    · intro writer hwriter
      rw [hk] at hwriter
      cases hwriter
    · exact h
  · next writer hk =>
    split
    · next hnil =>
      refine ⟨rfl, ?_⟩
      rintro (rfl | h)
      · intro writer' hwriter
        rw [hk] at hwriter
        cases hwriter
        exact isEmpty_iff.1 hnil
      · exact h
    · next hnil =>
      have hdel := writeDeletes_spec halloc (fulls k) hk (hw.writers k writer hk) (by simpa using hnil)
      simp only [setWriter, writeData, hdel.writers, Clear, update_apply]
      by_cases hne : k' = k
      · simp only [hne, if_true, hk, Option.isSome_some, true_and]
        intro _ writer' hwriter
        cases hwriter
        rfl
      · simp only [hne, if_false, false_or, true_and]
        exact id

theorem same_writePartitions (halloc : Function.Injective alloc) (fulls : K → Full)
    (order : List K) (hw : Ready w) :
    Same alloc w (order.foldl (writePartition alloc fulls) w) ∧
      ∀ k, ((order.foldl (writePartition alloc fulls) w).writers k).isSome = (w.writers k).isSome ∧
        (k ∈ order ∨ Clear w k → Clear (order.foldl (writePartition alloc fulls) w) k) := by
  obtain ⟨hsame, ⟨-, hsome⟩, hclear⟩ := same_foldl (writePartition alloc fulls) (Q := Clear)
    (I := fun w' => Ready w' ∧ ∀ k, (w'.writers k).isSome = (w.writers k).isSome)
    (fun w' k h =>
      have hsame := same_writePartition halloc fulls h.1 k
      have hwriters := writePartition_writers halloc fulls h.1 k
      ⟨hsame, ⟨hsame.ready h.1, fun k' => (hwriters k').1.trans (h.2 k')⟩, fun k' => (hwriters k').2⟩)
    order ⟨hw, fun _ => rfl⟩
  exact ⟨hsame, fun k => ⟨hsome k, hclear k⟩⟩

omit [DecidableEq P]

theorem flushOpen_lane {α : Type} {l : Lane K P V α} :
    l.set (flushOpen (l.opened k) l.created) k none = l.finish k := by
  cases h : l.opened k <;> simp [finish, h, flushOpen, flush]

theorem completeDeletes_spec (hk : w.writers k = some writer)
    (hr : writer.Ready w.upsertMode w.deleteMode) (hdata : writer.data = []) :
    WritesDeletes k w writer
      { w with createdFiles := (completeDeletes w.upsertMode w.createdFiles writer).1 }
      (completeDeletes w.upsertMode w.createdFiles writer).2 := by
  obtain ⟨hids, hpositions⟩ := hr.empty hdata
  have heq : (eqLane w).opened k = writer.equalityDeleteWriter := by
    cases he : writer.equalityDeleteWriter <;> simp [eqLane, hk, Writer.eqFile, hids, he]
  have hpos : (posLane w).opened k = writer.positionalDeleteWriter := by simp [posLane, hk]
  unfold completeDeletes
  split
  · next hmode =>
    have heqLane : (eqLane w).set (flushOpen writer.equalityDeleteWriter w.createdFiles.eqDeleteFiles) k
        none = (eqLane w).finish k := heq ▸ flushOpen_lane
    have hposLane : (posLane w).set (flushOpen writer.positionalDeleteWriter w.createdFiles.posDeleteFiles)
        k none = (posLane w).finish k := hpos ▸ flushOpen_lane
    refine ⟨rfl, rfl, rfl, rfl, rfl, Nat.le_refl _, rfl, rfl, rfl,
      fun hu => absurd (hmode.symm.trans hu) (by decide), fun _ => ⟨rfl, rfl⟩,
      fun _ hnil hnone => ⟨by simp only [hnone, flushOpen, hnil], rfl⟩, fun values id => ?_, fun loc => ?_⟩
    · rw [heqLane]
      exact hasItem_finish
    · rw [hposLane, hpositions]
      simp only [hasItem_finish, not_mem_nil, false_or]
      exact Iff.rfl
  · refine ⟨rfl, rfl, rfl, rfl, rfl, Nat.le_refl _, rfl, rfl, rfl, fun _ => rfl, fun _ => ⟨rfl, rfl⟩,
      fun _ hnil hnone => ⟨hnil, hnone⟩, fun values id => ?_, fun loc => ?_⟩
    · rw [← heq, Lane.set, update_eq_self]
      exact Iff.rfl
    · rw [set_posLane hk, hpositions]
      simp only [not_mem_nil, false_or]

/-- A turn of `completeWriters` stages what was staged before it, if the buffers are
empty. -/
theorem same_completeWriter (alloc : Nat → P) (hw : Ready w) (k : K) (hclear : Clear w k) :
    Same alloc w (completeWriter w k) := by
  unfold completeWriter
  split
  · exact Same.refl alloc w
  · next writer hk =>
    have hdata : writer.data = [] := hclear writer hk
    have hdel := completeDeletes_spec hk (hw.writers k writer hk) hdata
    have hopened : (dataLane w).opened k = writer.dataWriter := by
      cases hd : writer.dataWriter <;> simp [dataLane, hk, Writer.dataFile, hdata, hd]
    have hlane : (dataLane w).set (flushOpen writer.dataWriter w.createdFiles.dataFiles) k none =
        (dataLane w).finish k := hopened ▸ flushOpen_lane
    have hfiles := hdel.dataFiles
    dsimp only at hfiles ⊢
    rw [hfiles]
    exact same_replaced hw hk hdel none _ (hlane ▸ Rolled.finish)

/-- The files of the partition are finished. -/
def Closed (w : ArrowWriter P Id K V D) (k : K) : Prop :=
  ∀ writer, w.writers k = some writer → writer.dataWriter = none ∧
    writer.equalityDeleteWriter = none ∧ writer.positionalDeleteWriter = none

theorem completeWriter_writers (hw : Ready w) (k k' : K) (hclear : Clear w k') :
    Clear (completeWriter w k) k' ∧ (k' = k ∨ Closed w k' → Closed (completeWriter w k) k') := by
  unfold completeWriter
  split
  · next hk =>
    refine ⟨hclear, ?_⟩
    rintro (rfl | h)
    · intro writer hwriter
      rw [hk] at hwriter
      cases hwriter
    · exact h
  · next writer hk =>
    have hclosed := (hw.writers k writer hk).closed
    simp only [setWriter, Clear, Closed, update_apply]
    by_cases hne : k' = k
    · simp only [hne]
      refine ⟨?_, fun _ => ?_⟩
      · intro writer' hwriter
        cases hwriter
        rfl
      · intro writer' hwriter
        cases hwriter
        refine ⟨rfl, ?_⟩
        unfold completeDeletes
        split
        · exact ⟨rfl, rfl⟩
        · next hmode => exact hclosed (by simpa using hmode)
    · simp only [hne, false_or]
      exact ⟨hclear, id⟩

theorem same_completeWriters (alloc : Nat → P) (order : List K) (hw : Ready w)
    (hclear : ∀ k, Clear w k) :
    Same alloc w (completeWriters order w) ∧
      ∀ k, Clear (completeWriters order w) k ∧
        (k ∈ order ∨ Closed w k → Closed (completeWriters order w) k) := by
  obtain ⟨hsame, ⟨-, hclear⟩, hclosed⟩ := same_foldl completeWriter (Q := Closed)
    (I := fun w => Ready w ∧ ∀ k, Clear w k)
    (fun w k h =>
      have hsame := same_completeWriter alloc h.1 k (h.2 k)
      have hwriters := fun k' => completeWriter_writers h.1 k k' (h.2 k')
      ⟨hsame, ⟨hsame.ready h.1, fun k' => (hwriters k').1⟩, fun k' => (hwriters k').2⟩)
    order ⟨hw, hclear⟩
  exact ⟨hsame, fun k => ⟨hclear k, hclosed k⟩⟩

end Writing

/-! ### The files of the commit -/

section Commit

variable {w : ArrowWriter P Id K V D}

theorem opened_of_closed (hclosed : ∀ k, Closed w k) (k : K) :
    (dataLane w).opened k = none ∧ (eqLane w).opened k = none ∧ (posLane w).opened k = none := by
  cases hk : w.writers k with
  | none => simp [dataLane, eqLane, posLane, hk]
  | some writer =>
    obtain ⟨hd, he, hp⟩ := hclosed k writer hk
    simp [dataLane, eqLane, posLane, hk, Writer.dataFile, Writer.eqFile, hd, he, hp]

theorem delta_holds (hclosed : ∀ k, Closed w k) :
    (delta w).Holds loc row ↔ (dataLane w).HasRow loc.path loc.position row := by
  simp only [Delta.Holds, delta, mem_map, Lane.HasRow, Lane.HasFile,
    (opened_of_closed hclosed _).1, reduceCtorEq, exists_false, or_false]
  constructor
  · rintro ⟨_, ⟨f, hf, rfl⟩, hpath, hrow⟩
    exact ⟨f, hf, hpath, hrow⟩
  · rintro ⟨f, hf, hpath, hrow⟩
    exact ⟨_, ⟨f, hf, rfl⟩, hpath, hrow⟩

theorem delta_equality [DecidableEq Id] (hclosed : ∀ k, Closed w k) :
    (delta w).Equality (idReader covers) values row ↔ (eqLane w).HasItem values row.id := by
  simp only [Delta.Equality, delta, mem_map, Lane.HasItem, Lane.HasFile,
    (opened_of_closed hclosed _).2.1, reduceCtorEq, exists_false, or_false, idReader, decide_eq_true_eq]
  constructor
  · rintro ⟨_, ⟨f, hf, rfl⟩, hvalues, hid⟩
    exact ⟨f, hf, hvalues, hid⟩
  · rintro ⟨f, hf, hvalues, hid⟩
    exact ⟨_, ⟨f, hf, rfl⟩, hvalues, hid⟩

theorem delta_position (hready : Ready w) (hclear : ∀ k, Clear w k) (hclosed : ∀ k, Closed w k)
    : (delta (sendPendingVectors w)).Position loc ↔ Position w loc := by
  have hnoted : ¬ Noted w loc := by
    rintro ⟨k, writer, hk, hmem⟩
    rw [((hready.writers k writer hk).empty (hclear k writer hk)).2] at hmem
    cases hmem
  have hqueued : loc ∈ (sendPendingVectors w).vectors ↔ Queued w loc := by
    rw [← queued_sendPendingVectors (w := w)]
    exact (or_iff_right (by rintro ⟨v, hv, -⟩; cases hv)).symm
  rw [Position, or_iff_right hnoted]
  refine or_congr ?_ hqueued
  simp only [delta, mem_map, Lane.HasItem, Lane.HasFile, (opened_of_closed hclosed _).2.2,
    reduceCtorEq, exists_false, or_false]
  constructor
  · rintro ⟨_, ⟨f, hf, rfl⟩, hloc⟩
    exact ⟨f.partitionValues, f, hf, rfl, hloc⟩
  · rintro ⟨_, f, hf, -, hloc⟩
    exact ⟨_, ⟨f, hf, rfl⟩, hloc⟩

end Commit

end Olake.Arrow
