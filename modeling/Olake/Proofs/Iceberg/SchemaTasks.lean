/-
The tasks that look for a difference from the schema of the thread.

A batch that gets through the first pass has all its records flattened, and the flag tells
whether one of them changes the schema; if the flag is not set, no value of the batch was refused
(`detect_spec`).  The other way round the turns can be taken such that a refused value is met, or
such that a change is met first and no other record is looked at.
-/
import Olake.Proofs.Iceberg.SchemaColumns

namespace Olake.IcebergSchema

open Typeutils List FlagTasks

variable {go : GoLib}

/-! ### Flat records -/

variable {resolve : String → String} {threadSchema : SchemaMap}

theorem flat_eq_ok (h : flat resolve record = .ok d) :
    ∃ flattened, Flatten resolve record.data = .ok flattened ∧ d = copy flattened record.olakeColumns := by
  unfold flat at h
  split at h
  · cases h
  · next flattened hflat =>
    cases h
    exact ⟨flattened, hflat, rfl⟩

variable (resolve) in
theorem flat_ok_iff (record : BatchRecord go) :
    (∃ d, flat resolve record = .ok d) ↔ Flattens record.data := by
  rw [← flatten_ok_iff resolve]
  constructor
  · rintro ⟨d, hd⟩
    obtain ⟨flattened, hflat, -⟩ := flat_eq_ok hd
    exact ⟨flattened, hflat⟩
  · rintro ⟨flattened, hflat⟩
    exact ⟨_, by rw [flat, hflat]⟩

theorem nodup_flat (h : flat resolve record = .ok d) : (d.map Prod.fst).Nodup := by
  obtain ⟨flattened, hflat, rfl⟩ := flat_eq_ok h
  exact nodup_copy (nodup_flatten hflat) _

/-- The type of a column in a flat record: an olake column's own, or that of the last value that
came in under its name. -/
theorem typeAt_flat {d : Record (Value go)} (h : flat resolve record = .ok d) (k : String) :
    typeAt d k =
      match record.olakeColumns.lookup k with
      | some v => typeOf v
      | none => (landing resolve k record.data).getLast?.bind (fun v => typeOf (some v)) := by
  obtain ⟨flattened, hflat, rfl⟩ := flat_eq_ok h
  rw [typeAt, lookup_copy _ record.nodup]
  cases record.olakeColumns.lookup k with
  | some v => rfl
  | none =>
    rw [lookup_flatten hflat]
    cases (landing resolve k record.data).getLast? <;> rfl

/-! ### What a task says of its record -/

section Record

variable (resolve threadSchema)

/-- A value of the record is refused by the schema of the thread. -/
def Refuses (record : BatchRecord go) : Prop :=
  ∃ d k t, flat resolve record = .ok d ∧ typeAt d k = some t ∧ Refused threadSchema k t

/-- A value of the record changes the schema. -/
def Differs (record : BatchRecord go) : Prop :=
  ∃ d k t, flat resolve record = .ok d ∧ typeAt d k = some t ∧ Changes threadSchema k t

variable {resolve threadSchema}

theorem exists_visit_typed {X : String → String → Prop}
    (h : ∃ d k t, flat resolve record = .ok d ∧ typeAt d k = some t ∧ X k t) :
    ∃ (visit : Visit go) (d : Record (Value go)) (k t : String) (v : Option (Value go))
      (rest : Record (Value go)), flat resolve record = .ok d ∧ visit.order d = (k, v) :: rest ∧
        typeOf v = some t ∧ X k t := by
  obtain ⟨d, k, t, hd, hkt, hX⟩ := h
  obtain ⟨v, hv, htype⟩ := mem_typed.1 ((mem_typed_iff_typeAt (nodup_flat hd)).2 hkt)
  obtain ⟨visit, rest, hvisit⟩ := exists_visit_first hv
  exact ⟨visit, d, k, t, v, rest, hd, hvisit, htype, hX⟩

end Record

/-! ### The first pass -/

section Pass

variable {records : List (BatchRecord go)}

theorem task_prepare (visit : Visit go) (record : BatchRecord go) :
    (task resolve threadSchema visit record).prepare = none ↔ Flattens record.data := by
  rw [← flat_ok_iff resolve record]
  unfold task
  cases hflat : flat resolve record with
  | error text => simp
  | ok d =>
    dsimp only
    split <;> simp

theorem task_look (hflat : Flattens record.data) :
    (task resolve threadSchema visit record).look.Tells (Refuses resolve threadSchema record)
      (Differs resolve threadSchema record) := by
  obtain ⟨d, hd⟩ := (flat_ok_iff resolve record).2 hflat
  have hmem : ∀ k t, (k, t) ∈ typed (visit.order d) ↔ typeAt d k = some t := by
    intro k t
    rw [← mem_typed_iff_typeAt (nodup_flat hd)]
    simp only [mem_typed, (visit.perm d).mem_iff]
  have hsome : ∀ X : String → String → Prop,
      (∃ d k t, flat resolve record = .ok d ∧ typeAt d k = some t ∧ X k t) ↔
        ∃ k t, (k, t) ∈ typed (visit.order d) ∧ X k t := by
    intro X
    simp [hd, hmem]
  rw [Refuses, Differs, hsome, hsome]
  unfold task
  rw [hd]
  dsimp only
  rcases detect_cases threadSchema (visit.order d) with ⟨text, htext, h⟩ | ⟨hok, h⟩ | ⟨hok, h⟩
  · rw [htext]
    exact .fails _ h
  · rw [hok]
    exact .sets h
  · rw [hok]
    exact .clear (fun ⟨k, t, hkt, hrefused⟩ => (h k t hkt).1 hrefused)
      fun ⟨k, t, hkt, hchanges⟩ => (h k t hkt).2 hchanges

theorem mem_tasks (h : job ∈ tasks resolve threadSchema records visit) :
    ∃ i, ∃ record ∈ records, job = task resolve threadSchema (visit i) record := by
  obtain ⟨i, hi, rfl⟩ := mem_mapIdx.1 h
  exact ⟨i, _, getElem_mem hi, rfl⟩

theorem task_mem_tasks (h : record ∈ records) :
    ∃ i, task resolve threadSchema (visit i) record ∈ tasks resolve threadSchema records visit := by
  obtain ⟨i, hi, rfl⟩ := mem_iff_getElem.1 h
  exact ⟨i, mem_mapIdx.2 ⟨i, hi, rfl⟩⟩

theorem detect_spec
    (hcomplete : FlagTasks.Complete (tasks resolve threadSchema records visit) turns) :
    let s := FlagTasks.run (tasks resolve threadSchema records visit) turns;
    (s.err.isSome ∧ ∃ record ∈ records, ¬ Flattens record.data ∨ Refuses resolve threadSchema record) ∨
    s.err = none ∧ (∀ record ∈ records, Flattens record.data) ∧
      (s.flag = true ∧ (∃ record ∈ records, Differs resolve threadSchema record) ∨
        s.flag = false ∧ ∀ record ∈ records, ¬ Refuses resolve threadSchema record ∧
          ¬ Differs resolve threadSchema record) :=
  run_items _ _ _ (fun i record => task_prepare (visit i) record) (fun _ _ => task_look) hcomplete

/-- The turns can be taken such that a refused value is met. -/
theorem exists_detect_refuses (h : ∃ record ∈ records, Refuses resolve threadSchema record) :
    ∃ (visit : Nat → Visit go) (turns : List Nat),
      FlagTasks.Complete (tasks resolve threadSchema records visit) turns ∧
      (FlagTasks.run (tasks resolve threadSchema records visit) turns).err.isSome := by
  obtain ⟨record, hrecord, h⟩ := h
  obtain ⟨visit, d, k, t, v, rest, hd, hvisit, htype, hrefused⟩ := exists_visit_typed h
  obtain ⟨text, htext⟩ := detect_refused htype hrefused rest
  obtain ⟨i, hmem⟩ := task_mem_tasks hrecord
  have hprepare : (task resolve threadSchema visit record).prepare = none :=
    (task_prepare visit record).2 ((flat_ok_iff resolve record).1 ⟨d, hd⟩)
  have hlook : (task resolve threadSchema visit record).look =
      .fails ("failed to detect schema: " ++ text) := by
    simp only [task, hd, hvisit, htext]
  exact ⟨fun _ => visit, exists_fails hmem hprepare hlook⟩

/-- The turns can be taken such that a change is met first, and then no record is looked at. -/
theorem exists_detect_differs (h : ∃ record ∈ records, Differs resolve threadSchema record)
    (hflat : ∀ record ∈ records, Flattens record.data) :
    ∃ (visit : Nat → Visit go) (turns : List Nat),
      FlagTasks.Complete (tasks resolve threadSchema records visit) turns ∧
      (FlagTasks.run (tasks resolve threadSchema records visit) turns).err = none := by
  obtain ⟨record, hrecord, h⟩ := h
  obtain ⟨visit, d, k, t, v, rest, hd, hvisit, htype, hchanges⟩ := exists_visit_typed h
  obtain ⟨i, hmem⟩ := task_mem_tasks hrecord
  have hlook : (task resolve threadSchema visit record).look = .sets := by
    simp only [task, hd, hvisit, detect_changes htype hchanges rest, if_true]
  refine ⟨fun _ => visit, exists_sets hmem hlook fun job hjob => ?_⟩
  obtain ⟨_, record', hrecord', rfl⟩ := mem_tasks hjob
  exact (task_prepare _ record').2 (hflat record' hrecord')

end Pass

end Olake.IcebergSchema
