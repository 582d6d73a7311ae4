/-
The column types of the parquet writer over any sequence of batches.

A flat record has no name twice and no value that is taken for null (`Proper`), so that
processing it adds the type of each value to the types of its column.  Whatever the order of the
records, of their entries and of the types, and whatever the turns of the tasks, the type of a
column is therefore the least upper bound, in the tree of types, of its initial type and of all
types that came in (`tracked_history`); when the tasks find no difference, processing the records
would change nothing (`schemaAfter_eq`).  A record is then reformatted without an error, except
for numbers that no float can hold (`reformatAll_ok_iff`).
-/
import Olake.Lib.Run
import Olake.Proofs.Fields
import Olake.Proofs.Reformat

namespace Olake.ParquetFields

open Typeutils List Machine

variable {go : GoLib} {resolve : String → String}

/-! ### Flat records -/

/-- A record as it is when it is flat. -/
structure Proper (record : Record (Value go)) : Prop where
  nodup : (record.map Prod.fst).Nodup
  value : ∀ k v, (k, v) ∈ record → ∃ value, v = some value ∧ Flat value ∧ TypeFromValue v ≠ .null

theorem proper_flat (h : flat resolve record = .ok d) : Proper d where
  nodup := nodup_flatten h
  value k v hmem := by
    have hlookup := (lookup_eq_some_iff (nodup_flatten h)).2 hmem
    rw [lookup_flatten h, Option.map_eq_some_iff] at hlookup
    obtain ⟨value, hlast, rfl⟩ := hlookup
    obtain ⟨p, -, hp⟩ := mem_filterMap.1 (mem_of_getLast? hlast)
    split at hp
    · obtain ⟨raw, -, hraw⟩ := Option.bind_eq_some_iff.1 hp
      have hflat : flattenValue raw = .ok value := by
        cases hcase : flattenValue raw with
        | error text => simp [hcase, Except.toOption] at hraw
        | ok value' => simpa [hcase, Except.toOption] using hraw
      exact ⟨value, rfl, flat_of_flattenValue hflat, typeFromValue_flattenValue hflat⟩
    · cases hp

theorem Proper.perm (h : Proper record) (hperm : record'.Perm record) : Proper record' where
  nodup := (hperm.map Prod.fst).nodup_iff.2 h.nodup
  value k v hmem := h.value k v (hperm.mem_iff.1 hmem)

theorem flatAll_cons_ok : flatAll resolve (record :: rest) = .ok out ↔
      ∃ d records, flat resolve record = .ok d ∧ flatAll resolve rest = .ok records ∧
        out = d :: records := by
  rw [flatAll]
  cases flat resolve record with
  | error text => simp
  | ok d => cases flatAll resolve rest <;> simp [Except.map, eq_comm]

/-- Every flat record is that of a record, and the other way round. -/
theorem mem_flatAll (h : flatAll resolve batch = .ok records) (d : Record (Value go)) :
    d ∈ records ↔ ∃ record ∈ batch, flat resolve record = .ok d := by
  induction batch generalizing records with
  | nil =>
    cases h
    simp
  | cons record rest ih =>
    obtain ⟨d', records, hd', hrest, rfl⟩ := flatAll_cons_ok.1 h
    simp [ih hrest, hd', eq_comm]

theorem proper_flatAll (h : flatAll resolve batch = .ok records) : ∀ d ∈ records, Proper d := by
  intro d hd
  obtain ⟨record, -, hflat⟩ := (mem_flatAll h d).1 hd
  exact proper_flat hflat

/-! ### Processing records -/

/-- The types of a column's values in records. -/
def typesIn (k : String) (records : List (Record (Value go))) : Set DataType :=
  {t | ∃ record ∈ records, ∃ v, (k, v) ∈ record ∧ TypeFromValue v = t}

/-- Each column is sound and has had the types of `S`. -/
def AllTracked (S : String → Set DataType) (schema : Fields) : Prop := ∀ k, Tracked (S k) (schema k)

theorem tracked_process (h : AllTracked S schema)
    (hproper : Proper record) (visit : String → TypeVisit) :
    AllTracked (fun k => S k ∪ typesIn k [record]) (schema.Process visit record).2.2 := by
  intro k
  dsimp only
  rw [process_at schema hproper.nodup k]
  cases hlookup : record.lookup k with
  | none =>
    have hempty : typesIn k [record] = ∅ := by
      rw [Set.eq_empty_iff_forall_notMem]
      rintro t ⟨record', hrecord', v, hv, -⟩
      rw [mem_singleton] at hrecord'
      subst hrecord'
      rw [← lookup_eq_some_iff hproper.nodup, hlookup] at hv
      cases hv
    rw [hempty, Set.union_empty]
    exact h k
  | some v =>
    have hmem : (k, v) ∈ record := (lookup_eq_some_iff hproper.nodup).1 hlookup
    obtain ⟨value, hvalue, -, hnull⟩ := hproper.value k v hmem
    have hsingle : typesIn k [record] = {TypeFromValue v} := by
      ext t
      constructor
      · rintro ⟨record', hrecord', v', hv', rfl⟩
        rw [mem_singleton] at hrecord'
        subst hrecord'
        rw [← lookup_eq_some_iff hproper.nodup, hlookup] at hv'
        cases hv'
        rfl
      · rintro rfl
        exact ⟨record, mem_singleton_self record, v, hmem, rfl⟩
    rw [hsingle, Set.union_singleton]
    exact tracked_fieldAfter (h k) hnull (visit k)

theorem typesIn_cons (k : String) (record : Record (Value go)) (rest : List (Record (Value go))) :
    typesIn k (record :: rest) = typesIn k [record] ∪ typesIn k rest := by
  ext t
  simp [typesIn]

theorem typesIn_perm (hperm : record'.Perm record) : typesIn k [record'] = typesIn k [record] := by
  simp [typesIn, hperm.mem_iff]

theorem tracked_processAll (h : AllTracked S schema)
    (hproper : ∀ record ∈ records, Proper record) (batch : Batch go) (idx : Nat) :
    AllTracked (fun k => S k ∪ typesIn k records) (processAll batch idx schema records).2 := by
  induction records generalizing S schema idx with
  | nil =>
    have hempty : ∀ k, typesIn k ([] : List (Record (Value go))) = ∅ := fun k => by simp [typesIn]
    simpa [hempty, processAll] using h
  | cons record rest ih =>
    have hperm := (batch.processing idx).perm record
    have hfirst := tracked_process h ((hproper record mem_cons_self).perm hperm) (batch.types idx)
    have hrest := ih hfirst (fun r hr => hproper r (mem_cons_of_mem _ hr)) (idx + 1)
    intro k
    have hk := hrest k
    dsimp only at hk ⊢
    rwa [typesIn_perm hperm, Set.union_assoc, ← typesIn_cons] at hk

/-! ### The tasks -/

section Tasks

variable {schema : Fields} {batch : Batch go}

theorem flatAll_eq_ok_iff (records : List (BatchRecord go)) :
    (∃ out, flatAll resolve records = .ok out) ↔
      ∀ record ∈ records, ∃ d, flat resolve record = .ok d := by
  induction records with
  | nil => simp [flatAll]
  | cons record rest ih =>
    simp only [flatAll_cons_ok, forall_mem_cons, ← ih]
    constructor
    · rintro ⟨_, d, out, hd, hout, -⟩
      exact ⟨⟨d, hd⟩, out, hout⟩
    · rintro ⟨⟨d, hd⟩, out, hout⟩
      exact ⟨_, d, out, hd, hout, rfl⟩

theorem task_prepare (visit : Visit go) (idx : Nat) (record : BatchRecord go) :
    (task resolve schema visit idx record).prepare = none ↔ ∃ d, flat resolve record = .ok d := by
  unfold task
  cases flat resolve record <;> simp

/-- When all tasks are done, there is an error exactly if a record cannot be flattened; if the
flag is not set no record has a value that is unknown to the schema. -/
theorem detect_spec (hcomplete : batch.Complete resolve schema) :
    let s := FlagTasks.run (tasks resolve schema batch) batch.turns;
    (s.err.isSome ∧ ¬ ∃ records, flatAll resolve batch.records = .ok records) ∨
    s.err = none ∧ ∃ records, flatAll resolve batch.records = .ok records ∧
      (s.flag = false → ∀ d ∈ records, ∀ entry ∈ d, unknownTo schema entry = false) := by
  intro s
  rcases FlagTasks.run_spec hcomplete with ⟨herr, job, hjob, hbad⟩ | ⟨herr, hprepare, hlook⟩
  · obtain ⟨i, hi, rfl⟩ := mem_mapIdx.1 hjob
    refine .inl ⟨herr, fun hall => ?_⟩
    obtain ⟨d, hd⟩ := (flatAll_eq_ok_iff _).1 hall _ (getElem_mem hi)
    simp only [task, hd] at hbad
    split at hbad <;> simp at hbad
  · have hall : ∀ record ∈ batch.records, ∃ d, flat resolve record = .ok d := by
      intro record hrecord
      obtain ⟨i, hi, rfl⟩ := mem_iff_getElem.1 hrecord
      exact (task_prepare _ _ _).1 (hprepare _ (mem_mapIdx.2 ⟨i, hi, rfl⟩))
    obtain ⟨records, hrecords⟩ := (flatAll_eq_ok_iff _).2 hall
    refine .inr ⟨herr, records, hrecords, fun hflag d hd entry hentry => ?_⟩
    obtain ⟨record, hrecord, hd⟩ := (mem_flatAll hrecords d).1 hd
    obtain ⟨i, hi, rfl⟩ := mem_iff_getElem.1 hrecord
    rcases hlook with ⟨hset, -⟩ | ⟨-, hclear⟩
    · rw [hflag] at hset
      cases hset
    · have hnone := hclear _ (mem_mapIdx.2 ⟨i, hi, rfl⟩)
      simp only [task, hd] at hnone
      split at hnone
      · cases hnone
      · next hany =>
        simp only [any_eq_true, not_exists, not_and, Bool.not_eq_true] at hany
        exact hany entry (((batch.detecting i).perm d).mem_iff.2 hentry)

theorem processAll_known (hschema : AllTracked S schema)
    (h : ∀ d ∈ records, ∀ entry ∈ d, unknownTo schema entry = false) (idx : Nat) :
    processAll batch idx schema records = (false, schema) := by
  induction records generalizing idx with
  | nil => rfl
  | cons d rest ih =>
    have hknown : schema.Process (batch.types idx) ((batch.processing idx).order d) = (false, false, schema) := by
      refine process_known fun entry hentry => ?_
      have hentry' := h d mem_cons_self entry (((batch.processing idx).perm d).mem_iff.1 hentry)
      have htracked := hschema entry.1
      unfold unknownTo at hentry'
      cases hfield : schema entry.1 with
      | none => simp [hfield] at hentry'
      | some f =>
        rw [hfield] at htracked
        obtain ⟨t, hsound, -⟩ := htracked
        exact ⟨f, t, rfl, hsound, by simpa [hfield] using hentry'⟩
    simp only [processAll, hknown, ih (fun d hd => h d (mem_cons_of_mem _ hd))]
    rfl

/-- Without a difference the schema is as if the records had been processed. -/
theorem schemaAfter_eq (hschema : AllTracked S schema) (hcomplete : batch.Complete resolve schema)
    (hflat : flatAll resolve batch.records = .ok records) :
    schemaAfter resolve schema batch records = processAll batch 0 schema records := by
  unfold schemaAfter
  by_cases hflag : (FlagTasks.run (tasks resolve schema batch) batch.turns).flag = true
  · rw [if_pos hflag]
  · rw [if_neg hflag]
    rw [Bool.not_eq_true] at hflag
    rcases detect_spec hcomplete with ⟨-, hnot⟩ | ⟨-, records', hflat', hclear⟩
    · exact absurd ⟨records, hflat⟩ hnot
    · rw [hflat] at hflat'
      cases hflat'
      exact (processAll_known hschema (hclear hflag) 0).symm

end Tasks

/-! ### Reformatting -/

section Reformat

variable (conv : Conversions go)

/-- A value that is a number that no float can hold, in a column that has floats. -/
def Unholdable (S : String → Set DataType) (entry : String × Option (Value go)) : Prop :=
  ∃ text, entry.2 = some (.number text) ∧ IsLUB (S entry.1) .float64 ∧ ∀ x, go.parseFloat64 text ≠ .ok x

/-- An entry's column has a type, and this is above the type of the value. -/
theorem column_of_entry (hschema : AllTracked S schema) (hv : TypeFromValue v ∈ S k) :
    ∃ f t, schema k = some f ∧ f.Sound t ∧ IsLUB (S k) t ∧ TypeFromValue v ≤ t := by
  have htracked := hschema k
  cases hfield : schema k with
  | none =>
    rw [hfield] at htracked
    have hempty : S k = ∅ := htracked
    rw [hempty] at hv
    exact hv.elim
  | some f =>
    rw [hfield] at htracked
    obtain ⟨t, hsound, hlub⟩ := htracked
    exact ⟨f, t, rfl, hsound, hlub, hlub.1 hv⟩

/-- What the entries of the records are when the schema has followed them. -/
def Followed (S : String → Set DataType) (record : Record (Value go)) : Prop :=
  ∀ entry ∈ record, TypeFromValue entry.2 ∈ S entry.1 ∧ ∃ value, entry.2 = some value ∧ Flat value

theorem reformatRecord_ok_iff (hschema : AllTracked S schema)
    (hfollowed : Followed S record) (visit : String → TypeVisit) :
    (∃ out, ReformatRecord conv visit schema record = .ok out) ↔ ∀ entry ∈ record, ¬ Unholdable S entry := by
  induction record with
  | nil => simp [ReformatRecord]
  | cons entry rest ih =>
    obtain ⟨key, v⟩ := entry
    obtain ⟨⟨hv, value, hvalue, hflat⟩, hrest⟩ := forall_mem_cons.1 hfollowed
    obtain ⟨f, t, hfield, hsound, hlub, hle⟩ := column_of_entry hschema hv
    subst hvalue
    rw [forall_mem_cons, ← ih hrest]
    rcases reformatValue_cases conv hflat hle with ⟨out, hout⟩ | ⟨text, err, rfl, rfl, hparse, hout⟩
    · have hholds : ¬ Unholdable S (key, some value) := by
        rintro ⟨text, htext, hfloat, hbad⟩
        cases htext
        cases hlub.unique hfloat
        rcases reformatValue_number conv text with ⟨x, hparse, -⟩ | ⟨err, -, hout'⟩
        · exact hbad x hparse
        · rw [hout'] at hout
          cases hout
      simp only [ReformatRecord, hfield, hsound.getType, hout, hholds]
      cases ReformatRecord conv visit schema rest <;> simp [Except.map]
    · simp only [ReformatRecord, hfield, hsound.getType, hout]
      exact iff_of_false (by simp) fun h => h.1 ⟨text, rfl, hlub, fun x => by simp [hparse]⟩

theorem reformatAll_ok_iff (hschema : AllTracked S schema)
    (hfollowed : ∀ record ∈ records, Followed S record) (batch : Batch go) (idx : Nat) :
    (∃ out, reformatAll conv schema batch idx records = .ok out) ↔
      ∀ record ∈ records, ∀ entry ∈ record, ¬ Unholdable S entry := by
  induction records generalizing idx with
  | nil => simp [reformatAll]
  | cons record rest ih =>
    obtain ⟨hrecord, hrest⟩ := forall_mem_cons.1 hfollowed
    have hperm := (batch.reformatting idx).perm record
    have hvisited : Followed S ((batch.reformatting idx).order record) :=
      fun entry hentry => hrecord entry (hperm.mem_iff.1 hentry)
    have hone := reformatRecord_ok_iff conv hschema hvisited (batch.types idx)
    simp only [hperm.mem_iff] at hone
    rw [forall_mem_cons, ← hone, ← ih hrest (idx + 1), reformatAll]
    cases ReformatRecord conv (batch.types idx) schema ((batch.reformatting idx).order record) with
    | error text => simp
    | ok out => cases reformatAll conv schema batch (idx + 1) rest <;> simp [Except.map]

end Reformat

/-! ### Batches -/

section Batches

variable (conv : Conversions go) (resolve)

/-- The types that a batch has in a column, null apart; a batch that cannot be flattened is
refused and has none. -/
def detected (batch : Batch go) (k : String) : Set DataType :=
  {t | t ≠ .null ∧ ∃ records, flatAll resolve batch.records = .ok records ∧ t ∈ typesIn k records}

/-- The initial type of a column and all that came in. -/
def history (initial : Fields) (batches : List (Batch go)) (k : String) : Set DataType :=
  {t | (∃ f, initial k = some f ∧ f.dataType = some t) ∨ ∃ batch ∈ batches, t ∈ detected resolve batch k}

def writeAll (batches : List (Batch go)) (schema : Fields) : Fields :=
  Machine.run (fun batch schema => (FlattenAndCleanData conv resolve schema batch).1) batches schema

/-- The tasks of each batch are done when its turns are over. -/
def AllComplete (batches : List (Batch go)) (schema : Fields) : Prop :=
  Machine.Along (fun batch schema => (FlattenAndCleanData conv resolve schema batch).1)
    (fun batch schema => batch.Complete resolve schema) batches schema

/-- The schemas that a writer can start with: that of the stream, or a clone of what another
writer of the stream has come to. -/
inductive Opened : Fields → Prop
  | fromSchema (schema : String → Option DataType) : Opened (Fields.FromSchema schema)
  | clone {initial : Fields} {batches : List (Batch go)} :
      Opened initial → AllComplete resolve conv batches initial →
      Opened (writeAll resolve conv batches initial)

variable {conv resolve}

theorem detected_of_flat (hflat : flatAll resolve batch.records = .ok records) (k : String) :
    detected resolve batch k = typesIn k records := by
  ext t
  constructor
  · rintro ⟨-, records', hflat', ht⟩
    rw [hflat] at hflat'
    cases hflat'
    exact ht
  · rintro ⟨record, hrecord, v, hv, rfl⟩
    obtain ⟨value, -, -, hnull⟩ := (proper_flatAll hflat record hrecord).value k v hv
    exact ⟨hnull, records, hflat, record, hrecord, v, hv, rfl⟩

variable (conv) in
/-- What `FlattenAndCleanData` does with a batch that can be flattened. -/
theorem flattenAndCleanData_of_flat (hschema : AllTracked S schema)
    (hcomplete : batch.Complete resolve schema)
    (hflat : flatAll resolve batch.records = .ok records) :
    (FlattenAndCleanData conv resolve schema batch).1 = (processAll batch 0 schema records).2 ∧
    ((∃ out, (FlattenAndCleanData conv resolve schema batch).2 = .ok out) ↔
      ∃ out, reformatAll conv (processAll batch 0 schema records).2 batch 0 records = .ok out) := by
  have herr : (FlagTasks.run (tasks resolve schema batch) batch.turns).err = none := by
    rcases detect_spec hcomplete with ⟨-, hnot⟩ | ⟨herr, -⟩
    · exact absurd ⟨records, hflat⟩ hnot
    · exact herr
  unfold FlattenAndCleanData
  rw [herr, hflat]
  simp only [schemaAfter_eq hschema hcomplete hflat]
  cases reformatAll conv (processAll batch 0 schema records).2 batch 0 records with
  | error | ok => exact ⟨rfl, by simp⟩

/-- A batch adds its types to those of the columns. -/
theorem tracked_batch (hschema : AllTracked S schema) (hcomplete : batch.Complete resolve schema) :
    AllTracked (fun k => S k ∪ detected resolve batch k)
      (FlattenAndCleanData conv resolve schema batch).1 := by
  rcases detect_spec hcomplete with ⟨herr, hnot⟩ | ⟨-, records, hflat, -⟩
  · have hnone : ∀ k, detected resolve batch k = ∅ := by
      intro k
      rw [Set.eq_empty_iff_forall_notMem]
      rintro t ⟨-, records, hflat, -⟩
      exact hnot ⟨records, hflat⟩
    obtain ⟨text, htext⟩ := Option.isSome_iff_exists.1 herr
    simpa only [hnone, Set.union_empty, FlattenAndCleanData, htext] using hschema
  · simp only [detected_of_flat hflat, (flattenAndCleanData_of_flat conv hschema hcomplete hflat).1]
    exact tracked_processAll hschema (proper_flatAll hflat) batch 0

theorem tracked_writeAll (hschema : AllTracked S schema)
    (hcomplete : AllComplete resolve conv batches schema) :
    AllTracked (fun k => S k ∪ {t | ∃ batch ∈ batches, t ∈ detected resolve batch k})
      (writeAll resolve conv batches schema) := by
  induction batches generalizing S schema with
  | nil => simpa [writeAll, run] using hschema
  | cons batch rest ih =>
    have hrest := ih (tracked_batch hschema hcomplete.1) hcomplete.2
    intro k
    have hk := hrest k
    have hsets : S k ∪ {t | ∃ b ∈ batch :: rest, t ∈ detected resolve b k} =
        S k ∪ detected resolve batch k ∪ {t | ∃ b ∈ rest, t ∈ detected resolve b k} := by
      ext t
      simp [or_assoc]
    dsimp only at hk ⊢
    rw [hsets]
    exact hk

/-- In a schema whose fields are sound, each column has had its own type. -/
theorem tracked_initial (h : ∀ k f, schema k = some f → ∃ t, f.Sound t) :
    AllTracked (fun k => {t | ∃ f, schema k = some f ∧ f.dataType = some t}) schema := by
  intro k
  cases hk : schema k with
  | none => simp [Tracked, hk]
  | some f =>
    obtain ⟨t, hsound⟩ := h k f hk
    refine ⟨t, hsound, ?_⟩
    simp [hk, hsound.cached]

theorem AllTracked.sound (h : AllTracked S schema) (hf : schema k = some f) : ∃ t, f.Sound t := by
  have hk := h k
  rw [hf] at hk
  obtain ⟨t, hsound, -⟩ := hk
  exact ⟨t, hsound⟩

theorem Opened.sound (h : Opened resolve conv schema) :
    ∀ k f, schema k = some f → ∃ t, f.Sound t := by
  induction h with
  | fromSchema schema =>
    intro k f hf
    obtain ⟨t, -, rfl⟩ := Option.map_eq_some_iff.1 hf
    exact ⟨t, newField_sound t⟩
  | clone _ hcomplete ih => exact fun k f hf => (tracked_writeAll (tracked_initial ih) hcomplete).sound hf

theorem tracked_history (hopened : Opened resolve conv initial)
    (hcomplete : AllComplete resolve conv batches initial) :
    AllTracked (history resolve initial batches) (writeAll resolve conv batches initial) := by
  have h := tracked_writeAll (tracked_initial hopened.sound) hcomplete
  exact fun k => h k

/-- The type of a column is the lowest common ancestor of its initial type and of all types that
came in, with and without the fast path, and the records of a batch that could be flattened are
all reformatted exactly if none has a number that no float can hold in a column of floats. -/
theorem columns_follow_types {initial : Fields} (hopened : Opened resolve conv initial)
    {batches : List (Batch go)} (hcomplete : AllComplete resolve conv batches initial) :
    (∀ k, (∀ f, writeAll resolve conv batches initial k = some f →
        ∀ visit, IsLUB (history resolve initial batches k) (f.getType visit).1) ∧
      (writeAll resolve conv batches initial k = none →
        history resolve initial batches k = ∅)) ∧
    ∀ before batch after, batches = before ++ batch :: after →
      ∀ records, flatAll resolve batch.records = .ok records →
        schemaAfter resolve (writeAll resolve conv before initial) batch records =
          processAll batch 0 (writeAll resolve conv before initial) records ∧
        ((∃ out, (FlattenAndCleanData conv resolve
            (writeAll resolve conv before initial) batch).2 = .ok out) ↔
          ∀ record ∈ records, ∀ entry ∈ record,
            ¬ Unholdable (history resolve initial (before ++ [batch])) entry) := by
  refine ⟨fun k => ?_, ?_⟩
  · have htracked := tracked_history hopened hcomplete k
    refine ⟨fun f hf visit => ?_, fun hnone => ?_⟩
    · rw [hf] at htracked
      obtain ⟨t, hsound, hlub⟩ := htracked
      rw [hsound.getType]
      exact hlub
    · rw [hnone] at htracked
      exact htracked
  · rintro before batch after rfl records hflat
    obtain ⟨hbefore, hbatch, -⟩ := along_append.1 hcomplete
    have hschema := tracked_history hopened hbefore
    have hnext : AllComplete resolve conv (before ++ [batch]) initial :=
      along_append.2 ⟨hbefore, hbatch, trivial⟩
    have hafter := tracked_history hopened hnext
    obtain ⟨hfields, hout⟩ := flattenAndCleanData_of_flat conv hschema hbatch hflat
    rw [writeAll, run_append] at hafter
    change AllTracked _ (FlattenAndCleanData conv resolve _ batch).1 at hafter
    rw [← writeAll, hfields] at hafter
    refine ⟨schemaAfter_eq hschema hbatch hflat, hout.trans ?_⟩
    refine reformatAll_ok_iff conv hafter (fun record hrecord entry hentry => ?_) batch 0
    obtain ⟨value, hvalue, hflatValue, -⟩ := (proper_flatAll hflat record hrecord).value entry.1 entry.2 hentry
    refine ⟨.inr ⟨batch, by simp, ?_⟩, value, hvalue, hflatValue⟩
    rw [detected_of_flat hflat]
    exact ⟨record, hrecord, entry.2, hentry, rfl⟩

end Batches

/-! ### A number out of range -/

def amountBatch (text : String) : Batch ranges where
  records := [⟨[("amount", some (.number text))], [], List.nodup_nil⟩]
  turns := [0, 0]
  detecting := fun _ => ⟨id, fun _ => List.Perm.refl _⟩
  processing := fun _ => ⟨id, fun _ => List.Perm.refl _⟩
  reformatting := fun _ => ⟨id, fun _ => List.Perm.refl _⟩
  types := fun _ _ => ⟨id, fun _ => List.Perm.refl _⟩

def amounts : Fields := .FromSchema (fun k => if k = "amount" then some .int64 else none)

theorem columns_follow_types_amounts :
    AllComplete id rangeConversions [amountBatch "5", amountBatch "2.5"] amounts ∧
    ∀ f, writeAll id rangeConversions [amountBatch "5", amountBatch "2.5"] amounts "amount" = some f →
      ∀ visit, IsLUB (history id amounts [amountBatch "5", amountBatch "2.5"] "amount") (f.getType visit).1 := by
  have hcomplete : AllComplete id rangeConversions [amountBatch "5", amountBatch "2.5"] amounts := by
    unfold AllComplete Batch.Complete
    decide
  exact ⟨hcomplete, ((columns_follow_types (Opened.fromSchema _) hcomplete).1 "amount").1⟩

/-- The batch is flattened and its type is recorded, but the number cannot be reformatted to it. -/
theorem number_out_of_range : (amountBatch "1e400").Complete id (fun _ => none) ∧
    (∃ records, flatAll id (amountBatch "1e400").records = .ok records) ∧
    (FlattenAndCleanData rangeConversions id (fun _ => none) (amountBatch "1e400")).1 "amount" =
      some (NewField .float64) ∧
    (FlattenAndCleanData rangeConversions id (fun _ => none) (amountBatch "1e400")).2 =
      .error ("failed to reformat records: failed to reformat value[] to datatype[number] " ++
        "for key[amount]: value out of range") := by
  refine ⟨?_, ⟨_, rfl⟩, rfl, ?_⟩
  · unfold Batch.Complete
    decide
  · rfl

end Olake.ParquetFields
