/-
Whether the schema found for a batch depends on the order of things.

Two things do depend on it.  A column of type float takes a double and is then a double, which
takes integers and booleans too, but a float does not take them: a batch with both is accepted
or not, depending on which record comes first.  And of two columns of a record that have one
name at the destination the one that is visited last counts.  Where neither matters (`Steady`)
all runs over a batch agree, and only there or where no run accepts the batch
(`outcome_unique_iff`).
-/
import Olake.Proofs.Iceberg.SchemaTasks

namespace Olake.IcebergSchema

open Typeutils List Option Keyed

variable {go : GoLib} {resolve : String → String} {threadSchema : SchemaMap}

/-! ### The columns of a batch -/

section Columns

variable (resolve)

/-- The types of the values for a column, record by record. -/
def columnTypes (k : String) (records : List (BatchRecord go)) : List String :=
  records.filterMap (fun record =>
    match flat resolve record with
    | .ok d => typeAt d k
    | .error _ => none)

variable {resolve} {records : List (BatchRecord go)}

theorem mem_columnTypes : t ∈ columnTypes resolve k records ↔
      ∃ record ∈ records, ∃ d, flat resolve record = .ok d ∧ typeAt d k = some t := by
  simp only [columnTypes, mem_filterMap]
  refine exists_congr fun record => and_congr_right fun _ => ?_
  cases flat resolve record <;> simp

theorem columnTypes_mem : ∀ t ∈ columnTypes resolve k records, t ∈ names := by
  intro t h
  obtain ⟨_, _, _, _, ht⟩ := mem_columnTypes.1 h
  exact typeAt_mem ht

theorem exists_record_iff {X : String → String → Prop} :
    (∃ record ∈ records, ∃ d k t, flat resolve record = .ok d ∧ typeAt d k = some t ∧ X k t) ↔
      ∃ k, ∃ t ∈ columnTypes resolve k records, X k t := by
  constructor
  · rintro ⟨record, hrecord, d, k, t, hd, ht, hX⟩
    exact ⟨k, t, mem_columnTypes.2 ⟨record, hrecord, d, hd, ht⟩, hX⟩
  · rintro ⟨k, t, ht, hX⟩
    obtain ⟨record, hrecord, d, hd, ht⟩ := mem_columnTypes.1 ht
    exact ⟨record, hrecord, d, k, t, hd, ht, hX⟩

theorem columnTypes_cons (h : flat resolve record = .ok d) (rest : List (BatchRecord go)) :
    columnTypes resolve k (record :: rest) = (typeAt d k).toList ++ columnTypes resolve k rest := by
  cases ht : typeAt d k <;> simp [columnTypes, h, ht]

end Columns

variable {record : BatchRecord go}

theorem update_record_iff (hd : flat resolve record = .ok d)
    (visit : Visit go) (schemaMap schemaMap' : SchemaMap) :
    (∃ b, detectOrUpdateSchema false threadSchema schemaMap (visit.order d) = .ok (b, schemaMap')) ↔
      ∀ k, Keyed.run (columnStep (threadSchema k)) (schemaMap k) (typeAt d k).toList = some (schemaMap' k) := by
  have hiff := feed_eq_some_iff (fun k => columnStep (threadSchema k)) schemaMap schemaMap'
    (typed (visit.order d))
  simp only [eventsOf_typed (nodup_flat hd) (visit.perm d)] at hiff
  have hok : ∀ result : Except String (Bool × SchemaMap),
      (∃ b, result = .ok (b, schemaMap')) ↔ result.toOption.map Prod.snd = some schemaMap' := by
    rintro (_ | ⟨b, s⟩) <;> simp [Except.toOption]
  rw [hok, update_eq_feed, ← hiff]
  simp

theorem updateSchema_cons (hd : flat resolve record = .ok d)
    (visit : Nat → Visit go) (rest : List (BatchRecord go)) (i : Nat)
    (schemaMap schemaMap' : SchemaMap) :
    updateSchema resolve threadSchema visit i schemaMap (record :: rest) = .ok schemaMap' ↔
      ∃ s, (∃ b, detectOrUpdateSchema false threadSchema schemaMap ((visit i).order d) = .ok (b, s)) ∧
        updateSchema resolve threadSchema visit (i + 1) s rest = .ok schemaMap' := by
  rw [updateSchema, hd]
  dsimp only
  rcases detectOrUpdateSchema false threadSchema schemaMap ((visit i).order d) with _ | ⟨b, s⟩ <;> simp

/-- The second pass takes each column through its values in the order of the records. -/
theorem updateSchema_iff (visit : Nat → Visit go) (records : List (BatchRecord go)) (i : Nat)
    (schemaMap schemaMap' : SchemaMap) :
    updateSchema resolve threadSchema visit i schemaMap records = .ok schemaMap' ↔
      (∀ record ∈ records, Flattens record.data) ∧
      ∀ k, Keyed.run (columnStep (threadSchema k)) (schemaMap k) (columnTypes resolve k records) =
        some (schemaMap' k) := by
  induction records generalizing i schemaMap with
  | nil =>
    simp only [updateSchema, Except.ok.injEq, columnTypes, filterMap_nil, run_nil, some.injEq,
      not_mem_nil, false_implies, implies_true, true_and]
    exact funext_iff
  | cons record rest ih =>
    cases hflat : flat resolve record with
    | error text =>
      refine iff_of_false (by simp [updateSchema, hflat]) fun h => ?_
      obtain ⟨d, hd⟩ := (flat_ok_iff resolve record).2 (h.1 record mem_cons_self)
      rw [hflat] at hd
      cases hd
    | ok d =>
      have hrecord := (flat_ok_iff resolve record).1 ⟨d, hflat⟩
      rw [updateSchema_cons hflat]
      simp only [update_record_iff hflat, ih, columnTypes_cons hflat, run_append, bind_eq_some_iff,
        mem_cons, forall_eq_or_imp]
      constructor
      · rintro ⟨s, hs, hrest, hrun⟩
        exact ⟨⟨hrecord, hrest⟩, fun k => ⟨s k, hs k, hrun k⟩⟩
      · rintro ⟨⟨-, hrest⟩, hrun⟩
        choose s hs hrun using hrun
        exact ⟨s, hs, hrest, hrun⟩

/-! ### Accepted batches -/

/-- Values that change nothing leave the column as it is, and if it takes them none was refused. -/
theorem columnRun_unchanged
    (h : ∀ t ∈ ts, ¬ Changes threadSchema k t) (hrun : columnRun (threadSchema k) ts = some cur) :
    cur = threadSchema k ∧ ∀ t ∈ ts, ¬ Refused threadSchema k t := by
  refine run_induction (I := fun cur seen => (∀ t ∈ seen, ¬ Changes threadSchema k t) →
    cur = threadSchema k ∧ ∀ t ∈ seen, ¬ Refused threadSchema k t) (fun _ => ⟨rfl, by simp⟩)
    (fun cur t seen cur' hI hstep hquiet => ?_) hrun h
  obtain ⟨rfl, hseen⟩ := hI fun u hu => hquiet u (mem_append_left _ hu)
  have ht := hquiet t (by simp)
  cases hT : threadSchema k with
  | none => simp [Changes, hT] at ht
  | some T =>
    have hpromo : isPromotionRequired T t = false := by simpa [Changes, hT] using ht
    simp only [columnStep, hT, getD_some, hpromo, Bool.false_eq_true, if_false] at hstep
    split at hstep
    · next hvalid =>
      cases hstep
      exact ⟨rfl, forall_mem_append.2 ⟨hseen, by simp [Refused, hT, hvalid]⟩⟩
    · cases hstep

section Batch

variable {records : List (BatchRecord go)} {schedule : Schedule go}

/-- An accepted batch: the schema has each column after its values, and it differs from the
thread's exactly if the flag says so. -/
theorem extract_ok (hcomplete : schedule.Complete resolve threadSchema records)
    (h : extractSchemaFromRecords resolve threadSchema records schedule = .ok (diff, schemaMap)) :
    (∀ record ∈ records, Flattens record.data) ∧
      (∀ k, columnRun (threadSchema k) (columnTypes resolve k records) = some (schemaMap k)) ∧
      (diff = true ↔ ∃ record ∈ records, Differs resolve threadSchema record) := by
  unfold extractSchemaFromRecords at h
  dsimp only at h
  rcases detect_spec hcomplete with ⟨herr, -⟩ | ⟨herr, hflat, ⟨hdiff, hdiffers⟩ | ⟨hdiff, hquiet⟩⟩
  · obtain ⟨text, htext⟩ := isSome_iff_exists.1 herr
    rw [htext] at h
    cases h
  · rw [herr, hdiff] at h
    simp only [if_true] at h
    split at h
    · cases h
    · next s hs =>
      cases h
      exact ⟨hflat, ((updateSchema_iff _ _ _ _ _).1 hs).2, iff_of_true rfl hdiffers⟩
  · rw [herr, hdiff] at h
    cases h
    have hnone : ¬ ∃ record ∈ records, Differs resolve threadSchema record :=
      fun ⟨record, hrecord, hdiffers⟩ => (hquiet record hrecord).2 hdiffers
    refine ⟨hflat, fun k => ?_, iff_of_false (by simp) hnone⟩
    have hvalid : ∀ T, threadSchema k = some T → ∀ t ∈ columnTypes resolve k records,
        isValidTransition T t = true := by
      intro T hT t ht
      obtain ⟨record, hrecord, d, hd, ht⟩ := mem_columnTypes.1 ht
      by_contra hvalid
      exact (hquiet record hrecord).1 ⟨d, k, t, hd, ht, T, hT, by simpa using hvalid⟩
    obtain ⟨cur, hcur⟩ := isSome_iff_exists.1 (columnRun_isSome columnTypes_mem hvalid)
    have hunchanged : ∀ t ∈ columnTypes resolve k records, ¬ Changes threadSchema k t := fun t ht hchanges =>
      hnone (exists_record_iff.2 ⟨k, t, ht, hchanges⟩)
    rw [hcur, (columnRun_unchanged hunchanged hcur).1]

/-- A batch that gets through the first pass is accepted if its columns take their values. -/
theorem extract_of_err_none (hcomplete : schedule.Complete resolve threadSchema records)
    (herr : (FlagTasks.run (tasks resolve threadSchema records schedule.detecting) schedule.turns).err = none)
    (hcolumns : ∀ k, (columnRun (threadSchema k) (columnTypes resolve k records)).isSome) :
    ∃ out, extractSchemaFromRecords resolve threadSchema records schedule = .ok out := by
  unfold extractSchemaFromRecords
  dsimp only
  rcases detect_spec hcomplete with ⟨herr', -⟩ | ⟨-, hflat, ⟨hdiff, -⟩ | ⟨hdiff, -⟩⟩
  · rw [herr] at herr'
    cases herr'
  · choose s hs using fun k => isSome_iff_exists.1 (hcolumns k)
    have hupdate := (updateSchema_iff schedule.updating records 0 threadSchema s).2 ⟨hflat, hs⟩
    rw [herr, hdiff, hupdate]
    exact ⟨_, rfl⟩
  · rw [herr, hdiff]
    exact ⟨_, rfl⟩

/-- The schema has changed exactly if a record differs from the thread's. -/
theorem schema_ne_iff
    (hcolumns : ∀ k, columnRun (threadSchema k) (columnTypes resolve k records) = some (schemaMap k)) :
    (∃ record ∈ records, Differs resolve threadSchema record) ↔ schemaMap ≠ threadSchema := by
  constructor
  · intro hdiffers heq
    obtain ⟨k, t, ht, hchanges⟩ := exists_record_iff.1 hdiffers
    have hspec := columnRun_spec columnTypes_mem (hcolumns k)
    rw [heq] at hspec
    rcases hspec with ⟨-, -, hnil⟩ | ⟨e, he, hlub, -⟩
    · rw [hnil] at ht
      cases ht
    · -- the column has its old type, which the value would have promoted
      rw [Changes, he] at hchanges
      have hle : icebergTypeToDatatype t ≤ icebergTypeToDatatype e := hlub.1 ⟨t, .inr ht, rfl⟩
      rcases isPromotionRequired_cases hchanges with ⟨rfl, rfl⟩ | ⟨rfl, rfl⟩ <;> exact absurd hle (by decide)
  · intro hne
    by_contra hnone
    refine hne (funext fun k => (columnRun_unchanged (fun t ht hchanges => hnone ?_) (hcolumns k)).1)
    exact exists_record_iff.2 ⟨k, t, ht, hchanges⟩

end Batch

/-! ### The same batch -/

/-- The same record, with its maps in another order. -/
def SameRecord (record record' : BatchRecord go) : Prop :=
  record.data.Perm record'.data ∧ record.olakeColumns.Perm record'.olakeColumns

/-- The same records, in any order. -/
def SameBatch (records batch : List (BatchRecord go)) : Prop :=
  ∃ middle, records.Perm middle ∧ List.Forall₂ SameRecord middle batch

theorem SameRecord.refl (record : BatchRecord go) : SameRecord record record :=
  ⟨List.Perm.refl _, List.Perm.refl _⟩

theorem SameBatch.refl (records : List (BatchRecord go)) : SameBatch records records :=
  ⟨records, List.Perm.refl _, forall₂_same.2 fun record _ => SameRecord.refl record⟩

theorem forall₂_mem_right (h : List.Forall₂ R l l') (hb : b ∈ l') : ∃ a ∈ l, R a b := by
  induction h with
  | nil => cases hb
  | @cons a b' l l' hab _ ih =>
    rcases mem_cons.1 hb with rfl | hb
    · exact ⟨a, mem_cons_self, hab⟩
    · obtain ⟨a', ha', h'⟩ := ih hb
      exact ⟨a', mem_cons_of_mem _ ha', h'⟩

variable {records : List (BatchRecord go)}

theorem SameBatch.of_mem (h : SameBatch records batch)
    (hmem : record' ∈ batch) : ∃ record ∈ records, SameRecord record record' := by
  obtain ⟨middle, hperm, hall⟩ := h
  obtain ⟨record, hrecord, hsame⟩ := forall₂_mem_right hall hmem
  exact ⟨record, hperm.mem_iff.2 hrecord, hsame⟩

theorem SameBatch.mem (h : SameBatch records batch)
    (hmem : record ∈ records) : ∃ record' ∈ batch, SameRecord record record' := by
  obtain ⟨middle, hperm, hall⟩ := h
  exact forall₂_mem_right hall.flip (hperm.mem_iff.1 hmem)

/-- Each record can be put in an order of its own. -/
theorem exists_sameBatch {Q : BatchRecord go → BatchRecord go → Prop}
    (h : ∀ record ∈ records, ∃ record', SameRecord record record' ∧ Q record record') :
    ∃ batch, SameBatch records batch ∧ (∀ record' ∈ batch, ∃ record ∈ records, Q record record') ∧
      ∀ record ∈ records, ∃ record' ∈ batch, Q record record' := by
  choose! order horder using h
  refine ⟨records.map order, ⟨records, List.Perm.refl _, forall₂_map_right_iff.2
    (forall₂_same.2 fun record hmem => (horder record hmem).1)⟩, forall_mem_map.2 fun record hmem =>
    ⟨record, hmem, (horder record hmem).2⟩, fun record hmem =>
    ⟨order record, mem_map_of_mem hmem, (horder record hmem).2⟩⟩

/-! ### The types a column can get from a record -/

section Candidates

variable (resolve)

/-- The types that the column can get from the record: that of the olake column of this name, or
those of the data's columns that have this name at the destination. -/
def candidates (record : BatchRecord go) (k : String) : List String :=
  match record.olakeColumns.lookup k with
  | some v => (typeOf v).toList
  | none => (landing resolve k record.data).filterMap (fun v => typeOf (some v))

variable {resolve}

/-- A value that comes in under a name has a type. -/
theorem typeOf_landing (h : v ∈ landing resolve k data) : ∃ t, typeOf (some v) = some t := by
  obtain ⟨p, -, hp⟩ := mem_filterMap.1 h
  split at hp
  · obtain ⟨w, -, hw⟩ := bind_eq_some_iff.1 hp
    have hflat : flattenValue w = .ok v := by
      cases hval : flattenValue w <;> simp_all [Except.toOption]
    exact ⟨_, if_neg (typeFromValue_flattenValue hflat)⟩
  · cases hp

theorem SameRecord.lookup (h : SameRecord record record') (k : String) :
    record'.olakeColumns.lookup k = record.olakeColumns.lookup k := by
  refine ext fun v => ?_
  rw [lookup_eq_some_iff record'.nodup, lookup_eq_some_iff record.nodup, h.2.mem_iff]

variable (resolve) in
theorem SameRecord.landing_perm (h : SameRecord record record') (k : String) :
    (landing resolve k record.data).Perm (landing resolve k record'.data) :=
  h.1.filterMap _

variable {record record' : BatchRecord go} {d : Record (Value go)} {k t : String}

/-- The type a column gets is one of these. -/
theorem mem_candidates (hsame : SameRecord record record') (hd : flat resolve record' = .ok d)
    (ht : typeAt d k = some t) : t ∈ candidates resolve record k := by
  rw [typeAt_flat hd, hsame.lookup] at ht
  unfold candidates
  cases hlookup : record.olakeColumns.lookup k with
  | some v =>
    rw [hlookup] at ht
    simpa using ht
  | none =>
    rw [hlookup] at ht
    obtain ⟨v, hv, ht⟩ := bind_eq_some_iff.1 ht
    exact mem_filterMap.2 ⟨v, (hsame.landing_perm resolve k).mem_iff.2 (mem_of_getLast? hv), ht⟩

/-- If there are any the column gets one. -/
theorem exists_typeAt (hsame : SameRecord record record') (hd : flat resolve record' = .ok d)
    (hne : candidates resolve record k ≠ []) : ∃ t, typeAt d k = some t := by
  rw [typeAt_flat hd, hsame.lookup]
  unfold candidates at hne
  cases hlookup : record.olakeColumns.lookup k with
  | some v =>
    rw [hlookup] at hne
    cases hv : typeOf v with
    | none => simp [hv] at hne
    | some t => exact ⟨t, hv⟩
  | none =>
    rw [hlookup] at hne
    cases hlast : (landing resolve k record'.data).getLast? with
    | none =>
      have hnil : landing resolve k record'.data = [] := getLast?_eq_none_iff.1 hlast
      have hperm := hsame.landing_perm resolve k
      rw [hnil] at hperm
      simp [perm_nil.1 hperm] at hne
    | some v => exact typeOf_landing (mem_of_getLast? hlast)

/-- Each of them can be the one. -/
theorem exists_candidate_last (hflat : Flattens record.data) (ht : t ∈ candidates resolve record k) :
    ∃ record' d, SameRecord record record' ∧ flat resolve record' = .ok d ∧ typeAt d k = some t := by
  unfold candidates at ht
  cases hlookup : record.olakeColumns.lookup k with
  | some v =>
    obtain ⟨d, hd⟩ := (flat_ok_iff resolve record).2 hflat
    refine ⟨record, d, SameRecord.refl record, hd, ?_⟩
    rw [typeAt_flat hd]
    simpa [hlookup] using ht
  | none =>
    rw [hlookup] at ht
    obtain ⟨v, hv, hvt⟩ := mem_filterMap.1 ht
    obtain ⟨p, hp, hpv⟩ := mem_filterMap.1 hv
    -- the column is put last
    obtain ⟨before, after, hdata⟩ := append_of_mem hp
    have hperm : record.data.Perm (before ++ after ++ [p]) := by
      rw [hdata]
      exact perm_middle.trans (perm_append_singleton _ _).symm
    have hlast : (landing resolve k (before ++ after ++ [p])).getLast? = some v := by
      have hsplit : landing resolve k (before ++ after ++ [p]) =
          landing resolve k (before ++ after) ++ [v] := by
        simp [landing, hpv]
      rw [hsplit, getLast?_concat]
    have hsame : SameRecord record ⟨before ++ after ++ [p], record.olakeColumns, record.nodup⟩ :=
      ⟨hperm, List.Perm.refl _⟩
    obtain ⟨d, hd⟩ := (flat_ok_iff resolve
      ⟨before ++ after ++ [p], record.olakeColumns, record.nodup⟩).2 (hflat.perm hperm)
    refine ⟨_, d, hsame, hd, ?_⟩
    rw [typeAt_flat hd]
    simp only [hlookup, hlast, bind_some, hvt]

end Candidates

/-! ### Steady batches -/

section Steady

variable (resolve threadSchema) (records : List (BatchRecord go))

/-- The type of the column is settled, whichever values count: there is a type above all that it
can get, and for no smaller one has every record a value that it covers. -/
def Settled (k : String) : Prop :=
  ∃ j : DataType,
    (∀ t, (threadSchema k = some t ∨ ∃ record ∈ records, t ∈ candidates resolve record k) →
      icebergTypeToDatatype t ≤ j) ∧
    ∀ c < j, (∀ T, threadSchema k = some T → icebergTypeToDatatype T ≤ c) →
      ∃ record ∈ records, candidates resolve record k ≠ [] ∧
        ∀ t ∈ candidates resolve record k, ¬ icebergTypeToDatatype t ≤ c

/-- All that can come into a column of the table is valid for the type that it has in the
thread's schema, and the type of each column is settled. -/
structure Steady : Prop where
  flattens : ∀ record ∈ records, Flattens record.data
  fits : ∀ k T, threadSchema k = some T → ∀ record ∈ records, ∀ t ∈ candidates resolve record k,
    isValidTransition T t = true
  settled : ∀ k, Settled resolve threadSchema records k

/-- In some order of the records and of their columns, each column of the table takes the values
that come to it, one after the other. -/
def Passable : Prop :=
  ∃ batch, SameBatch records batch ∧ (∀ record ∈ batch, Flattens record.data) ∧
    ∀ k, (columnRun (threadSchema k) (columnTypes resolve k batch)).isSome

variable {resolve threadSchema records} {batch : List (BatchRecord go)} {schedule : Schedule go}
  {k : String}

theorem candidate_of_columnTypes (hsame : SameBatch records batch)
    (ht : t ∈ columnTypes resolve k batch) :
    ∃ record ∈ records, t ∈ candidates resolve record k := by
  obtain ⟨record', hrecord', d, hd, ht⟩ := mem_columnTypes.1 ht
  obtain ⟨record, hrecord, hsame⟩ := hsame.of_mem hrecord'
  exact ⟨record, hrecord, mem_candidates hsame hd ht⟩

theorem columnTypes_of_candidates (hsame : SameBatch records batch)
    (hflat : ∀ record ∈ batch, Flattens record.data)
    (hrecord : record ∈ records) (hne : candidates resolve record k ≠ []) :
    ∃ t ∈ columnTypes resolve k batch, t ∈ candidates resolve record k := by
  obtain ⟨record', hrecord', hsame⟩ := hsame.mem hrecord
  obtain ⟨d, hd⟩ := (flat_ok_iff resolve record').2 (hflat record' hrecord')
  obtain ⟨t, ht⟩ := exists_typeAt hsame hd hne
  exact ⟨t, mem_columnTypes.2 ⟨record', hrecord', d, hd, ht⟩, mem_candidates hsame hd ht⟩

/-- A settled column has the type that it is settled at. -/
theorem Settled.unique (h : Settled resolve threadSchema records k) :
    ∃ j, ∀ batch e, SameBatch records batch → (∀ record ∈ batch, Flattens record.data) →
      IsLUB (sources (threadSchema k) (columnTypes resolve k batch)) (icebergTypeToDatatype e) →
      icebergTypeToDatatype e = j := by
  obtain ⟨j, hcover, hleast⟩ := h
  refine ⟨j, fun batch e hsame hflat hlub => ?_⟩
  have hle : icebergTypeToDatatype e ≤ j := by
    refine hlub.2 ?_
    rintro x ⟨t, ht | ht, rfl⟩
    · exact hcover t (.inl ht)
    · exact hcover t (.inr (candidate_of_columnTypes hsame ht))
  by_contra hne
  obtain ⟨record, hrecord, hcand, hnot⟩ := hleast _ (lt_of_le_of_ne hle hne) fun T hT =>
    hlub.1 ⟨T, .inl hT, rfl⟩
  obtain ⟨t, ht, htc⟩ := columnTypes_of_candidates hsame hflat hrecord hcand
  exact hnot t htc (hlub.1 ⟨t, .inr ht, rfl⟩)

theorem SameBatch.flattens (hsame : SameBatch records batch) (h : ∀ record ∈ records, Flattens record.data) :
    ∀ record ∈ batch, Flattens record.data := by
  intro record' hrecord'
  obtain ⟨record, hrecord, hsame⟩ := hsame.of_mem hrecord'
  exact (h record hrecord).perm hsame.1

theorem Steady.accepted (h : Steady resolve threadSchema records) (hsame : SameBatch records batch)
    (hcomplete : schedule.Complete resolve threadSchema batch) :
    ∃ out, extractSchemaFromRecords resolve threadSchema batch schedule = .ok out := by
  have hflat := hsame.flattens h.flattens
  have hvalid : ∀ k T, threadSchema k = some T → ∀ t ∈ columnTypes resolve k batch,
      isValidTransition T t = true := by
    intro k T hT t ht
    obtain ⟨record, hrecord, ht⟩ := candidate_of_columnTypes hsame ht
    exact h.fits k T hT record hrecord t ht
  refine extract_of_err_none hcomplete ?_ fun k => columnRun_isSome columnTypes_mem (hvalid k)
  rcases detect_spec hcomplete with ⟨-, record, hrecord, hbad | ⟨d, k, t, hd, ht, T, hT, hrefused⟩⟩ | ⟨herr, -⟩
  · exact absurd (hflat record hrecord) hbad
  · rw [hvalid k T hT t (mem_columnTypes.2 ⟨record, hrecord, d, hd, ht⟩)] at hrefused
    cases hrefused
  · exact herr

theorem Steady.schema_eq (h : Steady resolve threadSchema records)
    (hsame₁ : SameBatch records batch₁) (hsame₂ : SameBatch records batch₂)
    {schema₁ schema₂ : SchemaMap}
    (h₁ : ∀ k, columnRun (threadSchema k) (columnTypes resolve k batch₁) = some (schema₁ k))
    (h₂ : ∀ k, columnRun (threadSchema k) (columnTypes resolve k batch₂) = some (schema₂ k)) :
    schema₁ = schema₂ := by
  funext k
  -- if one run has no value for the column, neither has the other
  have hempty : ∀ {batch batch'}, SameBatch records batch → SameBatch records batch' →
      columnTypes resolve k batch = [] → columnTypes resolve k batch' = [] := by
    intro batch batch' hsame hsame' hnil
    refine eq_nil_iff_forall_not_mem.2 fun t ht => ?_
    obtain ⟨record, hrecord, ht⟩ := candidate_of_columnTypes hsame' ht
    obtain ⟨u, hu, -⟩ := columnTypes_of_candidates hsame (hsame.flattens h.flattens) hrecord (ne_nil_of_mem ht)
    rw [hnil] at hu
    cases hu
  by_cases hnil : columnTypes resolve k batch₁ = []
  · have h₁ := h₁ k
    have h₂ := h₂ k
    rw [hnil] at h₁
    rw [hempty hsame₁ hsame₂ hnil] at h₂
    exact some.inj (h₁.symm.trans h₂)
  have hnil₂ : columnTypes resolve k batch₂ ≠ [] := fun hnil₂ => hnil (hempty hsame₂ hsame₁ hnil₂)
  obtain ⟨j, hunique⟩ := (h.settled k).unique
  have hfound : ∀ {batch cur}, SameBatch records batch → columnTypes resolve k batch ≠ [] →
      columnRun (threadSchema k) (columnTypes resolve k batch) = some cur → cur = some j.toIceberg := by
    intro batch cur hsame hne hrun
    rcases columnRun_spec columnTypes_mem hrun with ⟨-, -, hnil⟩ | ⟨e, he, hlub, hname⟩
    · exact absurd hnil hne
    · rcases hname with hname | ⟨-, hnil⟩
      · rw [he, ← hunique batch e hsame (hsame.flattens h.flattens) hlub,
          toIceberg_icebergTypeToDatatype hname]
      · exact absurd hnil hne
  rw [hfound hsame₁ hnil (h₁ k), hfound hsame₂ hnil₂ (h₂ k)]

/-! ### All runs over a batch -/

variable (resolve threadSchema records) in
/-- Whether the batch is accepted, and with which schema, is the same for every order of the
records and of their columns, and for every schedule. -/
def OneOutcome : Prop :=
  ∀ batch₁ batch₂ schedule₁ schedule₂, SameBatch records batch₁ → SameBatch records batch₂ →
    schedule₁.Complete resolve threadSchema batch₁ →
    schedule₂.Complete resolve threadSchema batch₂ →
    (extractSchemaFromRecords resolve threadSchema batch₁ schedule₁).toOption =
      (extractSchemaFromRecords resolve threadSchema batch₂ schedule₂).toOption

def inOrder : Visit go := ⟨id, fun m => List.Perm.refl m⟩

variable (resolve threadSchema) in
theorem exists_complete (batch : List (BatchRecord go)) :
    ∃ schedule : Schedule go, schedule.Complete resolve threadSchema batch := by
  obtain ⟨turns, hcomplete⟩ :=
    FlagTasks.exists_complete (tasks resolve threadSchema batch fun _ => inOrder)
  exact ⟨⟨fun _ => inOrder, fun _ => inOrder, turns⟩, hcomplete⟩

theorem passable_of_accepted (hsame : SameBatch records batch)
    (hcomplete : schedule.Complete resolve threadSchema batch)
    (h : extractSchemaFromRecords resolve threadSchema batch schedule = .ok out) :
    Passable resolve threadSchema records := by
  obtain ⟨hflat, hcolumns, -⟩ := extract_ok hcomplete h
  exact ⟨batch, hsame, hflat, fun k => by rw [hcolumns k]; rfl⟩

theorem exists_accepted (h : Passable resolve threadSchema records) :
    ∃ (batch : List (BatchRecord go)) (schedule : Schedule go) (out : Bool × SchemaMap), SameBatch records batch ∧
      schedule.Complete resolve threadSchema batch ∧
      extractSchemaFromRecords resolve threadSchema batch schedule = .ok out := by
  obtain ⟨batch, hsame, hflat, hcolumns⟩ := h
  have hpass : ∃ schedule : Schedule go, schedule.Complete resolve threadSchema batch ∧
      (FlagTasks.run (tasks resolve threadSchema batch schedule.detecting) schedule.turns).err = none := by
    by_cases hdiffers : ∃ record ∈ batch, Differs resolve threadSchema record
    · -- the change is met first
      obtain ⟨visit, turns, hpass⟩ := exists_detect_differs hdiffers hflat
      exact ⟨⟨visit, fun _ => inOrder, turns⟩, hpass⟩
    · -- nothing changes, so each column is met with the type it has
      obtain ⟨schedule, hcomplete⟩ := exists_complete resolve threadSchema batch
      refine ⟨schedule, hcomplete, ?_⟩
      rcases detect_spec hcomplete with ⟨-, record, hrecord, hbad | ⟨d, k, t, hd, ht, hrefused⟩⟩ | ⟨herr, -⟩
      · exact absurd (hflat record hrecord) hbad
      · obtain ⟨cur, hcur⟩ := isSome_iff_exists.1 (hcolumns k)
        have hunchanged := columnRun_unchanged (fun t ht hchanges =>
          hdiffers (exists_record_iff.2 ⟨k, t, ht, hchanges⟩)) hcur
        exact absurd hrefused (hunchanged.2 t (mem_columnTypes.2 ⟨record, hrecord, d, hd, ht⟩))
      · exact herr
  obtain ⟨schedule, hcomplete, herr⟩ := hpass
  obtain ⟨out, hout⟩ := extract_of_err_none hcomplete herr hcolumns
  exact ⟨batch, schedule, out, hsame, hcomplete, hout⟩

/-- One record can be put in an order that a column's value counts in. -/
theorem exists_batch_with (hrecord : record ∈ records)
    (hflat : ∀ record ∈ records, Flattens record.data) (ht : t ∈ candidates resolve record k) :
    ∃ batch, SameBatch records batch ∧ t ∈ columnTypes resolve k batch := by
  obtain ⟨record', d, hsame, hd, hdt⟩ := exists_candidate_last (hflat record hrecord) ht
  obtain ⟨batch, hbatch, -, hall⟩ := exists_sameBatch
    (Q := fun r r' => r = record → ∃ d, flat resolve r' = .ok d ∧ typeAt d k = some t)
    fun r (_ : r ∈ records) => by
      by_cases hr : r = record
      · exact ⟨record', hr ▸ hsame, fun _ => ⟨d, hd, hdt⟩⟩
      · exact ⟨r, SameRecord.refl r, fun h => absurd h hr⟩
  obtain ⟨r', hr', hq⟩ := hall record hrecord
  exact ⟨batch, hbatch, mem_columnTypes.2 ⟨r', hr', hq rfl⟩⟩

/-- If every record can have a value below `c`, then in some order they all have. -/
theorem exists_batch_below (hflat : ∀ record ∈ records, Flattens record.data)
    (h : ∀ record ∈ records, candidates resolve record k ≠ [] →
      ∃ t ∈ candidates resolve record k, icebergTypeToDatatype t ≤ c) :
    ∃ batch, SameBatch records batch ∧ ∀ t ∈ columnTypes resolve k batch, icebergTypeToDatatype t ≤ c := by
  obtain ⟨batch, hsame, hbelow, -⟩ := exists_sameBatch
    (Q := fun _ r' => ∀ d t, flat resolve r' = .ok d → typeAt d k = some t → icebergTypeToDatatype t ≤ c)
    fun r (hr : r ∈ records) => by
      by_cases hcand : candidates resolve r k = []
      · refine ⟨r, SameRecord.refl r, fun d t hd hdt => ?_⟩
        have hmem := mem_candidates (SameRecord.refl r) hd hdt
        rw [hcand] at hmem
        cases hmem
      · obtain ⟨t, ht, htc⟩ := h r hr hcand
        obtain ⟨r', d, hsame, hd, hdt⟩ := exists_candidate_last (hflat r hr) ht
        refine ⟨r', hsame, fun d' t' hd' hdt' => ?_⟩
        cases hd.symm.trans hd'
        cases hdt.symm.trans hdt'
        exact htc
  refine ⟨batch, hsame, fun t ht => ?_⟩
  obtain ⟨record', hrecord', d, hd, hdt⟩ := mem_columnTypes.1 ht
  obtain ⟨_, -, hq⟩ := hbelow record' hrecord'
  exact hq d t hd hdt

/-- If all runs accept a batch with one outcome, it is steady. -/
theorem steady_of_accepted
    (hall : ∀ batch schedule, SameBatch records batch → schedule.Complete resolve threadSchema batch →
      extractSchemaFromRecords resolve threadSchema batch schedule = .ok (diff, schema)) :
    Steady resolve threadSchema records := by
  have hcolumns : ∀ batch, SameBatch records batch → (∀ record ∈ batch, Flattens record.data) ∧
      ∀ k, Typed (threadSchema k) (schema k) (columnTypes resolve k batch) := by
    intro batch hsame
    obtain ⟨schedule, hcomplete⟩ := exists_complete resolve threadSchema batch
    obtain ⟨hflat, hrun, -⟩ := extract_ok hcomplete (hall batch schedule hsame hcomplete)
    exact ⟨hflat, fun k => columnRun_spec columnTypes_mem (hrun k)⟩
  have hflat := (hcolumns records (SameBatch.refl records)).1
  refine ⟨hflat, fun k T hT record hrecord t ht => ?_, fun k => ?_⟩
  · -- a value that is not valid would be refused if it were met first
    by_contra hvalid
    obtain ⟨batch, hsame, ht⟩ := exists_batch_with hrecord hflat ht
    have hrefuses : ∃ record ∈ batch, Refuses resolve threadSchema record :=
      exists_record_iff.2 ⟨k, t, ht, T, hT, by simpa using hvalid⟩
    obtain ⟨visit, turns, hcomplete, herr⟩ := exists_detect_refuses hrefuses
    have hok := hall batch ⟨visit, fun _ => inOrder, turns⟩ hsame hcomplete
    obtain ⟨text, htext⟩ := isSome_iff_exists.1 herr
    simp [extractSchemaFromRecords, htext] at hok
  · have hsource : ∀ t, (threadSchema k = some t ∨ ∃ record ∈ records, t ∈ candidates resolve record k) →
        ∃ batch, SameBatch records batch ∧ (threadSchema k = some t ∨ t ∈ columnTypes resolve k batch) := by
      rintro t (ht | ⟨record, hrecord, ht⟩)
      · exact ⟨records, SameBatch.refl records, .inl ht⟩
      · obtain ⟨batch, hsame, ht⟩ := exists_batch_with hrecord hflat ht
        exact ⟨batch, hsame, .inr ht⟩
    cases hk : schema k with
    | none =>
      -- the column has no values at all
      refine ⟨.bool, fun t ht => ?_, fun c hc => ?_⟩
      · obtain ⟨batch, hsame, ht⟩ := hsource t ht
        rcases (hcolumns batch hsame).2 k with ⟨-, hthread, hnil⟩ | ⟨e, he, -⟩
        · simp [hthread, hnil] at ht
        · cases hk.symm.trans he
      · -- nothing is below a boolean
        exact absurd (lt_iff_le_and_ne.1 hc) (by cases c <;> decide)
    | some e =>
      have hlub : ∀ batch, SameBatch records batch →
          IsLUB (sources (threadSchema k) (columnTypes resolve k batch)) (icebergTypeToDatatype e) := by
        intro batch hsame
        rcases (hcolumns batch hsame).2 k with ⟨hnone, -⟩ | ⟨e', he', hlub, -⟩
        · cases hk.symm.trans hnone
        · cases hk.symm.trans he'
          exact hlub
      refine ⟨icebergTypeToDatatype e, fun t ht => ?_, fun c hc hbase => ?_⟩
      · obtain ⟨batch, hsame, ht⟩ := hsource t ht
        exact (hlub batch hsame).1 ⟨t, ht, rfl⟩
      · by_contra! hno
        obtain ⟨batch, hsame, hbelow⟩ := exists_batch_below hflat hno
        refine absurd hc (not_lt_of_ge ((hlub batch hsame).2 ?_))
        rintro x ⟨t, ht | ht, rfl⟩
        · exact hbase t ht
        · exact hbelow t ht

variable (resolve threadSchema records) in
/-- All runs over a batch agree on whether it is accepted and with which types, if and only if
none can accept it or the batch is steady. -/
theorem outcome_unique_iff :
    OneOutcome resolve threadSchema records ↔
      ¬ Passable resolve threadSchema records ∨ Steady resolve threadSchema records := by
  constructor
  · intro h
    by_cases hpass : Passable resolve threadSchema records
    · obtain ⟨batch₀, schedule₀, ⟨diff, schema⟩, hsame₀, hcomplete₀, hout₀⟩ := exists_accepted hpass
      have hall : ∀ batch schedule, SameBatch records batch →
          schedule.Complete resolve threadSchema batch →
          extractSchemaFromRecords resolve threadSchema batch schedule = .ok (diff, schema) := by
        intro batch schedule hsame hcomplete
        have heq := h batch batch₀ schedule schedule₀ hsame hsame₀ hcomplete hcomplete₀
        rw [hout₀] at heq
        cases hout : extractSchemaFromRecords resolve threadSchema batch schedule with
        | error text => simp [hout, Except.toOption] at heq
        | ok out => simpa [hout, Except.toOption] using heq
      exact .inr (steady_of_accepted hall)
    · exact .inl hpass
  · rintro (hno | hsteady) batch₁ batch₂ schedule₁ schedule₂ hsame₁ hsame₂ hcomplete₁ hcomplete₂
    · have hnone : ∀ {batch schedule}, SameBatch records batch →
          schedule.Complete resolve threadSchema batch →
          (extractSchemaFromRecords resolve threadSchema batch schedule).toOption = none := by
        intro batch schedule hsame hcomplete
        cases hout : extractSchemaFromRecords resolve threadSchema batch schedule with
        | error text => rfl
        | ok out => exact absurd (passable_of_accepted hsame hcomplete hout) hno
      rw [hnone hsame₁ hcomplete₁, hnone hsame₂ hcomplete₂]
    · obtain ⟨⟨diff₁, schema₁⟩, hout₁⟩ := hsteady.accepted hsame₁ hcomplete₁
      obtain ⟨⟨diff₂, schema₂⟩, hout₂⟩ := hsteady.accepted hsame₂ hcomplete₂
      obtain ⟨-, hcolumns₁, hdiff₁⟩ := extract_ok hcomplete₁ hout₁
      obtain ⟨-, hcolumns₂, hdiff₂⟩ := extract_ok hcomplete₂ hout₂
      have hschema : schema₁ = schema₂ := hsteady.schema_eq hsame₁ hsame₂ hcolumns₁ hcolumns₂
      have hdiff : diff₁ = diff₂ := by
        rw [Bool.eq_iff_iff, hdiff₁, hdiff₂, schema_ne_iff hcolumns₁, schema_ne_iff hcolumns₂, hschema]
      rw [hout₁, hout₂, hschema, hdiff]

end Steady

/-! ### Orders that matter -/

def rowOf (data : Record (Value kinds)) : BatchRecord kinds := ⟨data, [], List.nodup_nil⟩

def inTurn : Schedule kinds := ⟨fun _ => inOrder, fun _ => inOrder, [0, 0, 1, 1]⟩

def prices : SchemaMap := fun k => if k = "price" then some "float" else none

/-- Names in lower case. -/
def lowerTotal (key : String) : String := if key = "Total" then "total" else key

/-- The column takes a double and then an integer, but not an integer and then a double; and of
two columns that have one name in lower case the last one gives the type. -/
theorem order_decides :
    (let double := rowOf [("price", some (.float64 ()))];
      let integer := rowOf [("price", some (.int .int32 5))];
      SameBatch [double, integer] [integer, double] ∧
      inTurn.Complete id prices [double, integer] ∧ inTurn.Complete id prices [integer, double] ∧
      (extractSchemaFromRecords id prices [double, integer] inTurn).toOption.map (fun out => out.2 "price") =
        some (some "double") ∧
      (extractSchemaFromRecords id prices [integer, double] inTurn).toOption.isNone) ∧
    (let row := rowOf [("Total", some (.int .int32 5)), ("total", some (.string "five"))];
      let row' := rowOf [("total", some (.string "five")), ("Total", some (.int .int32 5))];
      SameBatch [row] [row'] ∧
      inTurn.Complete lowerTotal (fun _ => none) [row] ∧ inTurn.Complete lowerTotal (fun _ => none) [row'] ∧
      (extractSchemaFromRecords lowerTotal (fun _ => none) [row] inTurn).toOption.map (fun out => out.2 "total") =
        some (some "string") ∧
      (extractSchemaFromRecords lowerTotal (fun _ => none) [row'] inTurn).toOption.map (fun out => out.2 "total") =
        some (some "int")) := by
  refine ⟨⟨⟨_, List.Perm.swap _ _ _, forall₂_same.2 fun r _ => SameRecord.refl r⟩, ?_, ?_, rfl, rfl⟩,
    ⟨_, List.Perm.refl _, List.Forall₂.cons ⟨List.Perm.swap _ _ _, List.Perm.refl _⟩ List.Forall₂.nil⟩,
    ?_, ?_, rfl, rfl⟩
  all_goals
    unfold Schedule.Complete
    decide

end Olake.IcebergSchema
