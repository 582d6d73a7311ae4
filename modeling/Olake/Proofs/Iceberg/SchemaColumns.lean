/-
One column of a batch, and the two passes over one record.

A column of the table takes a value if its type is a valid transition, and its type may then be
promoted; a new column takes every value.  Either way the type becomes the common ancestor of
what it was and of what is taken (`columnRun_spec`).  The passes over a record treat the columns
independently of each other, so the second pass is a machine for each column (`update_eq_feed`).
-/
import Mathlib.Order.Bounds.Basic
import Olake.Lib.Keyed
import Olake.Model.Iceberg.SchemaDetection
import Olake.Proofs.TypeSchema
import Olake.Proofs.Values

namespace Olake.IcebergSchema

open Typeutils List Option Keyed Bool

/-! ### The types of Iceberg -/

def names : List String := ["boolean", "int", "long", "float", "double", "timestamptz", "string"]

theorem toIceberg_mem (d : DataType) : d.toIceberg ∈ names := by cases d <;> decide

variable {t : String}

theorem toIceberg_icebergTypeToDatatype (h : t ∈ names) :
    (icebergTypeToDatatype t).toIceberg = t := by
  revert t
  decide

/-- The types of the tree that stand for the types of Iceberg. -/
def bases : List DataType := [.bool, .int32, .int64, .float32, .float64, .timestampMicro, .string]

theorem icebergTypeToDatatype_mem (t : String) : icebergTypeToDatatype t ∈ bases := by
  unfold icebergTypeToDatatype
  split <;> decide

theorem mem_tree (t : String) : typecastTree.Mem (icebergTypeToDatatype t) := by
  have hbases : ∀ d ∈ bases, typecastTree.Mem d := by decide
  exact hbases _ (icebergTypeToDatatype_mem t)

theorem datatype_commonAncestor (a b : String) :
    icebergTypeToDatatype (getCommonAncestorType a b) = icebergTypeToDatatype a ⊔ icebergTypeToDatatype b := by
  have hbases : ∀ x ∈ bases, ∀ y ∈ bases,
      icebergTypeToDatatype (GetCommonAncestorType x y).toIceberg = GetCommonAncestorType x y := by
    decide
  rw [← commonAncestor_eq_sup (mem_tree a)]
  exact hbases _ (icebergTypeToDatatype_mem a) _ (icebergTypeToDatatype_mem b)

/-- The type of a column of the table after a value of a type that it takes. -/
def promoted (type detected : String) : String := if isPromotionRequired type detected then detected else type

variable {e : String}

theorem isValidTransition_of_not_mem (he : e ∉ names) (ht : t ∈ names) :
    isValidTransition e t = false := by
  have hne : e ≠ t := fun h => he (h ▸ ht)
  have hnone : validTypeTransitions e = [] := by
    unfold validTypeTransitions
    split <;> first | rfl | exact absurd (by decide) he
  have hgca : getCommonAncestorType e t ≠ e := fun h => he (h ▸ toIceberg_mem _)
  simp [isValidTransition, hnone, hne, hgca]

theorem mem_names_of_isValidTransition (ht : t ∈ names) (h : isValidTransition e t = true) :
    e ∈ names := by
  by_contra he
  rw [isValidTransition_of_not_mem he ht] at h
  cases h

theorem promoted_mem (he : e ∈ names) (ht : t ∈ names) : promoted e t ∈ names := by
  unfold promoted
  split
  · exact ht
  · exact he

theorem datatype_promoted (ht : t ∈ names) (h : isValidTransition e t = true) :
    icebergTypeToDatatype (promoted e t) = icebergTypeToDatatype e ⊔ icebergTypeToDatatype t := by
  have hall : ∀ e ∈ names, ∀ t ∈ names, isValidTransition e t = true →
      icebergTypeToDatatype (promoted e t) =
        GetCommonAncestorType (icebergTypeToDatatype e) (icebergTypeToDatatype t) := by
    decide +kernel
  rw [← commonAncestor_eq_sup (mem_tree e)]
  exact hall e (mem_names_of_isValidTransition ht h) t ht h

theorem isValidTransition_promoted (ht : t ∈ names) (hu : u ∈ names)
    (h : isValidTransition e t = true) (h' : isValidTransition e u = true) :
    isValidTransition (promoted e u) t = true := by
  have hall : ∀ e ∈ names, ∀ t ∈ names, ∀ u ∈ names, isValidTransition e t = true →
      isValidTransition e u = true → isValidTransition (promoted e u) t = true := by
    decide +kernel
  exact hall e (mem_names_of_isValidTransition ht h) t ht u hu h h'

theorem isPromotionRequired_cases (h : isPromotionRequired e t = true) :
    e = "int" ∧ t = "long" ∨ e = "float" ∧ t = "double" := by
  unfold isPromotionRequired promotionTransitions at h
  split at h
  · exact .inl ⟨rfl, by simpa using h⟩
  · exact .inr ⟨rfl, by simpa using h⟩
  · simp at h

theorem isValidTransition_of_isPromotionRequired (h : isPromotionRequired e t = true) :
    isValidTransition e t = true := by
  rcases isPromotionRequired_cases h with ⟨rfl, rfl⟩ | ⟨rfl, rfl⟩ <;> decide

/-! ### One column -/

/-- A column takes a value: `thread` is its type in the schema of the thread, `cur` the one it has
by now; `none` when it refuses the value. -/
def columnStep (thread cur : Option String) (t : String) : Option (Option String) :=
  match thread with
  | some _ =>
    if isValidTransition (cur.getD "") t then some (if isPromotionRequired (cur.getD "") t then some t else cur)
    else none
  | none =>
    match cur with
    | some e => some (some (getCommonAncestorType e t))
    | none => some (some t)

variable (thread : Option String)

def columnRun (ts : List String) : Option (Option String) :=
  Keyed.run (columnStep thread) thread ts

/-- The types that go into a column's type. -/
def sources (ts : List String) : Set DataType :=
  {x | ∃ t, (thread = some t ∨ t ∈ ts) ∧ x = icebergTypeToDatatype t}

theorem sources_append (ts : List String) (t : String) :
    sources thread (ts ++ [t]) = insert (icebergTypeToDatatype t) (sources thread ts) := by
  ext x
  simp only [sources, mem_append, mem_singleton]
  constructor
  · rintro ⟨u, hu | hu | rfl, rfl⟩
    · exact .inr ⟨u, .inl hu, rfl⟩
    · exact .inr ⟨u, .inr hu, rfl⟩
    · exact .inl rfl
  · rintro (rfl | ⟨u, hu | hu, rfl⟩)
    · exact ⟨t, .inr (.inr rfl), rfl⟩
    · exact ⟨u, .inl hu, rfl⟩
    · exact ⟨u, .inr (.inl hu), rfl⟩

/-- What is known of a column that has taken the values `ts`. -/
def Typed (thread cur : Option String) (ts : List String) : Prop :=
  (cur = none ∧ thread = none ∧ ts = []) ∨
    ∃ e, cur = some e ∧ IsLUB (sources thread ts) (icebergTypeToDatatype e) ∧
      (e ∈ names ∨ thread = some e ∧ ts = [])

theorem typed_nil : Typed thread thread [] := by
  cases thread with
  | none => exact .inl ⟨rfl, rfl, rfl⟩
  | some T =>
    refine .inr ⟨T, rfl, ?_, .inr ⟨rfl, rfl⟩⟩
    have hsources : sources (some T) [] = {icebergTypeToDatatype T} := by simp [sources]
    rw [hsources]
    exact isLUB_singleton

variable {thread : Option String} {ts : List String}

theorem typed_step (ht : t ∈ names) (h : Typed thread cur ts)
    (hstep : columnStep thread cur t = some cur') : Typed thread cur' (ts ++ [t]) := by
  -- the new type is the common ancestor of the old one and the value's
  have hlub : ∀ {e e' : String}, IsLUB (sources thread ts) (icebergTypeToDatatype e) →
      icebergTypeToDatatype e' = icebergTypeToDatatype e ⊔ icebergTypeToDatatype t →
      IsLUB (sources thread (ts ++ [t])) (icebergTypeToDatatype e') := by
    intro e e' he heq
    rw [sources_append, heq, sup_comm]
    exact he.insert _
  cases thread with
  | none =>
    rcases h with ⟨rfl, -, rfl⟩ | ⟨e, rfl, he, -⟩
    · cases hstep
      refine .inr ⟨t, rfl, ?_, .inl ht⟩
      have hsources : sources none [t] = {icebergTypeToDatatype t} := by simp [sources]
      rw [nil_append, hsources]
      exact isLUB_singleton
    · cases hstep
      exact .inr ⟨_, rfl, hlub he (datatype_commonAncestor e t), .inl (toIceberg_mem _)⟩
  | some T =>
    rcases h with ⟨-, h, -⟩ | ⟨e, rfl, he, -⟩
    · cases h
    simp only [columnStep, getD_some] at hstep
    split at hstep
    · next hvalid =>
      have hcur : cur' = some (promoted e t) := by
        unfold promoted
        split at hstep <;> rename_i hpromo <;> cases hstep <;> simp [hpromo]
      exact .inr ⟨_, hcur, hlub he (datatype_promoted ht hvalid),
        .inl (promoted_mem (mem_names_of_isValidTransition ht hvalid) ht)⟩
    · cases hstep

theorem columnRun_spec (hts : ∀ t ∈ ts, t ∈ names)
    (h : columnRun thread ts = some cur) : Typed thread cur ts := by
  have hrun := run_induction (I := fun cur seen => (∀ t ∈ seen, t ∈ names) → Typed thread cur seen)
    (fun _ => typed_nil thread)
    (fun cur t seen cur' hI hstep hmem =>
      typed_step (hmem t (by simp)) (hI fun u hu => hmem u (by simp [hu])) hstep) h
  exact hrun hts

/-- A column takes values that are all valid from the start, in any order. -/
theorem columnRun_isSome (hts : ∀ t ∈ ts, t ∈ names)
    (h : ∀ T, thread = some T → ∀ t ∈ ts, isValidTransition T t = true) : (columnRun thread ts).isSome := by
  cases thread with
  | none =>
    have hall : ∀ (ts : List String) (cur : Option String), (run (columnStep none) cur ts).isSome := by
      intro ts
      induction ts with
      | nil => exact fun cur => rfl
      | cons t rest ih =>
        intro cur
        cases cur with
        | none | some => exact ih _
    exact hall ts none
  | some T =>
    have hall : ∀ (ts : List String) (e : String), (∀ t ∈ ts, t ∈ names ∧ isValidTransition e t = true) →
        (run (columnStep (some T)) (some e) ts).isSome := by
      intro ts
      induction ts with
      | nil => exact fun e _ => rfl
      | cons t rest ih =>
        intro e he
        obtain ⟨ht, hvalid⟩ := he t mem_cons_self
        have hstep : columnStep (some T) (some e) t = some (some (promoted e t)) := by
          simp only [columnStep, getD_some, hvalid, if_true, promoted]
          split <;> rfl
        rw [run, hstep, bind_some]
        refine ih _ fun u hu => ?_
        obtain ⟨hu', hu⟩ := he u (mem_cons_of_mem _ hu)
        exact ⟨hu', isValidTransition_promoted hu' ht hu hvalid⟩
    exact hall ts T fun t ht => ⟨hts t ht, h T rfl t ht⟩

/-! ### The values of a record -/

variable {go : GoLib}

/-- The type of a value, unless it is null. -/
def typeOf (v : Option (Value go)) : Option String :=
  if TypeFromValue v = .null then none else some (TypeFromValue v).toIceberg

/-- The entries of a record that are not null, with their types. -/
def typed (data : Record (Value go)) : List (String × String) :=
  data.filterMap (fun p => (typeOf p.2).map (fun t => (p.1, t)))

def typeAt (data : Record (Value go)) (k : String) : Option String := (data.lookup k).bind typeOf

theorem typeOf_mem (h : typeOf v = some t) : t ∈ names := by
  unfold typeOf at h
  split at h
  · cases h
  · cases h
    exact toIceberg_mem _

variable {data : Record (Value go)}

theorem typeAt_mem (h : typeAt data k = some t) : t ∈ names := by
  obtain ⟨v, -, hv⟩ := bind_eq_some_iff.1 h
  exact typeOf_mem hv

theorem mem_typed : (k, t) ∈ typed data ↔ ∃ v, (k, v) ∈ data ∧ typeOf v = some t := by
  simp only [typed, mem_filterMap, map_eq_some_iff, Prod.mk.injEq]
  constructor
  · rintro ⟨⟨k', v⟩, hmem, t', ht', rfl, rfl⟩
    exact ⟨v, hmem, ht'⟩
  · rintro ⟨v, hmem, hv⟩
    exact ⟨(k, v), hmem, t, hv, rfl, rfl⟩

theorem mem_typed_iff_typeAt (hnodup : (data.map Prod.fst).Nodup) : (k, t)
    ∈ typed data ↔ typeAt data k = some t := by
  simp only [mem_typed, typeAt, bind_eq_some_iff, lookup_eq_some_iff hnodup]

/-- A record has at most one value for a column, whichever way its entries are visited. -/
theorem eventsOf_typed (hnodup : (data.map Prod.fst).Nodup)
    (hperm : visited.Perm data) (k : String) : Keyed.eventsOf k (typed visited) = (typeAt data k).toList := by
  have hperm' : (eventsOf k (typed visited)).Perm (eventsOf k (typed data)) :=
    (hperm.filterMap _).filterMap _
  suffices h : eventsOf k (typed data) = (typeAt data k).toList by
    rw [h] at hperm'
    cases ht : typeAt data k with
    | none | some => simpa [ht] using hperm'
  clear hperm hperm'
  induction data with
  | nil => rfl
  | cons p rest ih =>
    obtain ⟨n, v⟩ := p
    rw [map_cons, nodup_cons] at hnodup
    have hrest := ih hnodup.2
    have hcons : typed ((n, v) :: rest) = ((typeOf v).map (fun t => (n, t))).toList ++ typed rest := by
      cases hv : typeOf v <;> simp [typed, hv]
    have hat : typeAt ((n, v) :: rest) k = if k = n then typeOf v else typeAt rest k := by
      rw [typeAt, lookup_cons_if, apply_ite (Option.bind · typeOf)]
      rfl
    rw [hcons, eventsOf_append, hrest, hat]
    by_cases hk : k = n
    · subst hk
      -- the name does not come again
      have hnone : typeAt rest k = none := by
        rw [typeAt, lookup_eq_none_iff.2, bind_none]
        intro q hq
        have hne : k ≠ q.1 := fun h => hnodup.1 (mem_map.2 ⟨q, hq, h.symm⟩)
        simpa using hne
      rw [hnone, if_pos rfl]
      cases hv : typeOf v <;> simp [eventsOf]
    · rw [if_neg hk]
      cases hv : typeOf v <;> simp [eventsOf, Ne.symm hk]

/-! ### The second pass -/

theorem set_eq_update (schema : SchemaMap) (key type : String) :
    schema.set key type = Function.update schema key (some type) := by
  funext k
  by_cases h : k = key <;> simp [SchemaMap.set, h]

/-- The second pass over a record is a step of each column's machine for its value. -/
theorem update_eq_feed (threadSchema finalSchema : SchemaMap) (data : Record (Value go)) :
    (detectOrUpdateSchema false threadSchema finalSchema data).toOption =
      (Keyed.feed (fun k => columnStep (threadSchema k)) finalSchema (typed data)).map (fun s => (false, s)) := by
  induction data generalizing finalSchema with
  | nil => rfl
  | cons p rest ih =>
    obtain ⟨key, value⟩ := p
    rw [detectOrUpdateSchema]
    by_cases hnull : TypeFromValue value = .null
    · have hskip : typed ((key, value) :: rest) = typed rest := by simp [typed, typeOf, hnull]
      rw [if_pos hnull, hskip]
      exact ih finalSchema
    have hcons : typed ((key, value) :: rest) = (key, (TypeFromValue value).toIceberg) :: typed rest := by
      simp [typed, typeOf, hnull]
    rw [if_neg hnull, hcons, feed]
    cases hthread : threadSchema key with
    | some T =>
      simp only [isSome_some, columnStep]
      by_cases hvalid : isValidTransition ((finalSchema key).getD "") (TypeFromValue value).toIceberg = true
      · simp only [hvalid, true_eq_false, if_true]
        cases hpromo : isPromotionRequired ((finalSchema key).getD "") (TypeFromValue value).toIceberg with
        | true =>
          simp only [if_true, false_eq_true, if_false, bind_some]
          rw [ih, set_eq_update]
        | false =>
          simp only [false_eq_true, if_false, bind_some, Function.update_eq_self]
          exact ih finalSchema
      · simp [hvalid, Except.toOption]
    | none =>
      simp only [isSome_none, false_eq_true, if_false, columnStep]
      cases hfinal : finalSchema key with
      | some | none =>
        simp only [bind_some]
        rw [ih, set_eq_update]

/-! ### The first pass -/

section Detect

variable (threadSchema : SchemaMap)

/-- A value that the column of the table does not take. -/
def Refused (k t : String) : Prop := ∃ T, threadSchema k = some T ∧ isValidTransition T t = false

/-- A value that changes the schema. -/
def Changes (k t : String) : Prop :=
  match threadSchema k with
  | some T => isPromotionRequired T t = true
  | none => True

variable {threadSchema} {v : Option (Value go)}

theorem typeOf_eq_some (h : typeOf v = some t) :
    TypeFromValue v ≠ .null ∧ t = (TypeFromValue v).toIceberg := by
  unfold typeOf at h
  split at h
  · cases h
  · next hnull =>
    cases h
    exact ⟨hnull, rfl⟩

theorem detect_refused (hv : typeOf v = some t) (h : Refused threadSchema k t)
    (rest : Record (Value go)) :
    ∃ text, detectOrUpdateSchema true threadSchema threadSchema ((k, v) :: rest) = .error text := by
  obtain ⟨hnull, rfl⟩ := typeOf_eq_some hv
  obtain ⟨T, hT, hrefused⟩ := h
  rw [detectOrUpdateSchema, if_neg hnull]
  simp only [hT, getD_some, hrefused]
  exact ⟨_, rfl⟩

/-- An entry that changes the schema ends the pass. -/
theorem detect_changes (hv : typeOf v = some t) (h : Changes threadSchema k t)
    (rest : Record (Value go)) :
    detectOrUpdateSchema true threadSchema threadSchema ((k, v) :: rest) = .ok (true, threadSchema) := by
  obtain ⟨hnull, rfl⟩ := typeOf_eq_some hv
  rw [detectOrUpdateSchema, if_neg hnull]
  cases hT : threadSchema k with
  | none => simp
  | some T =>
    rw [Changes, hT] at h
    simp [h, isValidTransition_of_isPromotionRequired h]

/-- Any other entry is passed over. -/
theorem detect_skip
    (h : ∀ t, typeOf v = some t → ¬ Refused threadSchema k t ∧ ¬ Changes threadSchema k t)
    (rest : Record (Value go)) :
    detectOrUpdateSchema true threadSchema threadSchema ((k, v) :: rest) =
      detectOrUpdateSchema true threadSchema threadSchema rest := by
  rw [detectOrUpdateSchema]
  by_cases hnull : TypeFromValue v = .null
  · rw [if_pos hnull]
  obtain ⟨hrefused, hchanges⟩ := h (TypeFromValue v).toIceberg (by simp [typeOf, hnull])
  cases hT : threadSchema k with
  | none => simp [Changes, hT] at hchanges
  | some T =>
    have hvalid : isValidTransition T (TypeFromValue v).toIceberg = true := by
      by_contra hvalid
      exact hrefused ⟨T, hT, by simpa using hvalid⟩
    have hpromo : isPromotionRequired T (TypeFromValue v).toIceberg = false := by
      simpa [Changes, hT] using hchanges
    simp [hvalid, hpromo]

variable (threadSchema) in
/-- What the first pass says of a record: it stops at the first entry that is refused or changes
the schema. -/
theorem detect_cases (data : Record (Value go)) :
    (∃ text, detectOrUpdateSchema true threadSchema threadSchema data = .error text ∧
      ∃ k t, (k, t) ∈ typed data ∧ Refused threadSchema k t) ∨
    (detectOrUpdateSchema true threadSchema threadSchema data = .ok (true, threadSchema) ∧
      ∃ k t, (k, t) ∈ typed data ∧ Changes threadSchema k t) ∨
    (detectOrUpdateSchema true threadSchema threadSchema data = .ok (false, threadSchema) ∧
      ∀ k t, (k, t) ∈ typed data → ¬ Refused threadSchema k t ∧ ¬ Changes threadSchema k t) := by
  induction data with
  | nil => exact .inr (.inr ⟨rfl, fun k t h => by simp [typed] at h⟩)
  | cons p rest ih =>
    obtain ⟨key, value⟩ := p
    by_cases hstop : ∃ t, typeOf value = some t ∧ (Refused threadSchema key t ∨ Changes threadSchema key t)
    · obtain ⟨t, ht, h⟩ := hstop
      have hmem : (key, t) ∈ typed ((key, value) :: rest) := mem_typed.2 ⟨value, mem_cons_self, ht⟩
      rcases h with h | h
      · obtain ⟨text, htext⟩ := detect_refused ht h rest
        exact .inl ⟨text, htext, key, t, hmem, h⟩
      · exact .inr (.inl ⟨detect_changes ht h rest, key, t, hmem, h⟩)
    · push Not at hstop
      rw [detect_skip hstop]
      have hcons : ∀ {k t}, (k, t) ∈ typed rest → (k, t) ∈ typed ((key, value) :: rest) := by
        intro k t hmem
        obtain ⟨v, hv, ht⟩ := mem_typed.1 hmem
        exact mem_typed.2 ⟨v, mem_cons_of_mem _ hv, ht⟩
      rcases ih with ⟨text, htext, k, t, hmem, h⟩ | ⟨hok, k, t, hmem, h⟩ | ⟨hok, h⟩
      · exact .inl ⟨text, htext, k, t, hcons hmem, h⟩
      · exact .inr (.inl ⟨hok, k, t, hcons hmem, h⟩)
      · refine .inr (.inr ⟨hok, fun k t hmem => ?_⟩)
        obtain ⟨v, hv, ht⟩ := mem_typed.1 hmem
        rcases mem_cons.1 hv with heq | hv
        · cases heq
          exact hstop t ht
        · exact h k t (mem_typed.2 ⟨v, hv, ht⟩)

end Detect

end Olake.IcebergSchema
