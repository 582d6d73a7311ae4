/-
What is left of a record when it is flattened.

A flattened record has, under each name, the last of the values that came in under this name
(`lookup_flatten`), and none of them is taken for null.
-/
import Mathlib.Data.List.Nodup
import Olake.Model.Values

namespace Olake.Typeutils

open List

/-! ### Setting entries -/

theorem lookup_cons_if {V : Type} (n k : String) (v : V) (rest : List (String × V)) :
    List.lookup k ((n, v) :: rest) = if k = n then some v else rest.lookup k := by
  rw [lookup_cons]
  by_cases h : k = n
  · simp [h]
  · simp [beq_false_of_ne h, h]

theorem lookup_set {V : Type} (m : Record V) (name k : String) (value : Option V) :
    (m.set name value).lookup k = if k = name then some value else m.lookup k := by
  induction m with
  | nil => simp [Record.set, lookup_cons_if]
  | cons p rest ih =>
    obtain ⟨n, v⟩ := p
    rw [Record.set]
    by_cases hn : n = name
    · subst hn
      rw [if_pos rfl, lookup_cons_if, lookup_cons_if]
      split <;> rfl
    · rw [if_neg hn, lookup_cons_if, lookup_cons_if, ih]
      by_cases hk : k = n
      · subst hk
        simp [hn]
      · simp [hk]

theorem keys_set {V : Type} (m : Record V) (name : String) (value : Option V)
    (h : k ∈ (m.set name value).map Prod.fst) : k = name ∨ k ∈ m.map Prod.fst := by
  induction m with
  | nil => exact .inl (by simpa [Record.set] using h)
  | cons p rest ih =>
    rw [Record.set] at h
    split at h
    · next hn =>
      subst hn
      exact .inr h
    · simp only [map_cons, mem_cons] at h ⊢
      rcases h with rfl | h
      · exact .inr (.inl rfl)
      · rcases ih h with rfl | h
        · exact .inl rfl
        · exact .inr (.inr h)

theorem nodup_set {V : Type} {m : Record V} (h : (m.map Prod.fst).Nodup) (name : String) (value : Option V) :
    ((m.set name value).map Prod.fst).Nodup := by
  induction m with
  | nil => simp [Record.set]
  | cons p rest ih =>
    rw [map_cons, nodup_cons] at h
    rw [Record.set]
    split
    · next hn =>
      subst hn
      exact nodup_cons.2 h
    · next hn =>
      refine nodup_cons.2 ⟨fun hmem => ?_, ih h.2⟩
      rcases keys_set rest name value hmem with hname | hmem
      · exact hn hname
      · exact h.1 hmem

theorem lookup_eq_some_iff {V : Type} {m : Record V} (h : (m.map Prod.fst).Nodup) {v : Option V} :
    m.lookup k = some v ↔ (k, v) ∈ m := by
  induction m with
  | nil => simp
  | cons p rest ih =>
    obtain ⟨n, w⟩ := p
    rw [map_cons, nodup_cons] at h
    rw [lookup_cons_if]
    by_cases hk : k = n
    · subst hk
      have hrest : (k, v) ∉ rest := fun hmem => h.1 (mem_map.2 ⟨(k, v), hmem, rfl⟩)
      simp [hrest, eq_comm]
    · simp [hk, ih h.2]

/-! ### Flattening -/

variable {go : GoLib}

theorem typeFromValue_flattenValue {v flat : Value go} (h : flattenValue v = .ok flat) :
    TypeFromValue (some flat) ≠ .null := by
  have htime : ∀ t : go.Time, detectTimestampPrecision t ≠ .null := by
    intro t
    simp only [detectTimestampPrecision]
    split_ifs <;> simp
  cases v with
  | bool b => cases h; simp [TypeFromValue]
  | int type n => cases h; simp only [TypeFromValue]; split <;> simp
  | float32 | float64 => cases h; simp [TypeFromValue]
  | time t => cases h; exact htime t
  | number text => cases h; simp only [TypeFromValue]; split <;> simp
  | string | bytes => cases h; simp only [TypeFromValue]; split <;> simp [htime]
  | other x =>
    simp only [flattenValue] at h
    split at h
    · cases h
      simp only [TypeFromValue]
      split <;> simp [htime]
    · cases h

section Flatten

variable (resolve : String → String)

/-- The values that come in under a name, flattened. -/
def landing (k : String) (data : Record (Value go)) : List (Value go) :=
  data.filterMap (fun p => if resolve p.1 = k then p.2.bind (fun v => (flattenValue v).toOption) else none)

/-- All values of a record can be flattened. -/
def Flattens (data : Record (Value go)) : Prop :=
  ∀ key v, (key, some v) ∈ data → ∃ flat, flattenValue v = .ok flat

variable {resolve} {data : Record (Value go)}

theorem Flattens.perm (h : Flattens data) (hperm : data.Perm data') : Flattens data' :=
  fun key v hv => h key v (hperm.mem_iff.2 hv)

theorem flattenInto_ok_iff (destination data : Record (Value go)) :
    (∃ d, flattenInto resolve destination data = .ok d) ↔ Flattens data := by
  induction data generalizing destination with
  | nil => simp [flattenInto, Flattens]
  | cons p rest ih =>
    obtain ⟨key, value⟩ := p
    cases value with
    | none => simp [flattenInto, ih, Flattens]
    | some v =>
      rw [flattenInto]
      cases hflat : flattenValue v with
      | error text =>
        refine iff_of_false (by simp) fun h => ?_
        obtain ⟨flat, hok⟩ := h key v mem_cons_self
        rw [hflat] at hok
        cases hok
      | ok flat =>
        simp only [ih, Flattens, mem_cons, Prod.mk.injEq, Option.some.injEq]
        constructor
        · rintro h key' v' (⟨rfl, rfl⟩ | hv')
          · exact ⟨flat, hflat⟩
          · exact h key' v' hv'
        · exact fun h key' v' hv' => h key' v' (.inr hv')

variable (resolve) in
theorem flatten_ok_iff (data : Record (Value go)) :
    (∃ d, Flatten resolve data = .ok d) ↔ Flattens data :=
  flattenInto_ok_iff [] data

variable {d destination : Record (Value go)}

theorem lookup_flattenInto (h : flattenInto resolve destination data = .ok d) (k : String)
    : d.lookup k =
      match (landing resolve k data).getLast? with
      | some v => some (some v)
      | none => destination.lookup k := by
  induction data generalizing destination with
  | nil =>
    cases h
    rfl
  | cons p rest ih =>
    obtain ⟨key, value⟩ := p
    cases value with
    | none =>
      rw [ih h]
      simp [landing]
    | some v =>
      rw [flattenInto] at h
      split at h
      · cases h
      · next flat hflat =>
        rw [ih h, lookup_set]
        by_cases hk : resolve key = k
        · have hcons : landing resolve k ((key, some v) :: rest) = flat :: landing resolve k rest := by
            simp [landing, hk, hflat, Except.toOption]
          rw [hcons, getLast?_cons]
          cases (landing resolve k rest).getLast? <;> simp [hk]
        · have hcons : landing resolve k ((key, some v) :: rest) = landing resolve k rest := by
            simp [landing, hk]
          rw [hcons, if_neg (fun heq => hk heq.symm)]

theorem lookup_flatten (h : Flatten resolve data = .ok d) (k : String) :
    d.lookup k = (landing resolve k data).getLast?.map some := by
  rw [lookup_flattenInto h k]
  cases (landing resolve k data).getLast? <;> rfl

theorem nodup_flattenInto (hnodup : (destination.map Prod.fst).Nodup)
    (h : flattenInto resolve destination data = .ok d) : (d.map Prod.fst).Nodup := by
  induction data generalizing destination with
  | nil =>
    cases h
    exact hnodup
  | cons p rest ih =>
    obtain ⟨key, value⟩ := p
    cases value with
    | none => exact ih hnodup h
    | some v =>
      rw [flattenInto] at h
      split at h
      · cases h
      · exact ih (nodup_set hnodup _ _) h

theorem nodup_flatten (h : Flatten resolve data = .ok d) : (d.map Prod.fst).Nodup :=
  nodup_flattenInto (by simp) h

end Flatten

/-! ### Copying and visiting -/

theorem lookup_copy (dst : Record (Value go)) (hnodup : (src.map Prod.fst).Nodup) (k : String) :
    (copy dst src).lookup k =
      match src.lookup k with
      | some v => some v
      | none => dst.lookup k := by
  induction src generalizing dst with
  | nil => rfl
  | cons p rest ih =>
    obtain ⟨n, v⟩ := p
    rw [map_cons, nodup_cons] at hnodup
    rw [copy, ih _ hnodup.2, lookup_set, lookup_cons_if]
    by_cases hk : k = n
    · subst hk
      have hnone : lookup k rest = none := by
        rw [lookup_eq_none_iff]
        intro q hq
        have hne : k ≠ q.1 := fun h => hnodup.1 (mem_map.2 ⟨q, hq, h.symm⟩)
        simpa using hne
      simp [hnone]
    · simp [hk]

theorem nodup_copy (hdst : (dst.map Prod.fst).Nodup) (src : Record (Value go)) :
    ((copy dst src).map Prod.fst).Nodup := by
  induction src generalizing dst with
  | nil => exact hdst
  | cons p rest ih => exact ih (nodup_set hdst p.1 p.2)

/-- An entry can be visited first. -/
theorem exists_visit_first (hp : p ∈ d) :
    ∃ (visit : Visit go) (rest : Record (Value go)), visit.order d = p :: rest := by
  classical
  obtain ⟨before, after, rfl⟩ := append_of_mem hp
  refine ⟨⟨fun m => if m = before ++ p :: after then p :: (before ++ after) else m, fun m => ?_⟩,
    before ++ after, if_pos rfl⟩
  split
  · next h =>
    rw [h]
    exact perm_middle.symm
  · exact List.Perm.refl m

/-- Values of which only the Go type matters. -/
def kinds : GoLib where
  Float32 := Unit
  Float64 := Unit
  Time := Unit
  Other := Empty
  marshal := fun x => x.elim
  typeOfOther := fun x => x.elim
  timeParse := fun _ _ => .error "not a time"
  epoch := ()
  year := fun _ => 1970
  addYears := fun _ _ => ()
  nanosecond := fun _ => 0
  loadedStateVersion := 6
  parseInt := fun _ _ => .error "not a number"
  parseFloat64 := fun _ => .ok ()
  parseFloat32 := fun _ => .ok ()

end Olake.Typeutils
