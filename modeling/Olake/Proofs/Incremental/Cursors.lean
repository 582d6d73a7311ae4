/-
Cursor values and their order.

The state, the metadata and the process each hold cursor values, and the database
compares its rows with them.  `Faithful` says of the values in use that all of these
mean the same: `typeutils.Compare` orders them as the database does, formatting and
JSON give them back, the query compares with them as they are, and two different
pairs of cursors have different thread IDs.  Under it the running maximum of a read
is a maximum (`largest_spec`, `largest_le`), and the query selects the rows beyond the
stored cursors (`holds_query`).
-/
import Olake.Model.Incremental
import Olake.Proofs.Jdbc

namespace Olake.Incremental

open Sql Utf8 Binary64 List Option

variable {V : Type} [LinearOrder V]

/-! ### The order of cursors -/

/-- Nil is below every value. -/
def OptLe (a b : Option V) : Prop := ∀ x, a = some x → ∃ y, b = some y ∧ x ≤ y

variable {a b : Option V}

theorem optLe_iff : OptLe a b ↔ LE.le (α := WithBot V) a b := WithBot.le_iff_forall.symm

theorem OptLe.refl (a : Option V) : OptLe a a := fun x h => ⟨x, h, le_rfl⟩

theorem OptLe.trans (hab : OptLe a b) (hbc : OptLe b c) : OptLe a c :=
  optLe_iff.2 ((optLe_iff.1 hab).trans (optLe_iff.1 hbc))

theorem OptLe.antisymm (hab : OptLe a b) (hba : OptLe b a) : a = b :=
  (optLe_iff.1 hab).antisymm (optLe_iff.1 hba)

theorem OptLe.none_le (a : Option V) : OptLe none a := nofun

theorem beyond_of_le (h : Jdbc.Beyond c b) (hab : OptLe a b) (ha : a ≠ none) : Jdbc.Beyond c a := by
  obtain ⟨x, y, rfl, rfl, hlt⟩ := h
  obtain ⟨z, rfl⟩ := ne_none_iff_exists'.1 ha
  obtain ⟨y', hy', hle⟩ := hab z rfl
  cases hy'
  exact ⟨x, z, rfl, rfl, hle.trans_lt hlt⟩

theorem not_le_of_beyond (h : Jdbc.Beyond a b) : ¬ OptLe a b := by
  obtain ⟨x, y, rfl, rfl, hlt⟩ := h
  intro hle
  obtain ⟨y', hy', hxy⟩ := hle x rfl
  cases hy'
  exact absurd hxy (not_le.2 hlt)

theorem below_of_le (h : OptLe a b) (ha : a ≠ none) : Jdbc.Below a b := by
  obtain ⟨x, rfl⟩ := ne_none_iff_exists'.1 ha
  obtain ⟨y, rfl, hxy⟩ := h x rfl
  exact ⟨x, y, rfl, rfl, hxy⟩

structure Cursors.Le (c d : Cursors V) : Prop where
  primary : OptLe c.primary d.primary
  secondary : OptLe c.secondary d.secondary

theorem Cursors.Le.refl (c : Cursors V) : c.Le c := ⟨OptLe.refl _, OptLe.refl _⟩

variable {c : Cursors V}

theorem Cursors.Le.trans (hcd : c.Le d) (hde : d.Le e) : c.Le e :=
  ⟨hcd.primary.trans hde.primary, hcd.secondary.trans hde.secondary⟩

theorem Cursors.Le.antisymm (hcd : c.Le d) (hdc : d.Le c) : c = d := by
  cases c
  cases d
  simp only [Cursors.mk.injEq]
  exact ⟨hcd.primary.antisymm hdc.primary, hcd.secondary.antisymm hdc.secondary⟩

/-! ### The largest value of a column -/

/-- A fold that goes on with one of two values, which is not below the other. -/
theorem foldl_spec (hf : ∀ m v, OptLe m (f m v) ∧ OptLe v (f m v) ∧ (f m v = m ∨ f m v = v))
    (values : List (Option V)) (m : Option V) :
    OptLe m (values.foldl f m) ∧ (∀ v ∈ values, OptLe v (values.foldl f m)) ∧
      (values.foldl f m = m ∨ values.foldl f m ∈ values) := by
  induction values generalizing m with
  | nil => exact ⟨OptLe.refl m, by simp, .inl rfl⟩
  | cons v values ih =>
    obtain ⟨hm, hv, hmv⟩ := hf m v
    obtain ⟨hle, hall, hmem⟩ := ih (f m v)
    refine ⟨hm.trans hle, forall_mem_cons.2 ⟨hv.trans hle, hall⟩, ?_⟩
    grind

theorem sqlMax_spec (values : List (Option V)) :
    (∀ v ∈ values, OptLe v (sqlMax values)) ∧ (sqlMax values = none ∨ sqlMax values ∈ values) := by
  refine (foldl_spec (fun m v => ?_) values none).2
  rcases m with _ | a <;> rcases v with _ | b <;> simp [OptLe, le_total]

theorem le_sqlMax {v : Option V} (h : v ∈ values) : OptLe v (sqlMax values) :=
  (sqlMax_spec values).1 v h

theorem sqlMax_cases (values : List (Option V)) : sqlMax values = none ∨ sqlMax values ∈ values :=
  (sqlMax_spec values).2

theorem sqlMax_mono {values more : List (Option V)} : OptLe (sqlMax values) (sqlMax (values ++ more)) := by
  rcases sqlMax_cases values with h | h
  · rw [h]
    exact OptLe.none_le _
  · exact le_sqlMax (mem_append_left more h)

/-! ### Values in use -/

variable (S : Stream V) (ok : V → Prop)

/-- The cursors are made of values in use, and there is no secondary one without a
column for it. -/
structure Stream.Uses (c : Cursors V) : Prop where
  primary : ∀ v, c.primary = some v → ok v
  secondary : ∀ v, c.secondary = some v → ok v
  single : S.secondary = none → c.secondary = none

/-- The cursor columns of the row hold values in use. -/
structure Row.Uses (r : Row V) : Prop where
  primary : ∀ v, r.primary = some v → ok v
  secondary : ∀ v, r.secondary = some v → ok v

def Stream.IsColumn (K : CursorColumn V) : Prop := K = S.primary ∨ S.secondary = some K

/-- The database compares the values in use as the process does. -/
structure Stream.Agrees : Prop where
  compare : ∀ K, S.IsColumn K → ∀ a b, ok a → ok b → (K.compare a b = .gt ↔ b < a)
  compared : ∀ f v, ok v → Jdbc.compared S.db S.driver S.jdbc f (some v) = some v

/-- The values in use also come back from the state as they were. -/
structure Stream.Keeps : Prop extends S.Agrees ok where
  format : ∀ K, S.IsColumn K → ∀ v, ok v → K.format v = v
  json : ∀ K, S.IsColumn K → ∀ v, ok v → K.json v = v

/-- The values in use mean the same everywhere. -/
structure Stream.Faithful : Prop extends S.Keeps ok where
  threadID : ∀ c d, S.Uses ok c → S.Uses ok d → toValid (S.threadID c) = S.threadID d → c = d

/-- The row is beyond the cursors: by its primary cursor, or by its secondary one
where it has no primary. -/
def Stream.Beyond (c : Cursors V) (r : Row V) : Prop :=
  Jdbc.Beyond r.primary c.primary ∨
    (S.secondary.isSome ∧ r.primary = none ∧ Jdbc.Beyond r.secondary c.secondary)

variable {S ok}

omit [LinearOrder V] in
theorem option_map_eq_self (h : ∀ v, a = some v → f v = v) : a.map f = a := by
  cases a with
  | none => rfl
  | some v => exact congrArg some (h v rfl)

omit [LinearOrder V] in
/-- What leaves the values in use alone leaves the cursors alone. -/
theorem mapCursors_eq (hf : ∀ K, S.IsColumn K → ∀ v, ok v → f K v = v)
    (hc : S.Uses ok c) : S.mapCursors f c = c := by
  unfold Stream.mapCursors
  have hp := option_map_eq_self fun v h => hf S.primary (.inl rfl) v (hc.primary v h)
  cases hs : S.secondary with
  | none => simp [hp]
  | some K =>
    have hsec := option_map_eq_self fun v h => hf K (.inr hs) v (hc.secondary v h)
    simp [hp, hsec]

theorem Stream.Keeps.format_eq (hS : S.Keeps ok) (hc : S.Uses ok c) :
    S.mapCursors CursorColumn.format c = c :=
  mapCursors_eq hS.format hc

theorem Stream.Keeps.json_eq (hS : S.Keeps ok) (hc : S.Uses ok c) :
    S.mapCursors CursorColumn.json c = c :=
  mapCursors_eq hS.json hc

/-! ### The maximum of a read -/

theorem pickMax_spec (hK : ∀ x y, ok x → ok y → (K.compare x y = .gt ↔ y < x))
    (ha : ∀ x, a = some x → ok x) (hb : ∀ y, b = some y → ok y) :
    OptLe a (Stream.pickMax K a b) ∧ OptLe b (Stream.pickMax K a b) ∧
      (Stream.pickMax K a b = a ∨ Stream.pickMax K a b = b) ∧
      ∀ v, Stream.pickMax K a b = some v → ok v := by
  match a, b with
  | none, b => exact ⟨OptLe.none_le b, OptLe.refl b, .inr rfl, hb⟩
  | some x, none => exact ⟨OptLe.refl _, OptLe.none_le _, .inl rfl, ha⟩
  | some x, some y =>
    have hxy := hK x y (ha x rfl) (hb y rfl)
    by_cases hlt : y < x
    · simpa [Stream.pickMax, hxy.2 hlt, OptLe, hlt.le] using ha x rfl
    · simpa [Stream.pickMax, mt hxy.1 hlt, OptLe, not_lt.1 hlt] using hb y rfl

theorem getMax_spec (hS : S.Agrees ok) (hc : S.Uses ok c) (hr : r.Uses ok) :
    let d := S.getMaxIncrementCursorFromData c r
    S.Uses ok d ∧ c.Le d ∧ OptLe r.primary d.primary ∧
      (S.secondary.isSome → OptLe r.secondary d.secondary) ∧
      (d.primary = r.primary ∨ d.primary = c.primary) ∧
      (d.secondary = r.secondary ∨ d.secondary = c.secondary) := by
  obtain ⟨hp, hcp, hpeq, hpu⟩ := pickMax_spec (hS.compare _ (.inl rfl)) hr.primary hc.primary
  unfold Stream.getMaxIncrementCursorFromData
  cases hs : S.secondary with
  | none =>
    have hnone := hc.single hs
    refine ⟨⟨hpu, nofun, fun _ => rfl⟩, ⟨hcp, ?_⟩, hp,
      nofun, hpeq, .inr hnone.symm⟩
    rw [hnone]
    exact OptLe.refl _
  | some K =>
    obtain ⟨hk, hck, hkeq, hku⟩ := pickMax_spec (hS.compare K (.inr hs)) hr.secondary hc.secondary
    exact ⟨⟨hpu, hku, fun h => absurd (hs.symm.trans h) (by simp)⟩, ⟨hcp, hck⟩, hp,
      fun _ => hk, hpeq, hkeq⟩

/-- The largest cursors of a read, from the stored ones on. -/
def largest (S : Stream V) (rows : List (Row V)) (c : Cursors V) : Cursors V :=
  rows.foldl S.getMaxIncrementCursorFromData c

variable {rows : List (Row V)} (hS : S.Agrees ok)
include hS

theorem largest_spec (hrows : ∀ r ∈ rows, r.Uses ok) (hc : S.Uses ok c) :
    S.Uses ok (largest S rows c) ∧ c.Le (largest S rows c) ∧
      ∀ r ∈ rows, OptLe r.primary (largest S rows c).primary ∧
        (S.secondary.isSome → OptLe r.secondary (largest S rows c).secondary) := by
  induction rows generalizing c with
  | nil => exact ⟨hc, Cursors.Le.refl c, by simp⟩
  | cons r rows ih =>
    obtain ⟨hu, hle, hp, hs, -, -⟩ := getMax_spec hS hc (hrows r mem_cons_self)
    obtain ⟨hu', hle', hall⟩ := ih (fun r hr => hrows r (mem_cons_of_mem _ hr)) hu
    exact ⟨hu', hle.trans hle', forall_mem_cons.2
      ⟨⟨hp.trans hle'.primary, fun h => (hs h).trans hle'.secondary⟩, hall⟩⟩

/-- The largest cursors are bounded by what bounds the start and the rows. -/
theorem largest_le (hrows : ∀ r ∈ rows, r.Uses ok) (hc : S.Uses ok c) (hcd : c.Le d)
    (hd : ∀ r ∈ rows, OptLe r.primary d.primary ∧
      (S.secondary.isSome → OptLe r.secondary d.secondary)) : (largest S rows c).Le d := by
  induction rows generalizing c with
  | nil => exact hcd
  | cons r rows ih =>
    obtain ⟨hu, -, -, -, hp, hs⟩ := getMax_spec hS hc (hrows r mem_cons_self)
    refine ih (fun r hr => hrows r (mem_cons_of_mem _ hr)) hu ?_
      fun r hr => hd r (mem_cons_of_mem _ hr)
    have hr := hd r mem_cons_self
    refine ⟨?_, ?_⟩
    · rcases hp with h | h
      · rw [h]; exact hr.1
      · rw [h]; exact hcd.primary
    · cases hsec : S.secondary with
      | none =>
        rw [hu.single hsec]
        exact OptLe.none_le _
      | some K =>
        rcases hs with h | h
        · rw [h]; exact hr.2 (by rw [hsec]; rfl)
        · rw [h]; exact hcd.secondary

theorem largest_ne (hrows : ∀ r ∈ rows, r.Uses ok) (hc : S.Uses ok c)
    (hr : r ∈ rows) (hb : S.Beyond c r) : c ≠ largest S rows c := by
  obtain ⟨-, -, hall⟩ := largest_spec hS hrows hc
  intro heq
  rw [← heq] at hall
  rcases hb with hb | ⟨hsec, -, hb⟩
  · exact not_le_of_beyond hb (hall r hr).1
  · exact not_le_of_beyond hb ((hall r hr).2 hsec)

/-! ### The query -/

/-- The value a cursor column is compared with is the stored one. -/
theorem Stream.Agrees.compared_eq (hc : S.Uses ok c) (f : Field)
    : Jdbc.compared S.db S.driver S.jdbc f (c.column f) = c.column f := by
  have hf : ∀ v, c.column f = some v → ok v := by
    cases f with
    | primary => exact hc.primary
    | secondary => exact hc.secondary
  cases hv : c.column f with
  | none => exact Jdbc.compared_none S.db S.driver S.jdbc f
  | some v => exact hS.compared f v (hf v hv)

theorem Stream.Agrees.comparable (hc : S.Uses ok c) :
    Jdbc.Comparable S.db S.driver S.jdbc c.column := by
  intro f
  refine ⟨by simp [Stream.jdbc], ?_⟩
  rw [hS.compared_eq hc]
  cases c.column f <;> simp

/-- The incremental query selects the rows beyond the stored cursors. -/
theorem holds_query (hc : S.Uses ok c)
    (h : Jdbc.BuildIncrementalQuery S.driver S.jdbc c.column = some (condition, args)) (r : Row V) :
    Holds S.db.wrap args r.column condition ↔ S.Beyond c r := by
  rw [Jdbc.holds_incremental h]
  have hp : Jdbc.primaryValue S.db S.driver S.jdbc c.column = c.primary :=
    hS.compared_eq hc .primary
  have hsec := hS.compared_eq hc .secondary
  rw [hp]
  refine or_congr Iff.rfl ?_
  have hcursor : S.jdbc.secondaryCursor = S.secondary.map fun _ => .secondary := rfl
  rw [hcursor]
  cases S.secondary with
  | none => simp
  | some K =>
    simp only [map_some, some.injEq, isSome_some, true_and]
    constructor
    · rintro ⟨f, rfl, hnull, hb⟩
      rw [hsec] at hb
      exact ⟨hnull, hb⟩
    · rintro ⟨hnull, hb⟩
      refine ⟨.secondary, rfl, hnull, ?_⟩
      rw [hsec]
      exact hb

/-- The threshold filter keeps the rows whose cursors are at most the stored ones. -/
theorem holds_filter (hc : S.Uses ok c) {filter : Cond Field Jdbc.Wrap}
    (h : Jdbc.ThresholdFilter S.driver S.jdbc c.column = some (filter, args)) {r : Row V}
    (hp : OptLe r.primary c.primary) (hsec : S.secondary.isSome → OptLe r.secondary c.secondary) :
    Holds S.db.wrap args r.column filter := by
  rw [Jdbc.holds_threshold h]
  have hbelow : ∀ f, OptLe (r.column f) (c.column f) →
      r.column f = none ∨
        Jdbc.Below (r.column f) (Jdbc.compared S.db S.driver S.jdbc f (c.column f)) := by
    intro f hf
    rw [hS.compared_eq hc]
    by_cases hnull : r.column f = none
    · exact .inl hnull
    · exact .inr (below_of_le hf hnull)
  refine ⟨hbelow .primary hp, fun f hf => ?_⟩
  obtain ⟨K, hK, rfl⟩ := map_eq_some_iff.1 hf
  exact hbelow .secondary (hsec (by rw [hK]; rfl))

omit hS

/-! ### Timestamps -/

/-- An integer is printed in digits and a minus sign. -/
theorem printInt_ascii {c : UInt8} (h : c ∈ printInt n) : c < 0x80 ∧ c ≠ 60 := by
  have hdigit : ∀ d < 10, digit d < 0x80 ∧ digit d ≠ 60 := by decide
  have hdec : c ∈ decimal n.natAbs → c < 0x80 ∧ c ≠ 60 := by
    intro hc
    obtain ⟨d, hd, rfl⟩ := mem_decimal hc
    exact hdigit d hd
  unfold printInt at h
  split at h
  · rcases mem_cons.1 h with rfl | h
    · decide
    · exact hdec h
  · exact hdec h

theorem printInt_injective : Function.Injective printInt := by
  have hsign : ∀ n x, decimal n ≠ 45 :: x := by
    intro n x h
    obtain ⟨d, hd, hc⟩ := mem_decimal (h ▸ mem_cons_self : (45 : UInt8) ∈ decimal n)
    revert d
    decide
  intro m n h
  unfold printInt at h
  split at h <;> split at h
  · have := decimal_injective (tail_eq_of_cons_eq h)
    omega
  · exact absurd h.symm (hsign _ _)
  · exact absurd h (hsign _ _)
  · have := decimal_injective h
    omega

theorem printCursor_timestamp_injective (driver : Jdbc.DriverType) :
    Function.Injective (Stream.printCursor (timestampColumn driver)) := by
  -- no number has the bracket of `<nil>` in it
  have hnil : ∀ t, printInt t ≠ ascii "<nil>" := by
    intro t h
    have hmem : (60 : UInt8) ∈ printInt t := by
      rw [h]
      decide
    exact (printInt_ascii hmem).2 rfl
  intro a b h
  match a, b, h with
  | none, none, _ => rfl
  | none, some t, h => exact absurd h.symm (hnil t)
  | some t, none, h => exact absurd h (hnil t)
  | some t, some u, h => exact congrArg some (printInt_injective h)

/-- Every timestamp is faithful in a stream with one cursor, where the driver keeps
all nine digits and hands the parameter over as it is. -/
theorem faithful_timestamp {S : Stream Int} (driver : Jdbc.DriverType) (hdb2 : driver ≠ .db2)
    (hplain : S.driver.requiresFormatter = false) (hp : S.primary = timestampColumn driver)
    (hs : S.secondary = none) (hid : ∀ c ∈ S.streamID, c < 0x80) : S.Faithful fun _ => True := by
  have hcol : ∀ K, S.IsColumn K → K = timestampColumn driver := by
    intro K hK
    rcases hK with rfl | h
    · exact hp
    · rw [hs] at h
      cases h
  have hthread : ∀ c, S.threadID c = S.streamID ++ ascii "_" ++
      (Stream.printCursor S.primary c.primary ++ ascii "_" ++ ascii "<nil>") := by
    intro c
    unfold Stream.threadID generateThreadID
    rw [hs, if_pos (by simp [ascii])]
  have hprint : ∀ v c, c ∈ Stream.printCursor S.primary v → c < 0x80 := by
    intro v c hc
    rw [hp] at hc
    cases v with
    | none => exact (by decide +kernel : ∀ c ∈ ascii "<nil>", c < 0x80) c hc
    | some t => exact (printInt_ascii hc).1
  refine ⟨⟨⟨?_, ?_⟩, ?_, ?_⟩, ?_⟩
  · intro K hK a b _ _
    rw [hcol K hK]
    exact compare_gt_iff_gt
  · intro f v _
    unfold Jdbc.compared Jdbc.cursorCondition
    rw [hplain]
    rfl
  · intro K hK v _
    rw [hcol K hK]
    exact if_neg hdb2
  · intro K hK v _
    rw [hcol K hK]
    rfl
  · intro c d hc hd heq
    have hvalid : Valid (S.threadID c) := by
      refine valid_of_ascii fun x hx => ?_
      rw [hthread] at hx
      simp only [mem_append] at hx
      rcases hx with (h | h) | (h | h) | h
      · exact hid x h
      · exact (by decide +kernel : ∀ c ∈ ascii "_", c < 0x80) x h
      · exact hprint _ x h
      · exact (by decide +kernel : ∀ c ∈ ascii "_", c < 0x80) x h
      · exact (by decide +kernel : ∀ c ∈ ascii "<nil>", c < 0x80) x h
    rw [toValid_of_valid hvalid, hthread, hthread, append_cancel_left_eq,
      append_cancel_right_eq, append_cancel_right_eq] at heq
    rw [hp] at heq
    have hprim : c.primary = d.primary := printCursor_timestamp_injective driver heq
    have hsec : c.secondary = d.secondary := by rw [hc.single hs, hd.single hs]
    cases c
    cases d
    simp only [Cursors.mk.injEq]
    exact ⟨hprim, hsec⟩

end Olake.Incremental
