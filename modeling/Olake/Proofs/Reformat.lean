/-
Which values can be reformatted to the type of their column.

The type of a column is above the types of all its values.  A flattened value can then be
reformatted to it, with one exception: a number of JSON that is no 64-bit integer is taken for a
float without a look at its size, and one that no float can hold cannot be read as one
(`reformatValue_cases`).

An integer that is not declared with 64 bits is taken for one of 32 bits, also where its type is
wider or has no sign, and the conversion wraps around (`reformat_detected_int_iff`).
-/
import Olake.Model.Reformat
import Olake.Proofs.TypeSchema
import Olake.Proofs.Values

namespace Olake.Typeutils

variable {go : GoLib}

/-- A date that was recognized is also read when it is known to be one. -/
theorem reformatDateString_inDB (h : reformatDateString go s false = .ok t) :
    ∃ t', reformatDateString go s true = .ok t' := by
  unfold reformatDateString parseStringTimestamp at h ⊢
  by_cases hpattern : startsWithDatePattern s = false
  · simp [hpattern] at h
  · simp only [hpattern] at h ⊢
    cases hparse : parseLayouts go s "" DateTimeFormats with
    | ok t => exact ⟨_, rfl⟩
    | error err => exact ⟨_, by rfl⟩

theorem timestamp_le (h : detectTimestampPrecision t ≤ u) :
    u = .string ∨ u = .timestamp ∨ u = .timestampMilli ∨ u = .timestampMicro ∨ u = .timestampNano := by
  have hall : ∀ d, (d = .timestamp ∨ d = .timestampMilli ∨ d = .timestampMicro ∨ d = .timestampNano) → d ≤ u →
      u = .string ∨ u = .timestamp ∨ u = .timestampMilli ∨ u = .timestampMicro ∨ u = .timestampNano := by
    rintro d (rfl | rfl | rfl | rfl) hle <;> revert hle <;> cases u <;> decide
  refine hall _ ?_ h
  simp only [detectTimestampPrecision]
  split_ifs <;> simp

/-- A value that is flat: it is neither bytes nor one of the others. -/
def Flat : Value go → Prop
  | .bytes _ | .other _ => False
  | _ => True

theorem flat_of_flattenValue (h : flattenValue v = .ok flat) : Flat flat := by
  cases v with
  | bytes s => cases h; trivial
  | other x =>
    simp only [flattenValue] at h
    split at h
    · cases h
      trivial
    · cases h
  | _ => cases h; trivial

theorem string_le (h : DataType.string ≤ u) : u = .string := by
  revert h
  cases u <;> decide

section Reformat

variable (conv : Conversions go)

theorem reformatValue_number (text : String) :
    (∃ x, go.parseFloat64 text = .ok x ∧
      ReformatValue conv .float64 (some (.number text)) = .ok (some (.float64 x))) ∨
    ∃ err, go.parseFloat64 text = .error err ∧
      ReformatValue conv .float64 (some (.number text)) = .error (.other err) := by
  cases hparse : go.parseFloat64 text with
  | ok x => exact .inl ⟨x, rfl, by simp [ReformatValue, ReformatFloat64, hparse, Except.map]⟩
  | error err => exact .inr ⟨err, rfl, by simp [ReformatValue, ReformatFloat64, hparse, Except.map]⟩

/-- A flat value can be reformatted to any type above its own, unless it is a number that is to be
a float and is out of range. -/
theorem reformatValue_cases (hflat : Flat v) (hle : TypeFromValue (some v) ≤ u) :
    (∃ out, ReformatValue conv u (some v) = .ok out) ∨
    ∃ text err, v = .number text ∧ u = .float64 ∧ go.parseFloat64 text = .error err ∧
      ReformatValue conv u (some v) = .error (.other err) := by
  cases v with
  | bool b =>
    left
    simp only [TypeFromValue] at hle
    cases u <;> first | exact ⟨_, rfl⟩ | exact absurd hle (by decide)
  | int type n =>
    left
    simp only [TypeFromValue] at hle
    split at hle <;> cases u <;> first | exact ⟨_, rfl⟩ | exact absurd hle (by decide)
  | float32 | float64 =>
    left
    simp only [TypeFromValue] at hle
    cases u <;> first | exact ⟨_, rfl⟩ | exact absurd hle (by decide)
  | string s =>
    left
    simp only [TypeFromValue] at hle
    split at hle
    · next t ht =>
      obtain ⟨t', ht'⟩ := reformatDateString_inDB ht
      rcases timestamp_le hle with rfl | rfl | rfl | rfl | rfl
      · exact ⟨_, rfl⟩
      all_goals exact ⟨some (.time t'), by simp [ReformatValue, ReformatDate, ht', Except.map]⟩
    · rw [string_le hle]
      exact ⟨_, rfl⟩
  | time t =>
    left
    rcases timestamp_le hle with rfl | rfl | rfl | rfl | rfl <;> exact ⟨_, rfl⟩
  | number text =>
    by_cases hu : u = .float64
    · subst hu
      rcases reformatValue_number conv text with ⟨x, -, hout⟩ | ⟨err, herr, hout⟩
      · exact .inl ⟨_, hout⟩
      · exact .inr ⟨text, err, rfl, rfl, herr, hout⟩
    · left
      simp only [TypeFromValue] at hle
      split at hle
      · next n hn =>
        cases u <;> first
          | exact ⟨_, rfl⟩
          | exact absurd rfl hu
          | exact absurd hle (by decide)
          | exact ⟨some (.int .int64 n), by simp [ReformatValue, ReformatInt64, hn, Except.map]⟩
      · cases u <;> first | exact ⟨_, rfl⟩ | exact absurd rfl hu | exact absurd hle (by decide)
  | bytes | other => exact hflat.elim

end Reformat

/-! ### Integers -/

/-- Numbers of which only the range matters. -/
def ranges : GoLib where
  Float32 := Unit
  Float64 := Unit
  Time := Unit
  Other := Unit
  marshal := fun _ => .ok "null"
  typeOfOther := fun _ => .unknown
  timeParse := fun _ _ => .error "not a time"
  epoch := ()
  year := fun _ => 1970
  addYears := fun _ _ => ()
  nanosecond := fun _ => 0
  loadedStateVersion := 6
  parseInt := fun text _ => if text = "5" then .ok 5 else .error "invalid syntax"
  parseFloat64 := fun text => if text = "1e400" then .error "value out of range" else .ok ()
  parseFloat32 := fun _ => .ok ()

def rangeConversions : Conversions ranges where
  int64OfFloat32 := fun _ => 0
  int64OfFloat64 := fun _ => 0
  int32OfFloat32 := fun _ => 0
  int32OfFloat64 := fun _ => 0
  float64OfInt := fun _ => ()
  float64OfFloat32 := fun _ => ()
  float32OfInt := fun _ => ()
  float32OfFloat64 := fun _ => ()
  parseUint := fun _ => .error "invalid syntax"
  unix := fun _ => ()
  zeroTime := ()
  singleByte := fun _ => none
  text := fun _ => ""
  typeName := fun _ => ""
  singleton := fun _ => ()
  reformatOther := fun _ _ => .ok (.other ())

theorem bmod_eq_self_iff (k : Nat) : n.bmod (2 ^ (k + 1)) = n ↔ -2 ^ k ≤ n ∧ n < 2 ^ k := by
  rw [Int.bmod_eq_iff (Nat.two_pow_pos _), Int.sub_self, and_iff_left (Int.dvd_zero _)]
  push_cast
  omega

/-- **When an integer survives the type detected from it.**  The types of 64 bits lose the upper
half of `uint64`, every other type the numbers that do not fit into 32 bits with a sign. -/
theorem reformat_detected_int_iff (conv : Conversions go) (type : IntType) (n : Int) (hn : type.Holds n) :
    (∀ out, reformatDetected conv type n = .ok out → ∃ type', out = some (.int type' n)) ↔
      if type = .int64 ∨ type = .uint64 then n < 2 ^ 63 else -2 ^ 31 ≤ n ∧ n < 2 ^ 31 := by
  simp only [reformatDetected, TypeFromValue]
  split
  · next hwide =>
    have hmin : -2 ^ 63 ≤ n := by
      rcases hwide with rfl | rfl
      · exact hn.1
      · exact Int.le_trans (by decide) hn.1
    rw [← and_iff_right (b := n < 2 ^ 63) hmin, ← bmod_eq_self_iff 63]
    simp [ReformatValue, ReformatInt64, Except.map, wrap64]
  · rw [← bmod_eq_self_iff 31]
    simp [ReformatValue, ReformatInt32, Except.map, wrap32]

theorem reformat_detected_int_small : IntType.uint.Holds 7 ∧ ∀ out,
    reformatDetected rangeConversions .uint 7 = .ok out → ∃ type', out = some (.int type' 7) :=
  have hn : IntType.uint.Holds 7 := ⟨by decide, by decide⟩
  ⟨hn, (reformat_detected_int_iff rangeConversions .uint 7 hn).2 (by decide)⟩

theorem large_uint32_changes : IntType.uint32.Holds 3000000000 ∧
    reformatDetected rangeConversions .uint32 3000000000 = .ok (some (.int .int32 (-1294967296))) :=
  ⟨⟨by decide, by decide⟩, rfl⟩

end Olake.Typeutils
