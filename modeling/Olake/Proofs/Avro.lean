/-
Which Avro values come out of `ExtractAvroValue` as they are.

A Go map with one entry is taken for the branch of a union, so a record or map with one entry
loses a level wherever it stands.  What is left is never deeper than the value
(`depth_extract_le`), which is why the level is not made up for anywhere else.
-/
import Mathlib.Data.Finset.Lattice.Fold
import Mathlib.Data.Fintype.Basic
import Olake.Model.Avro

namespace Olake.Typeutils

variable {Leaf : Type} (float64 : Rat → Leaf)

/-- No record or map inside the value has exactly one entry. -/
def Avro.Unambiguous : Avro Leaf → Prop
  | .record n _ value | .map n _ value => n ≠ 1 ∧ ∀ i, (value i).Unambiguous
  | .array _ value => ∀ i, (value i).Unambiguous
  | .union _ value => value.Unambiguous
  | _ => True

/-- How deep the maps and slices of a value are nested. -/
def Native.depth : Native Leaf → Nat
  | .map _ _ value | .slice _ value => Finset.univ.sup (fun i => (value i).depth) + 1
  | _ => 0

theorem extract_union (branch : String) (v : Avro Leaf) :
    ExtractAvroValue float64 (Avro.union branch v).decoded = ExtractAvroValue float64 v.decoded := by
  cases v <;> rfl

theorem depth_extract_le (v : Avro Leaf) :
    (ExtractAvroValue float64 v.decoded).depth ≤ (v.unwrapped float64).depth := by
  induction v with
  | null | decimal | scalar => exact Nat.le_refl 0
  | record n key value ih | map n key value ih =>
    simp only [Avro.decoded, ExtractAvroValue]
    split
    · exact (ih _).trans (Nat.le_succ_of_le
        (Finset.le_sup (f := fun i => ((value i).unwrapped float64).depth) (Finset.mem_univ _)))
    · exact Nat.succ_le_succ (Finset.sup_mono_fun (fun i _ => ih i))
  | array n value ih => exact Nat.succ_le_succ (Finset.sup_mono_fun (fun i _ => ih i))
  | union branch value ih =>
    rw [extract_union]
    exact ih

/-- **When exactly the wrappers of unions are removed.** -/
theorem extract_eq_unwrapped_iff (v : Avro Leaf) :
    ExtractAvroValue float64 v.decoded = v.unwrapped float64 ↔ v.Unambiguous := by
  induction v with
  | null | decimal | scalar => exact ⟨fun _ => trivial, fun _ => rfl⟩
  | record n key value ih | map n key value ih =>
    simp only [Avro.decoded, Avro.unwrapped, ExtractAvroValue, Avro.Unambiguous]
    split
    · next hn =>
      subst hn
      refine iff_of_false (fun heq => ?_) (fun h => h.1 rfl)
      -- what is left of the entry would be as deep as the whole
      have hle := depth_extract_le float64 (value 0)
      rw [show ExtractAvroValue float64 (value 0).decoded = _ from heq] at hle
      exact absurd (Finset.le_sup (f := fun i => ((value i).unwrapped float64).depth) (Finset.mem_univ 0))
        (Nat.not_le.2 hle)
    · next hn => simp [hn, funext_iff, ih]
  | array n value ih => simp [Avro.decoded, Avro.unwrapped, ExtractAvroValue, Avro.Unambiguous, funext_iff, ih]
  | union branch value ih =>
    rw [extract_union]
    exact ih

def city : Avro String :=
  .record 1 ⟨fun _ => "city", fun i j _ => Subsingleton.elim i j⟩ (fun _ => .scalar "Rome")

theorem one_field_record_removed : ExtractAvroValue (fun _ => "") city.decoded = .leaf "Rome" ∧
    ExtractAvroValue (fun _ => "") city.decoded ≠ city.unwrapped (fun _ => "") :=
  ⟨rfl, nofun⟩

end Olake.Typeutils
