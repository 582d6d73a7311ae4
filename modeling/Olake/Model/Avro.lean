/-
Decoded Avro values made fit for JSON (utils/typeutils/avro.go).

The decoder knows the schema, `ExtractAvroValue` sees only what the decoder returns: a record, a
map and the branch of a union are all Go maps, and that of a union has the name of the branch as
its only key.  The values here are those of all schemas.
-/
import Mathlib.Data.Fin.Basic
import Mathlib.Logic.Embedding.Basic

namespace Olake.Typeutils

/-- A value of an Avro schema.  Strings, bytes, enums and numbers other than decimals are leaves. -/
inductive Avro (Leaf : Type) where
  | null
  | decimal (x : Rat)
  | scalar (x : Leaf)
  | record (n : Nat) (field : Fin n ↪ String) (value : Fin n → Avro Leaf)
  | map (n : Nat) (key : Fin n ↪ String) (value : Fin n → Avro Leaf)
  | array (n : Nat) (value : Fin n → Avro Leaf)
  | union (branch : String) (value : Avro Leaf)

/-- A Go value made by the decoder, or by `ExtractAvroValue`. -/
inductive Native (Leaf : Type) where
  | nil
  | rat (x : Rat)
  | leaf (x : Leaf)
  | map (n : Nat) (key : Fin n ↪ String) (value : Fin n → Native Leaf)
  | slice (n : Nat) (value : Fin n → Native Leaf)

variable {Leaf : Type}

/-- What the decoder returns for a value; the branch `null` of a union is not wrapped. -/
def Avro.decoded : Avro Leaf → Native Leaf
  | .null => .nil
  | .decimal x => .rat x
  | .scalar x => .leaf x
  | .record n key value | .map n key value => .map n key (fun i => (value i).decoded)
  | .array n value => .slice n (fun i => (value i).decoded)
  | .union _ .null => .nil
  | .union branch value => .map 1 ⟨fun _ => branch, fun i j _ => Subsingleton.elim i j⟩ (fun _ => value.decoded)

/-- `ExtractAvroValue`, with the conversion of decimals to `float64`. -/
def ExtractAvroValue (float64 : Rat → Leaf) : Native Leaf → Native Leaf
  | .nil => .nil
  | .rat x => .leaf (float64 x)
  | .map n key value =>
    if h : n = 1 then ExtractAvroValue float64 (value ⟨0, h ▸ Nat.one_pos⟩)
    -- `ExtractAvroRecord`
    else .map n key (fun i => ExtractAvroValue float64 (value i))
  | .slice n value => .slice n (fun i => ExtractAvroValue float64 (value i))
  | .leaf x => .leaf x

/-- The value with the branches of unions replaced by their content. -/
def Avro.unwrapped (float64 : Rat → Leaf) : Avro Leaf → Native Leaf
  | .null => .nil
  | .decimal x => .leaf (float64 x)
  | .scalar x => .leaf x
  | .record n key value | .map n key value => .map n key (fun i => (value i).unwrapped float64)
  | .array n value => .slice n (fun i => (value i).unwrapped float64)
  | .union _ value => value.unwrapped float64

end Olake.Typeutils
