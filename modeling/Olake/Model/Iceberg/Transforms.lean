/-
The truncate transform of partitions (`truncateTransform` of
destination/iceberg/arrow-writer/transforms.go).
-/
import Olake.Model.Reformat

namespace Olake.Transforms

open Typeutils

variable {go : GoLib} (conv : Conversions go)

/-- `v - (((v % n) + n) % n)`, where sums wrap around and `%` has the sign of `v`. -/
def truncated (bits : Nat) (v n : Int) : Int :=
  (v - ((v.tmod n + n).bmod (2 ^ bits)).tmod n).bmod (2 ^ bits)

/-- The text for paths and the typed value. -/
def truncateTransform (val : Typeutils.Value go) (n : Int) (colType : String) :
    Except String (String × Typeutils.Value go) :=
  if n ≤ 0 then .error ("invalid truncate width: " ++ toString n ++ " (must be > 0)")
  else match colType with
  | "int" => do
    let v ← ReformatInt32 conv val
    if 2 ^ 31 - 1 < n then .error ("truncate width " ++ toString n ++ " exceeds int32 range")
    else .ok (toString (truncated 32 v n), .int .int32 (truncated 32 v n))
  | "long" => do
    let v ← ReformatInt64 conv val
    .ok (toString (truncated 64 v n), .int .int64 (truncated 64 v n))
  | "string" =>
    match val with
    | .string v =>
      let truncated := if v.length ≤ n then v else .ofList (v.toList.take n.toNat)
      .ok (truncated, .string truncated)
    | _ => .error ("expected string for colType \"" ++ colType ++ "\", got " ++ conv.typeName val)
  | _ => .error ("unsupported colType \"" ++ colType ++ "\" for truncate transform")

end Olake.Transforms
