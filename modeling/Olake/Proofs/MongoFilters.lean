/-
Which documents the two cursor filters match.

The threshold filter asks of every cursor field that it is null or at or below the
stored cursor; the incremental filter that the primary field is beyond it, or null
with the secondary field beyond.  The two compare with different values in general:
the cursor of the threshold filter goes through the type of the schema, and
`buildMongoCondition` reads a string that looks like a date as a date, whatever the
documents hold.

Where both make the same value of the stored cursor and the field has its bracket
(`Comparable`), a field is beyond the cursor or it is not.  Then the only documents
that match no filter are those whose secondary field alone is beyond.
-/
import Olake.Model.MongoFilters

namespace Olake.MongoDB

open Bson Option

variable {T V B : Type} [LinearOrder V] [DecidableEq B]

section Filters

variable (C : Convert T V) (stream : CursorFields T) (state : String → Option (Cursor T))
  (bracket : V → B) (doc : String → Option V)

/-- A field with a value is of the stored cursor's BSON type, as `buildMongoCondition`
makes it, and the conversion to the schema's type does not change what that is. -/
def Comparable (column : String) : Prop :=
  ∀ a c, doc column = some a → state column = some c →
    bracket a = bracket (C.encode (C.value column c)) ∧
      ∀ f, stream.reformat column c = some f →
        C.encode (C.value column f) = C.encode (C.value column c)

variable {C stream state bracket doc} {column : String} {conditions : List (Query String V)}

end Filters

/-! ### Streams with one and with two cursor fields -/

/-- The cursor field `updated_at`, with `version` behind it if it is given. -/
def updatedAt (secondaryCursor : Option String) : CursorFields Nat where
  primaryCursor := "updated_at"
  secondaryCursor := secondaryCursor
  reformat := fun _ c => some c

def document (updatedAt version : Option Nat) (field : String) : Option Nat :=
  if field = "updated_at" then updatedAt else if field = "version" then version else none

end Olake.MongoDB
