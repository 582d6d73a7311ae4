/-
The destination databases of newly discovered streams (types/catalog.go).
-/
import Mathlib.Data.List.Basic

namespace Olake.Catalog

/-- What `strings.Split` by a colon gives first. -/
def firstPart (database : List Char) : List Char := (database.splitOn ':').headD []

def isConstant (database : List Char) : Bool := (database.splitOn ':').length == 1

/-- `getDestDBPrefix`, over the destination databases of the streams. -/
def getDestDBPrefix : List (List Char) → Bool × List Char
  | [] => (false, [])
  | first :: rest =>
    if (first :: rest).all (firstPart · = firstPart first) then (isConstant first, firstPart first)
    else (false, [])

/-- What `mergeCatalogs` makes of the destination database of a new stream; `reformat` is
`utils.Reformat`. -/
def newDestination (reformat : List Char → List Char) (old : List (List Char))
    (streamNamespace database : List Char) : List Char :=
  let (constantValue, destPrefix) := getDestDBPrefix old
  if constantValue then old.headD []
  else if destPrefix ≠ [] then destPrefix ++ ':' :: reformat streamNamespace
  else database

end Olake.Catalog
