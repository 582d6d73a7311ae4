/-
The documents that the MongoDB driver takes out of change events (`handleChangeDoc`
in drivers/mongodb/internal/cdc.go, `filterMongoObject` in drivers/mongodb/internal/mon.go).

An event names the operation and the key of its document, and carries up to two images
of it: the document, which for an update the server looks up when it sends the event,
and the one before the change.  The driver emits one of them, or the key of a deleted
document, or nothing at all under the name of a document.
-/
import Olake.Model.Changes

namespace Olake.MongoDB

variable {S V : Type}

/-- The operation types that the pipeline lets through. -/
inductive OperationType where
  | insert
  | update
  | replace
  | delete

/-- `CDCDocument`, without its times.  `none` is a nil map. -/
structure CDCDocument (V : Type) where
  operationType : OperationType
  fullDocument : Option (Record V)
  fullDocumentBeforeChange : Option (Record V)
  documentKey : Record V

def normalizeOperationType : OperationType → ChangeKind
  | .replace => .update
  | .insert => .insert
  | .update => .update
  | .delete => .delete

/-- `FullDocument` of a record after the switch of `handleChangeDoc`. -/
def CDCDocument.document (record : CDCDocument V) : Option (Record V) :=
  match normalizeOperationType record.operationType with
  | .delete =>
    match record.fullDocumentBeforeChange with
    | some before => some before
    | none => some record.documentKey
  | .update =>
    match record.fullDocument with
    | some full => some full
    | none => record.fullDocumentBeforeChange
  | _ => record.fullDocument

/-- `filterMongoObject`; `convert` is its switch over the type of a value. -/
def filterMongoObject (convert : Option V → Option V) (doc : Record V) : Record V :=
  doc.map (fun entry => (entry.1, convert entry.2))

/-- The change that `handleChangeDoc` emits. -/
def CDCDocument.change (convert : Option V → Option V) (stream : S) (record : CDCDocument V) :
    CDCChange S V where
  stream := stream
  kind := normalizeOperationType record.operationType
  data := filterMongoObject convert (record.document.getD [])
  extraOlakeID := none

end Olake.MongoDB
