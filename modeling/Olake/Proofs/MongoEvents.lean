/-
Whether the changes of a collection, applied in order, leave the ids of its documents.

Every image of a document has its `_id`, so whichever of them the driver emits, the
change has the same olake id: the printed `_id`.  The exception is an update whose
document is gone when the server looks it up, in a collection without pre-images.  It
is emitted without a document, and its olake id is a hash of nothing (`emptyID`).

The mirror library does the rest: the destination keeps showing exactly the documents
of the collection as long as no new one prints like another and no such update comes.
-/
import Olake.Model.MongoEvents
import Olake.Proofs.Replication

namespace Olake.MongoDB

open Mirror List Function Option

variable {S V : Type}

/-! ### Collections and their events -/

/-- A change of a collection.  A document is known by its `_id`. -/
inductive DocOp (V : Type) where
  | insert (id : Option V)
  /-- An update or a replace, which keep the `_id`. -/
  | update (id : Option V)
  | delete (id : Option V)

def DocOp.apply (A : Set (Option V)) : DocOp V → Set (Option V)
  | .insert id => Insert.insert id A
  | .update _ => A
  | .delete id => A \ {id}

/-- Ids are unique, and what is changed is there. -/
def DocOp.Valid (A : Set (Option V)) : DocOp V → Prop
  | .insert id => id ∉ A
  | .update id => id ∈ A
  | .delete id => id ∈ A

/-- A document, or a document key, with this `_id`. -/
def HasID (id : Option V) (doc : Record V) : Prop := doc.lookup "_id" = some id

/-- The events that the server may send for a change. -/
inductive Reports : DocOp V → CDCDocument V → Prop
  | insert {id : Option V} {full : Record V} (h : HasID id full) (before : Option (Record V))
      (key : Record V) : Reports (.insert id) ⟨.insert, some full, before, key⟩
  | update {id : Option V} {full before : Option (Record V)} (hfull : ∀ d ∈ full, HasID id d)
      (hbefore : ∀ d ∈ before, HasID id d) (key : Record V) :
      Reports (.update id) ⟨.update, full, before, key⟩
  | replace {id : Option V} {full : Record V} (h : HasID id full) (before : Option (Record V))
      (key : Record V) : Reports (.update id) ⟨.replace, some full, before, key⟩
  | delete {id : Option V} {before : Option (Record V)} {key : Record V}
      (hbefore : ∀ d ∈ before, HasID id d) (hkey : HasID id key) (full : Option (Record V)) :
      Reports (.delete id) ⟨.delete, full, before, key⟩

/-! ### The olake id of a change -/

section Identity

variable (std : Stdlib V) (convert : Option V → Option V)

/-- The olake id of the document with an `_id`. -/
def olakeID (id : Option V) : String := std.sprint (convert id)

/-- The olake id of a change without a document. -/
def emptyID : String := std.md5 (std.sprint none ++ "|")

variable {std convert}

theorem lookup_filterMongoObject (h : doc.lookup name = some v) :
    (filterMongoObject convert doc).lookup name = some (convert v) := by
  induction doc with
  | nil => cases h
  | cons entry rest ih =>
    obtain ⟨n, w⟩ := entry
    simp only [filterMongoObject, map_cons, lookup_cons] at h ⊢
    cases hn : name == n with
    | true =>
      simp only [hn] at h ⊢
      rw [some.inj h]
    | false =>
      simp only [hn] at h ⊢
      exact ih h

theorem keysHash_document {id : Option V} (h : HasID id doc) :
    keysHash std (filterMongoObject convert doc) ["_id"] = olakeID std convert id := by
  have hlookup : (filterMongoObject convert doc).lookup "_id" = some (convert id) :=
    lookup_filterMongoObject h
  simp [keysHash, hlookup, Record.get, olakeID]

theorem keysHash_nil : keysHash std ([] : Record V) ["_id"] = emptyID std := by
  simp [keysHash, Record.get, emptyID]

/-- The event carries an image of the document, or it is an update without one. -/
theorem Reports.document {record : CDCDocument V} (h : Reports op record) :
    match op with
    | .insert id => ∃ doc, record.document = some doc ∧ HasID id doc
    | .update id => record.document = none ∨ ∃ doc, record.document = some doc ∧ HasID id doc
    | .delete id => ∃ doc, record.document = some doc ∧ HasID id doc := by
  cases h with
  | insert h => exact ⟨_, rfl, h⟩
  | replace h => exact .inr ⟨_, rfl, h⟩
  | @update id full before hfull hbefore key =>
    cases full with
    | some full => exact .inr ⟨full, rfl, hfull full rfl⟩
    | none =>
      cases before with
      | some before => exact .inr ⟨before, rfl, hbefore before rfl⟩
      | none => exact .inl rfl
  | @delete id before key hbefore hkey full =>
    cases before with
    | some before => exact ⟨before, rfl, hbefore before rfl⟩
    | none => exact ⟨key, rfl, hkey⟩

theorem Reports.kind (h : Reports op record) :
    normalizeOperationType record.operationType = .delete ↔ ∃ id, op = .delete id := by
  cases h <;> simp [normalizeOperationType]

end Identity

/-! ### The destination -/

section Destination

variable (std : Stdlib V) (convert : Option V → Option V)

/-- The destination holds a row for each document of the collection, under an olake id
of its own, and no other row. -/
def HoldsExactly (m : String → Option (Record V)) (A : Set (Option V)) : Prop :=
  Shows (olakeID std convert) (fun _ => ()) (fun i => (m i).map (fun _ => ())) A

/-- What keeps the destination exact: a new document does not print like another, and
an update without a document (if it comes at all) meets a row that is there anyway. -/
def Told (A : Set (Option V)) : DocOp V × CDCDocument V → Prop
  | (.insert id, _) => Fresh (olakeID std convert) A (olakeID std convert id)
  | (.update _, record) => record.document = none → ¬ Fresh (olakeID std convert) A (emptyID std)
  | (.delete _, _) => True

def collectionAfter (A : Set (Option V)) (history : List (DocOp V × CDCDocument V)) :
    Set (Option V) :=
  history.foldl (fun A e => e.1.apply A) A

/-- The history happens at the collection, and its events are what the server sends. -/
def ReportedRun (A : Set (Option V)) : List (DocOp V × CDCDocument V) → Prop
  | [] => True
  | e :: history => (e.1.Valid A ∧ Reports e.1 e.2) ∧ ReportedRun (e.1.apply A) history

/-- Each event of the history is one that keeps the destination exact. -/
def ToldRun (A : Set (Option V)) : List (DocOp V × CDCDocument V) → Prop
  | [] => True
  | e :: history => Told std convert A e ∧ ToldRun (e.1.apply A) history

variable {std convert} {cfg : StreamConfig} {m : String → Option (Record V)} {A : Set (Option V)}

theorem destinationAfter_cons (dedupInserts : Bool) (c : CDCChange S V) (cs : List (CDCChange S V)) :
    destinationAfter std cfg dedupInserts m (c :: cs) =
      destinationAfter std cfg dedupInserts (destinationAfter std cfg dedupInserts m [c]) cs := by
  unfold destinationAfter
  rw [filterMap_cons, filterMap_cons]
  cases rawRecordOf std cfg dedupInserts c <;> rfl

theorem destinationAfter_change (std : Stdlib V) (convert : Option V → Option V)
    (m : String → Option (Record V)) (hkey : cfg.sourceDefinedPrimaryKey = ["_id"])
    (dedupInserts : Bool) (s : S) (record : CDCDocument V) :
    ∃ row, destinationAfter std cfg dedupInserts m [record.change convert s] =
      Function.update m (keysHash std (filterMongoObject convert (record.document.getD [])) ["_id"])
        (if normalizeOperationType record.operationType = .delete then none else some row) := by
  refine ⟨cfg.retainSelectedColumns (filterMongoObject convert (record.document.getD [])), ?_⟩
  have hne : cfg.sourceDefinedPrimaryKey ≠ [] := by simp [hkey]
  have hhash := GetKeysHash_of_key std hne (filterMongoObject convert (record.document.getD []))
  rw [hkey] at hhash
  simp only [destinationAfter, rawRecordOf, CDCDocument.change, hkey, hhash, map_some,
    filterMap_cons, map_cons]
  unfold RawRecord.change
  simp only [opType_eq_d_iff]
  split <;> rfl

theorem shows_update_of_mem (h : Shows (olakeID std convert) (fun _ => ()) f A)
    (hi : ¬ Fresh (olakeID std convert) A i) : Function.update f i (some ()) = f := by
  unfold Fresh at hi
  push Not at hi
  obtain ⟨id, hid, rfl⟩ := hi
  exact update_eq_self_iff.2 (h.get hid).symm

theorem not_fresh_of_shows
    (h : Shows (olakeID std convert) (fun _ => ()) (Function.update f i (some ())) A) :
    ¬ Fresh (olakeID std convert) A i := by
  obtain ⟨id, hid, heq, -⟩ := (h.image_iff i ()).1 (update_self i (some ()) f)
  exact fun hfresh => hfresh id hid heq

theorem holdsExactly_step_iff (hkey : cfg.sourceDefinedPrimaryKey = ["_id"]) (dedupInserts : Bool) (s : S)
    (h : HoldsExactly std convert m A) (hv : op.Valid A) (hr : Reports op record) :
    HoldsExactly std convert
        (destinationAfter std cfg dedupInserts m [record.change convert s]) (op.apply A) ↔
      Told std convert A (op, record) := by
  obtain ⟨row, hrow⟩ := destinationAfter_change std convert m hkey dedupInserts s record
  rw [hrow]
  unfold HoldsExactly at h ⊢
  set f : String → Option Unit := fun i => (m i).map (fun _ => ()) with hf
  have hmap : ∀ i v, (fun j => (update m i v j).map (fun _ => ())) =
      update f i (v.map (fun _ => ())) := by
    intro i v
    funext j
    by_cases hj : j = i
    · subst hj
      simp
    · simp [hj, hf]
  rw [hmap]
  have hkind := hr.kind
  have hdoc := hr.document
  cases op with
  | insert id =>
    obtain ⟨doc, hsome, hid⟩ := hdoc
    rw [if_neg (by simp [hkind]), hsome, getD_some, keysHash_document hid]
    exact h.add_iff hv
  | delete id =>
    obtain ⟨doc, hsome, hid⟩ := hdoc
    rw [if_pos (by simp [hkind]), hsome, getD_some, keysHash_document hid]
    exact iff_of_true (h.remove hv) trivial
  | update id =>
    rw [if_neg (by simp [hkind])]
    rcases hdoc with hnone | ⟨doc, hsome, hid⟩
    · rw [hnone]
      change Shows _ _ (update f (keysHash std [] ["_id"]) (some ())) A ↔ _
      rw [keysHash_nil]
      constructor
      · intro h' _
        exact not_fresh_of_shows h'
      · intro htold
        rw [shows_update_of_mem h (htold hnone)]
        exact h
    · rw [hsome, getD_some, keysHash_document hid]
      have hthere : ¬ Fresh (olakeID std convert) A (olakeID std convert id) :=
        fun hfresh => hfresh id hv rfl
      have hsame : update f (olakeID std convert id) (some ()) = f := shows_update_of_mem h hthere
      change Shows _ _ (update f (olakeID std convert id) (some ())) A ↔ _
      rw [hsame]
      refine iff_of_true h (fun hnone => ?_)
      rw [hsome] at hnone
      cases hnone

/-- **Which histories leave the ids of the documents.**  From any collection that the
destination holds exactly, it goes on to do so after any number of changes if and only
if every event of the history is one it can follow. -/
theorem document_ids_replicated_iff (hkey : cfg.sourceDefinedPrimaryKey = ["_id"])
    (dedupInserts : Bool) (s : S) (h : HoldsExactly std convert m A)
    (history : List (DocOp V × CDCDocument V)) (hrun : ReportedRun A history) :
    (∀ n, HoldsExactly std convert
        (destinationAfter std cfg dedupInserts m
          ((history.map (fun e => e.2.change convert s)).take n))
        (collectionAfter A (history.take n))) ↔
      ToldRun std convert A history := by
  induction history generalizing m A with
  | nil => simpa [ToldRun, collectionAfter, destinationAfter, applyAll] using h
  | cons e rest ih =>
    obtain ⟨⟨hv, hr⟩, hrest⟩ := hrun
    have hstep := holdsExactly_step_iff hkey dedupInserts s h hv hr
    constructor
    · intro hall
      have hfirst := hall 1
      have htold := hstep.1 hfirst
      refine ⟨htold, (ih (hstep.2 htold) hrest).1 (fun n => ?_)⟩
      have hnext := hall (n + 1)
      rw [map_cons, take_succ_cons, destinationAfter_cons] at hnext
      exact hnext
    · rintro ⟨htold, htolds⟩ n
      cases n with
      | zero => exact h
      | succ n =>
        rw [map_cons, take_succ_cons, destinationAfter_cons]
        exact (ih (hstep.2 htold) hrest).2 htolds n

end Destination

/-! ### A document that is gone before its update is read -/

/-- Ids are printed as they are. -/
def plainIDs : Stdlib String where
  sprint v := v.getD "<nil>"
  md5 text := "md5:" ++ text

def collection : StreamConfig where
  sourceDefinedPrimaryKey := ["_id"]
  selectedColumns := none
  resolveUpsertOp := false

/-- A document with nothing but its `_id`. -/
def justID (id : String) : Record String := [("_id", some id)]

/-- A document is inserted, updated and deleted; the server looks it up for the update
only after the delete, and there are no pre-images. -/
def goneBeforeLookup : List (DocOp String × CDCDocument String) :=
  [(.insert (some "1"), ⟨.insert, some (justID "1"), none, justID "1"⟩),
    (.update (some "1"), ⟨.update, none, none, justID "1"⟩),
    (.delete (some "1"), ⟨.delete, none, none, justID "1"⟩)]

theorem reportedRun_goneBeforeLookup : ReportedRun ∅ goneBeforeLookup := by
  refine ⟨⟨?_, .insert ?_ none _⟩, ⟨?_, .update ?_ ?_ _⟩, ⟨?_, .delete ?_ ?_ none⟩, trivial⟩
  all_goals simp [DocOp.Valid, DocOp.apply, HasID, justID]

theorem holdsExactly_empty {V : Type} (std : Stdlib V) (convert : Option V → Option V) :
    HoldsExactly std convert (fun _ => none) ∅ :=
  ⟨fun _ _ => by simp, fun _ h => absurd h (Set.notMem_empty _)⟩

/-- The collection is empty at the end, and the destination has a row. -/
theorem row_of_no_document :
    ReportedRun ∅ goneBeforeLookup ∧ collectionAfter ∅ goneBeforeLookup = ∅ ∧
      destinationAfter plainIDs collection true (fun _ => none)
        (goneBeforeLookup.map (fun e => e.2.change id ())) "md5:<nil>|" = some [] := by
  refine ⟨reportedRun_goneBeforeLookup, ?_, ?_⟩
  · simp [goneBeforeLookup, collectionAfter, DocOp.apply]
  · decide +kernel

/-- The same document with a pre-image for its update. -/
def withPreImage : List (DocOp String × CDCDocument String) :=
  [(.insert (some "1"), ⟨.insert, some (justID "1"), none, justID "1"⟩),
    (.update (some "1"), ⟨.update, none, some (justID "1"), justID "1"⟩),
    (.delete (some "1"), ⟨.delete, none, some (justID "1"), justID "1"⟩)]

theorem document_ids_replicated_with_pre_image :
    ReportedRun ∅ withPreImage ∧ ∀ n, HoldsExactly plainIDs id
      (destinationAfter plainIDs collection true (fun _ => none)
        ((withPreImage.map (fun e => e.2.change id ())).take n))
      (collectionAfter ∅ (withPreImage.take n)) := by
  have hrun : ReportedRun ∅ withPreImage := by
    refine ⟨⟨?_, .insert ?_ none _⟩, ⟨?_, .update ?_ ?_ _⟩, ⟨?_, .delete ?_ ?_ none⟩, trivial⟩
    all_goals simp [DocOp.Valid, DocOp.apply, HasID, justID]
  refine ⟨hrun, (document_ids_replicated_iff rfl true () (holdsExactly_empty _ _) _ hrun).2 ?_⟩
  refine ⟨?_, ?_, trivial, trivial⟩
  · intro id hid
    exact absurd hid (Set.notMem_empty _)
  · nofun

end Olake.MongoDB
