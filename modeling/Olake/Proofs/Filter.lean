/-
Whether the changes that survive the row filter keep the destination equal to the
filtered table.

The filter decides each record on its own, by the row after the change, and deletes
pass.  So what arrives is what `Mirror.Op.changes` says when the rows that satisfy the
filter are kept, however the records are cut into batches.  The mirror library then
tells which histories the destination can follow.  With keys that stay, those are the
histories in which no update takes a row out of the filter: the row before such an
update was written, and nothing removes it.
-/
import Olake.Model.Filter
import Olake.Proofs.Replication
import Mathlib.Data.List.Forall2

namespace Olake

open Mirror Typeutils List Option

variable {S V Row Key : Type}

/-! ### Records of a history -/

/-- A record as the filter sees it, with its data flattened for the destination. -/
def batchRecord (std : Stdlib V) (cfg : StreamConfig) (dedupInserts : Bool)
    (flatten : Record V → Record V) (change : CDCChange S V) : Option (RawRecord V) :=
  (rawRecordOf std cfg dedupInserts change).map
    (fun raw => { raw with data := flatten raw.data })

/-- The olake id that a change is written under. -/
def changeID (std : Stdlib V) (cfg : StreamConfig) (change : CDCChange S V) : Option String :=
  (GetKeysHash std change.data cfg.sourceDefinedPrimaryKey).map change.extraOlakeID.getD

/-- A change that a driver emits for an operation.  A delete need not carry the row: it
only has its olake id. -/
inductive Emits (std : Stdlib V) (cfg : StreamConfig) (recordOf : Row → Record V)
    (id : Row → String) : Op Row → CDCChange S V → Prop
  | insert {new : Row} {change : CDCChange S V} (hkind : change.kind ≠ .delete)
      (hdata : change.data = recordOf new) (hid : changeID std cfg change = some (id new)) :
      Emits std cfg recordOf id (.insert new) change
  | update {old new : Row} {change : CDCChange S V} (hkind : change.kind ≠ .delete)
      (hdata : change.data = recordOf new) (hid : changeID std cfg change = some (id new)) :
      Emits std cfg recordOf id (.update old new) change
  | delete {old : Row} {change : CDCChange S V} (hkind : change.kind = .delete)
      (hid : changeID std cfg change = some (id old)) :
      Emits std cfg recordOf id (.delete old) change

/-- A record that stands for an operation. -/
inductive Carries (id : Row → String) (image : Row → Record V) : Op Row → RawRecord V → Prop
  | insert {new : Row} {record : RawRecord V} (hop : record.opType ≠ .d)
      (hid : record.olakeID = id new) (hdata : record.data = image new) :
      Carries id image (.insert new) record
  | update {old new : Row} {record : RawRecord V} (hop : record.opType ≠ .d)
      (hid : record.olakeID = id new) (hdata : record.data = image new) :
      Carries id image (.update old new) record
  | delete {old : Row} {record : RawRecord V} (hop : record.opType = .d)
      (hid : record.olakeID = id old) : Carries id image (.delete old) record

section Records

variable {std : Stdlib V} {cfg : StreamConfig} (dedupInserts : Bool)
  (flatten : Record V → Record V) {recordOf : Row → Record V} {id : Row → String}

theorem batchRecord_of_changeID (h : changeID std cfg change = some i) :
    batchRecord std cfg dedupInserts flatten change =
      some ⟨flatten (cfg.retainSelectedColumns change.data), i,
        mapChangeKindToOperationType change.kind dedupInserts cfg⟩ := by
  obtain ⟨hash, hhash, rfl⟩ := map_eq_some_iff.1 h
  unfold batchRecord rawRecordOf
  rw [hhash]
  rfl

theorem batchRecord_carries (h : Emits std cfg recordOf id op change) :
    ∃ record, batchRecord std cfg dedupInserts flatten change = some record ∧
      Carries id (fun r => flatten (imageOf cfg recordOf r)) op record := by
  cases h with
  | insert hkind hdata hid =>
    refine ⟨_, batchRecord_of_changeID dedupInserts flatten hid, .insert ?_ rfl ?_⟩
    · rwa [ne_eq, opType_eq_d_iff]
    · rw [hdata, imageOf]
  | update hkind hdata hid =>
    refine ⟨_, batchRecord_of_changeID dedupInserts flatten hid, .update ?_ rfl ?_⟩
    · rwa [ne_eq, opType_eq_d_iff]
    · rw [hdata, imageOf]
  | delete hkind hid =>
    refine ⟨_, batchRecord_of_changeID dedupInserts flatten hid, .delete ?_ rfl⟩
    rwa [opType_eq_d_iff]

theorem batchRecords_carry (h : List.Forall₂ (Emits std cfg recordOf id) ops changes) :
    List.Forall₂ (Carries id (fun r => flatten (imageOf cfg recordOf r))) ops
      (changes.filterMap (batchRecord std cfg dedupInserts flatten)) := by
  induction h with
  | nil => exact .nil
  | cons hop _ ih =>
    obtain ⟨record, hrecord, hcarries⟩ := batchRecord_carries dedupInserts flatten hop
    rw [filterMap_cons, hrecord]
    exact .cons hcarries ih

end Records

/-! ### What survives -/

/-- With this schema the filter can be read, and decides the rows as `keep` does. -/
def FilterMeans (vals : Values V) (filter : FilterConfig V) (resolve : String → String)
    (image : Row → Record V) (keep : Row → Bool) (schema : Schema) : Prop :=
  ∃ conditions, parseConditions vals schema resolve filter.conditions = .ok conditions ∧
    ∀ r, matchesConditions vals (image r) (isOr filter.logicalOperator) conditions = some (keep r)

section Survivors

variable {vals : Values V} {filter : FilterConfig V} {resolve : String → String} {id : Row → String}
  {image : Row → Record V} {keep : Row → Bool} {conditions : List (ParsedCondition V)}
  {records : List (RawRecord V)} {logicalOp : String}
  (hmeans : ∀ r, matchesConditions vals (image r) (isOr logicalOp) conditions = some (keep r))
include hmeans

/-- A row that an insert or an update leaves, in front of records that are filtered. -/
theorem keepRecords_row (hop : record.opType ≠ .d) (hid : record.olakeID = id new)
    (hdata : record.data = image new)
    (hrest : keepRecords vals conditions logicalOp true records = .ok filtered) :
    ∃ first, keepRecords vals conditions logicalOp true (record :: records)
        = .ok (first ++ filtered) ∧
      first.map RawRecord.change = if keep new then [.upsert (id new) (image new)] else [] := by
  cases hkeep : keep new with
  | true =>
    refine ⟨[record], ?_, ?_⟩
    · simp [keepRecords, passes, hop, hdata, hmeans, hkeep, hrest]
    · simp [RawRecord.change, hop, hid, hdata]
  | false =>
    refine ⟨[], ?_, rfl⟩
    simp [keepRecords, passes, hop, hdata, hmeans, hkeep, hrest]

theorem keepRecords_cons (h : Carries id image op record)
    (hrest : keepRecords vals conditions logicalOp true records = .ok filtered) :
    ∃ first, keepRecords vals conditions logicalOp true (record :: records)
        = .ok (first ++ filtered) ∧
      first.map RawRecord.change = op.changes keep id image := by
  cases h with
  | insert hop hid hdata | update hop hid hdata => exact keepRecords_row hmeans hop hid hdata hrest
  | delete hop hid =>
    refine ⟨[record], ?_, ?_⟩
    · simp [keepRecords, passes, hop, hrest]
    · simp [Op.changes, RawRecord.change, hop, hid]

theorem keepRecords_carried (h : List.Forall₂ (Carries id image) ops records) :
    ∃ filtered, keepRecords vals conditions logicalOp true records = .ok filtered ∧
      filtered.map RawRecord.change = ops.flatMap (Op.changes keep id image) := by
  induction h with
  | nil => exact ⟨[], rfl, rfl⟩
  | cons hop _ ih =>
    obtain ⟨filtered, hfiltered, hchanges⟩ := ih
    obtain ⟨first, hfirst, hchange⟩ := keepRecords_cons hmeans hop hfiltered
    refine ⟨first ++ filtered, hfirst, ?_⟩
    rw [map_append, flatMap_cons, hchange, hchanges]

omit hmeans

/-- A batch of deletes is told whatever the filter. -/
theorem deletes_carried (h : List.Forall₂ (Carries id image) ops records)
    (hdeletes : ∀ record ∈ records, record.opType = .d) :
    records.map RawRecord.change = ops.flatMap (Op.changes keep id image) := by
  induction h with
  | nil => rfl
  | @cons op record ops records hop _ ih =>
    obtain ⟨hd, hdeletes⟩ := forall_mem_cons.1 hdeletes
    rw [map_cons, flatMap_cons, ih hdeletes]
    cases hop with
    | insert hne | update hne => exact absurd hd hne
    | delete hop hid => simp [Op.changes, RawRecord.change, hop, hid]

/-- A record of the batch is up to the filter. -/
def Filtered (batch : Batch V) : Prop := ∃ record ∈ batch.records, record.opType ≠ .d

theorem FilterRecords_carried (hfilter : filter.conditions ≠ [])
    (hmeans : Filtered batch → FilterMeans vals filter resolve image keep batch.schema)
    (h : List.Forall₂ (Carries id image) ops batch.records) :
    ∃ filtered, FilterRecords vals batch.records filter false batch.schema resolve true = .ok filtered ∧
      filtered.map RawRecord.change = ops.flatMap (Op.changes keep id image) := by
  have hempty : filter.conditions.isEmpty = false := by simpa using hfilter
  by_cases hall : batch.records.all (passes true) = true
  · refine ⟨batch.records, by simp [FilterRecords, hall], deletes_carried h ?_⟩
    simpa [passes] using hall
  · obtain ⟨conditions, hparse, hdecides⟩ := hmeans (by simpa [passes, Filtered] using hall)
    obtain ⟨filtered, hfiltered, hchanges⟩ := keepRecords_carried hdecides h
    exact ⟨filtered, by simp [FilterRecords, hempty, hall, hparse, hfiltered], hchanges⟩

/-- Of a history the batches leave what a mirror of the filtered table is told. -/
theorem survivors_carried
    (hdriver : driver ∈ CDCKeepDeletesThroughFilterDrivers) (hfilter : filter.conditions ≠ [])
    (hmeans : ∀ b ∈ batches, Filtered b → FilterMeans vals filter resolve image keep b.schema)
    (h : List.Forall₂ (Carries id image) ops (batches.flatMap Batch.records)) :
    ∃ out, survivors vals driver filter false resolve batches = .ok out ∧
      out.map RawRecord.change = ops.flatMap (Op.changes keep id image) := by
  induction batches generalizing ops with
  | nil =>
    cases h
    exact ⟨[], rfl, rfl⟩
  | cons batch rest ih =>
    rw [flatMap_cons] at h
    -- the operations of this batch, and those of the others
    obtain ⟨filtered, hfiltered, hfirst⟩ := FilterRecords_carried hfilter
      (hmeans batch mem_cons_self) (forall₂_take_append ops _ _ h)
    obtain ⟨others, hothers, hrest⟩ :=
      ih (fun b hb => hmeans b (mem_cons_of_mem _ hb)) (forall₂_drop_append ops _ _ h)
    refine ⟨filtered ++ others, ?_, ?_⟩
    · unfold survivors
      rw [decide_eq_true hdriver, hfiltered, hothers]
    · rw [map_append, hfirst, hrest, ← flatMap_append, take_append_drop]

end Survivors

/-! ### The destination and the filtered table -/

/-- The rows that satisfy the filter are at the destination, and nothing else is. -/
def FilteredAt (id : Row → String) (image : Row → Record V) (key : Row → Key) (keep : Row → Bool)
    (t : Key → Option Row) (m : String → Option (Record V)) : Prop :=
  Shows id image m (Kept key keep t)

/-- **When change records keep the destination equal to the filtered table.**  The first
`n` changes may be cut into batches in any way, each with its own schema, by which the filter can be
read if there is something to filter. -/
theorem filtered_destination_iff [DecidableEq Key] (std : Stdlib V) (cfg : StreamConfig)
    (dedupInserts : Bool) (flatten : Record V → Record V) (vals : Values V)
    (resolve : String → String) {driver : DriverType}
    (hdriver : driver ∈ CDCKeepDeletesThroughFilterDrivers)
    {filter : FilterConfig V} (hfilter : filter.conditions ≠ [])
    {recordOf : Row → Record V} {id : Row → String} {key : Row → Key} {keep : Row → Bool}
    (hid : ∀ r r', key r = key r' → id r = id r')
    {t : Key → Option Row} {m : String → Option (Record V)}
    (hstart : FilteredAt id (fun r => flatten (imageOf cfg recordOf r)) key keep t m)
    {ops : List (Op Row)} (hv : ValidRun key t ops) (hkeys : ∀ op ∈ ops, op.KeyFixed key)
    {changes : List (CDCChange S V)}
    (hchanges : List.Forall₂ (Emits std cfg recordOf id) ops changes)
    {batches : Nat → List (Batch V)}
    (hcut : ∀ n, (batches n).flatMap Batch.records =
      (changes.take n).filterMap (batchRecord std cfg dedupInserts flatten))
    (hmeans : ∀ n, ∀ b ∈ batches n, Filtered b → FilterMeans vals filter resolve
      (fun r => flatten (imageOf cfg recordOf r)) keep b.schema) :
    (∀ n, ∃ out, survivors vals driver filter false resolve (batches n) = .ok out ∧
        FilteredAt id (fun r => flatten (imageOf cfg recordOf r)) key keep
          (runAll key t (ops.take n)) (applyAll m (out.map RawRecord.change))) ↔
      StaysKeptRun key keep id t ops := by
  rw [← followedRun_iff_staysKept hid ops hkeys, ← shows_run_iff ops hstart hv]
  apply forall_congr'
  intro n
  have hcarried := batchRecords_carry dedupInserts flatten (forall₂_take n hchanges)
  rw [← hcut n] at hcarried
  obtain ⟨out, hout, htold⟩ := survivors_carried hdriver hfilter (hmeans n) hcarried
  constructor
  · rintro ⟨out', hout', hshows⟩
    rw [hout] at hout'
    rw [← htold, Except.ok.inj hout']
    exact hshows
  · intro hshows
    refine ⟨out, hout, ?_⟩
    rw [htold]
    exact hshows

/-! ### A topic of tickets, with deduplication on the message key -/

section Tickets

structure Ticket where
  ticketKey : String
  status : String

/-- The record that the Kafka driver makes of a message. -/
def ticketRecord (r : Ticket) : Record String :=
  [("_kafka_key", some r.ticketKey), ("status", some r.status)]

/-- A Kafka stream in upsert mode. -/
def ticketStream : StreamConfig where
  sourceDefinedPrimaryKey := ["_kafka_offset", "_kafka_partition"]
  selectedColumns := none
  resolveUpsertOp := true

def ticketMessage (r : Ticket) : CDCChange Unit String :=
  ⟨(), .update, ticketRecord r, some r.ticketKey⟩

def ticketTombstone (r : Ticket) : CDCChange Unit String :=
  ⟨(), .delete, [("_kafka_key", some r.ticketKey)], some r.ticketKey⟩

/-- Texts, compared for equality only. -/
def textValues : Values String where
  parseFilterValue _ v := .ok v
  compare a b := some (if a = b then .eq else .lt)

/-- `status = "open"`. -/
def openTickets : FilterConfig String where
  logicalOperator := "AND"
  conditions := [⟨"status", .eq, some "open"⟩]

def ticketSchema : Schema :=
  .iceberg (fun column => if column = "status" then some "string" else none)

def isOpen (r : Ticket) : Bool := decide (r.status = "open")

/-- The messages of some changes, filtered as one batch. -/
def ticketBatch (changes : List (CDCChange Unit String)) : Batch String :=
  ⟨ticketSchema, changes.filterMap (batchRecord plainStdlib ticketStream true (fun data => data))⟩

theorem openTickets_means : FilterMeans textValues openTickets (fun column => column)
    (imageOf ticketStream ticketRecord) isOpen ticketSchema := by
  refine ⟨[⟨"status", .eq, some "open"⟩], rfl, fun r => ?_⟩
  have hget : Record.get (imageOf ticketStream ticketRecord r) "status" = some r.status := rfl
  have hand : isOr openTickets.logicalOperator = false := by decide
  by_cases hopen : r.status = "open"
  · simp [matchesConditions, evaluate, hget, hand, isOpen, textValues, Operator.holds, hopen]
  · simp [matchesConditions, evaluate, hget, hand, isOpen, textValues, Operator.holds, hopen]

theorem filteredAt_empty (id : Row → String) (image : Row → Record V) (key : Row → Key)
    (keep : Row → Bool) : FilteredAt id image key keep (fun _ => none) (fun _ => none) := by
  refine ⟨fun i x => ?_, fun r hr => by cases hr.1⟩
  constructor
  · nofun
  · rintro ⟨r, hr, -⟩
    cases hr.1

/-- An open ticket is closed. -/
def closedTicket : List (Op Ticket) :=
  [.insert ⟨"k", "open"⟩, .update ⟨"k", "open"⟩ ⟨"k", "closed"⟩]

/-- A row that leaves the filter stays at the destination as it was inside. -/
theorem closed_ticket_stays : Typeutils.DriverType.kafka ∈ CDCKeepDeletesThroughFilterDrivers ∧
    List.Forall₂ (Emits plainStdlib ticketStream ticketRecord Ticket.ticketKey) closedTicket
      [ticketMessage ⟨"k", "open"⟩, ticketMessage ⟨"k", "closed"⟩] ∧
    ValidRun Ticket.ticketKey (fun _ => none) closedTicket ∧
    (∀ op ∈ closedTicket, op.KeyFixed Ticket.ticketKey) ∧
    ∃ out, survivors textValues .kafka openTickets false (fun column => column)
        [ticketBatch [ticketMessage ⟨"k", "open"⟩, ticketMessage ⟨"k", "closed"⟩]] = .ok out ∧
      applyAll (fun _ => none) (out.map RawRecord.change) "k"
        = some [("_kafka_key", some "k"), ("status", some "open")] ∧
      ¬ FilteredAt Ticket.ticketKey (imageOf ticketStream ticketRecord) Ticket.ticketKey isOpen
        (runAll Ticket.ticketKey (fun _ => none) closedTicket)
        (applyAll (fun _ => none) (out.map RawRecord.change)) := by
  refine ⟨by decide, ?_, ?_, ?_, _, rfl, rfl, ?_⟩
  · exact .cons (.insert (by decide) rfl rfl) (.cons (.update (by decide) rfl rfl) .nil)
  · exact ⟨rfl, ⟨rfl, .inl rfl⟩, trivial⟩
  · exact List.forall_iff_forall_mem.1 ⟨trivial, rfl⟩
  · intro h
    obtain ⟨r, hr, hid, -⟩ :=
      (h.image_iff "k" [("_kafka_key", some "k"), ("status", some "open")]).1 rfl
    -- the only row under this key is closed
    have hrow : runAll Ticket.ticketKey (fun _ => none) closedTicket r.ticketKey = some r := hr.1
    rw [hid] at hrow
    have hclosed : r = ⟨"k", "closed"⟩ := (some.inj hrow).symm
    have hopen := hr.2
    rw [hclosed] at hopen
    exact absurd hopen (by decide)

/-- Two tickets: the second is opened, and the first is deleted by a tombstone. -/
def openedTicket : List (Op Ticket) :=
  [.insert ⟨"a", "open"⟩, .insert ⟨"b", "closed"⟩, .update ⟨"b", "closed"⟩ ⟨"b", "open"⟩,
    .delete ⟨"a", "open"⟩]

def openedMessages : List (CDCChange Unit String) :=
  [ticketMessage ⟨"a", "open"⟩, ticketMessage ⟨"b", "closed"⟩, ticketMessage ⟨"b", "open"⟩,
    ticketTombstone ⟨"a", "open"⟩]

theorem staysKeptRun_openedTicket :
    StaysKeptRun Ticket.ticketKey isOpen Ticket.ticketKey (fun _ => none) openedTicket := by
  refine ⟨?_, ?_, ⟨?_, ?_⟩, ?_, trivial⟩
  · intro _ r hr
    cases hr.1
  · intro hopen
    exact absurd hopen (by decide)
  · intro hopen
    exact absurd hopen (by decide)
  · -- ticket `b` enters the filter: under its key there is only the closed row
    intro _ _ r hr hid
    have hrow := hr.1
    simp only [Live, Set.mem_ofPred_eq, hid] at hrow
    have hclosed : r = ⟨"b", "closed"⟩ := (some.inj hrow).symm
    have hopen := hr.2
    rw [hclosed] at hopen
    exact absurd hopen (by decide)
  · intro hopen
    exact absurd hopen (by decide)

/-- Rows enter the filter and are deleted inside it. -/
theorem filtered_destination_opened : ValidRun Ticket.ticketKey (fun _ => none) openedTicket ∧
    ∀ n, ∃ out, survivors textValues .kafka openTickets false (fun column => column)
        [ticketBatch (openedMessages.take n)] = .ok out ∧
      FilteredAt Ticket.ticketKey (imageOf ticketStream ticketRecord) Ticket.ticketKey isOpen
        (runAll Ticket.ticketKey (fun _ => none) (openedTicket.take n))
        (applyAll (fun _ => none) (out.map RawRecord.change)) := by
  have hemits : List.Forall₂ (Emits plainStdlib ticketStream ticketRecord Ticket.ticketKey)
      openedTicket openedMessages :=
    .cons (.insert (by decide) rfl rfl) (.cons (.insert (by decide) rfl rfl)
      (.cons (.update (by decide) rfl rfl) (.cons (.delete rfl rfl) .nil)))
  have hvalid : ValidRun Ticket.ticketKey (fun _ => none) openedTicket :=
    ⟨rfl, rfl, ⟨rfl, .inl rfl⟩, rfl, trivial⟩
  have hkeys : ∀ op ∈ openedTicket, op.KeyFixed Ticket.ticketKey :=
    List.forall_iff_forall_mem.1 ⟨trivial, trivial, rfl, trivial⟩
  have hcut : ∀ n, [ticketBatch (openedMessages.take n)].flatMap Batch.records =
      (openedMessages.take n).filterMap
        (batchRecord plainStdlib ticketStream true (fun data => data)) := by
    intro n
    rw [flatMap_singleton]
    rfl
  have hmeans : ∀ n, ∀ b ∈ [ticketBatch (openedMessages.take n)], Filtered b →
      FilterMeans textValues openTickets (fun column => column) (imageOf ticketStream ticketRecord)
        isOpen b.schema := by
    intro n b hb _
    rw [mem_singleton.1 hb]
    exact openTickets_means
  exact ⟨hvalid, (filtered_destination_iff plainStdlib ticketStream true (fun data => data) textValues
    (fun column => column) (by decide) (cons_ne_nil _ _) (fun _ _ h => h)
    (filteredAt_empty _ _ _ _) hvalid hkeys hemits hcut hmeans).2 staysKeptRun_openedTicket⟩

end Tickets

end Olake
