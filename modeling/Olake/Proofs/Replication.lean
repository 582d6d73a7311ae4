/-
Whether the changes of a table, applied in order at the destination, give the table.

Both drivers emit one change for each operation on a row, with the row after it, or
the row before a delete.  So what arrives is what `Mirror.Op.changes` says when every
row is kept, and the mirror library tells exactly which histories it can follow: those
in which no update changes a row's olake id and no new row has the olake id of another.

For pgoutput this rests on full row images: a TOAST value that is not sent again is
the one in the row before.
-/
import Olake.Lib.Mirror
import Olake.Model.RowImages

namespace Olake

open Mirror List

variable {S V Row : Type}

/-! ### What arrives at the destination -/

/-- The change that stands for an operation. -/
def opChange (recordOf : Row → Record V) (stream : S) : Op Row → CDCChange S V
  | .insert new => ⟨stream, .insert, recordOf new, none⟩
  | .update _ new => ⟨stream, .update, recordOf new, none⟩
  | .delete old => ⟨stream, .delete, recordOf old, none⟩

/-- A record applied by its olake id: a delete removes the row, anything else upserts it. -/
def RawRecord.change (r : RawRecord V) : Change String (Record V) :=
  if r.opType = .d then .remove r.olakeID else .upsert r.olakeID r.data

/-- The destination after changes have been pushed. -/
def destinationAfter (std : Stdlib V) (cfg : StreamConfig) (dedupInserts : Bool)
    (m : String → Option (Record V)) (changes : List (CDCChange S V)) : String → Option (Record V) :=
  applyAll m ((changes.filterMap (rawRecordOf std cfg dedupInserts)).map RawRecord.change)

def olakeIDOf (std : Stdlib V) (cfg : StreamConfig) (recordOf : Row → Record V) (r : Row) : String :=
  keysHash std (recordOf r) cfg.sourceDefinedPrimaryKey

/-- A row as it stands at the destination. -/
def imageOf (cfg : StreamConfig) (recordOf : Row → Record V) (r : Row) : Record V :=
  cfg.retainSelectedColumns (recordOf r)

section Pushed

variable (std : Stdlib V) {cfg : StreamConfig} (hkey : cfg.sourceDefinedPrimaryKey ≠ [])
  (dedupInserts : Bool)

include hkey in
theorem GetKeysHash_of_key (m : Record V) :
    GetKeysHash std m cfg.sourceDefinedPrimaryKey
      = some (keysHash std m cfg.sourceDefinedPrimaryKey) := by
  unfold GetKeysHash
  split
  · rename_i h
    exact absurd h hkey
  · rfl

theorem opType_eq_d_iff (kind : ChangeKind) :
    mapChangeKindToOperationType kind dedupInserts cfg = .d ↔ kind = .delete := by
  unfold mapChangeKindToOperationType
  cases kind <;> cases cfg.resolveUpsertOp <;> cases dedupInserts <;> simp

include hkey in
theorem rawRecordOf_opChange (recordOf : Row → Record V) (stream : S) (op : Op Row) :
    ((rawRecordOf std cfg dedupInserts (opChange recordOf stream op)).map RawRecord.change).toList
      = op.changes (fun _ => true) (olakeIDOf std cfg recordOf) (imageOf cfg recordOf) := by
  unfold rawRecordOf
  rw [GetKeysHash_of_key std hkey]
  cases op <;> simp [RawRecord.change, opChange, opType_eq_d_iff, Op.changes, olakeIDOf, imageOf]

include hkey in
theorem destinationAfter_ops (recordOf : Row → Record V) (stream : S)
    (m : String → Option (Record V)) (ops : List (Op Row)) :
    destinationAfter std cfg dedupInserts m (ops.map (opChange recordOf stream))
      = applyAll m
          (ops.flatMap (Op.changes (fun _ => true) (olakeIDOf std cfg recordOf) (imageOf cfg recordOf))) := by
  unfold destinationAfter
  congr 1
  induction ops with
  | nil => rfl
  | cons op ops ih =>
    have hop := rawRecordOf_opChange std hkey dedupInserts recordOf stream op
    rw [map_cons, flatMap_cons, ← hop, ← ih, filterMap_cons]
    cases rawRecordOf std cfg dedupInserts (opChange recordOf stream op) with
    | none | some => rfl

end Pushed

/-- The table is at the destination, row for row. -/
def Converged {Key : Type} (std : Stdlib V) (cfg : StreamConfig) (recordOf : Row → Record V)
    (key : Row → Key) (t : Key → Option Row) (m : String → Option (Record V)) : Prop :=
  Shows (olakeIDOf std cfg recordOf) (imageOf cfg recordOf) m (Live key t)

theorem converged_iff {Key : Type} [DecidableEq Key]
    (hkey : cfg.sourceDefinedPrimaryKey ≠ []) (dedupInserts : Bool) {key : Row → Key}
    {t : Key → Option Row} (hstart : Converged std cfg recordOf key t m) (hv : ValidRun key t ops) :
    (∀ n, Converged std cfg recordOf key (runAll key t (ops.take n))
        (destinationAfter std cfg dedupInserts m ((ops.map (opChange recordOf stream)).take n))) ↔
      SameIdentityRun key (olakeIDOf std cfg recordOf) t ops := by
  unfold Converged at hstart ⊢
  rw [← kept_all] at hstart
  rw [← followedRun_all, ← shows_run_iff ops hstart hv]
  apply forall_congr'
  intro n
  rw [← map_take, destinationAfter_ops std hkey, kept_all]

def primaryKeyOf {A : Type} (columns pk : List String) (r : List (Option A)) : List (Option A) :=
  pk.map (fun k => ((columns.zip r).lookup k).join)

def changesOf [DecidableEq S] (s : S) (changes : List (CDCChange S V)) : List (CDCChange S V) :=
  changes.filter (fun c => decide (c.stream = s))

section ChangesOf

variable [DecidableEq S] {s : S}

theorem changesOf_append (l l' : List (CDCChange S V)) :
    changesOf s (l ++ l') = changesOf s l ++ changesOf s l' :=
  filter_append l l'

theorem changesOf_other {l : List (CDCChange S V)} (h : ∀ c ∈ l, c.stream ≠ s) :
    changesOf s l = [] := by
  unfold changesOf
  rw [filter_eq_nil_iff]
  intro c hc
  simpa using h c hc

theorem changesOf_ops (recordOf : Row → Record V) (ops : List (Op Row)) :
    changesOf s (ops.map (opChange recordOf s)) = ops.map (opChange recordOf s) := by
  unfold changesOf
  rw [filter_eq_self]
  intro c hc
  obtain ⟨op, -, rfl⟩ := mem_map.1 hc
  cases op <;> simp [opChange]

end ChangesOf

/-! ### pgoutput -/

namespace Pgoutput

/-- A row: the text of each column, or null. -/
abbrev PgRow := List (Option (List UInt8))

/-- A column that is sent as it is. -/
def sentColumn : Option (List UInt8) → TupleColumn
  | none => ⟨.null, none⟩
  | some bytes => ⟨.text, some bytes⟩

/-- A full image of a row. -/
def fullTuple (r : PgRow) : List TupleColumn := r.map sentColumn

/-- The row after an update as it is sent: a TOAST value that has not changed is left
out. -/
inductive Sent : PgRow → PgRow → List TupleColumn → Prop
  | nil : Sent [] [] []
  | value {old new : PgRow} {cols : List TupleColumn} (o v : Option (List UInt8))
      (h : Sent old new cols) : Sent (o :: old) (v :: new) (sentColumn v :: cols)
  | toast {old new : PgRow} {cols : List TupleColumn} (bytes : List UInt8) (h : Sent old new cols) :
      Sent (some bytes :: old) (some bytes :: new) (⟨.toast, none⟩ :: cols)

def valuesOf (f : ChangeFilter S V) (rel : Relation) (r : PgRow) : Option (Record V) :=
  tupleValuesToMap f rel (some (fullTuple r)) none

/-- The record of a row whose values can be converted. -/
def recordOf (f : ChangeFilter S V) (rel : Relation) (r : PgRow) : Record V :=
  (valuesOf f rel r).getD []

/-- The messages tell of these operations on the table of `rel`, and of nothing else
on stream `s`.  The table has full row images. -/
inductive Announces (f : ChangeFilter S V) (s : S) (rel : Relation) :
    Replicator → List (Op PgRow) → List LogicalMsg → Prop
  | nil (r : Replicator) : Announces f s rel r [] []
  | insert {r : Replicator} {ops : List (Op PgRow)} {msgs : List LogicalMsg} (new : PgRow)
      (hrel : r.relationIDToMsgMap rel.relationID = some rel)
      (hnew : (valuesOf f rel new).isSome = true) (h : Announces f s rel r ops msgs) :
      Announces f s rel r (.insert new :: ops) (.insert rel.relationID (some (fullTuple new)) :: msgs)
  | update {r : Replicator} {ops : List (Op PgRow)} {msgs : List LogicalMsg} (old new : PgRow)
      (cols : List TupleColumn) (hsent : Sent old new cols)
      (hrel : r.relationIDToMsgMap rel.relationID = some rel)
      (hnew : (valuesOf f rel new).isSome = true) (h : Announces f s rel r ops msgs) :
      Announces f s rel r (.update old new :: ops)
        (.update rel.relationID (some (fullTuple old)) (some cols) :: msgs)
  | delete {r : Replicator} {ops : List (Op PgRow)} {msgs : List LogicalMsg} (old : PgRow)
      (hrel : r.relationIDToMsgMap rel.relationID = some rel)
      (hold : (valuesOf f rel old).isSome = true) (h : Announces f s rel r ops msgs) :
      Announces f s rel r (.delete old :: ops) (.delete rel.relationID (some (fullTuple old)) :: msgs)
  | other {r r' : Replicator} {ops : List (Op PgRow)} {msgs : List LogicalMsg} (msg : LogicalMsg)
      (changes : List (CDCChange S V)) (hmsg : processPgoutputWAL f r msg = some (r', changes))
      (hother : ∀ c ∈ changes, c.stream ≠ s) (h : Announces f s rel r' ops msgs) :
      Announces f s rel r ops (msg :: msgs)

variable {f : ChangeFilter S V} {s : S} {rel : Relation}

@[simp] theorem fullTuple_cons (v : Option (List UInt8)) (r : PgRow) :
    fullTuple (v :: r) = sentColumn v :: fullTuple r := rfl

/-- What is left out of an update is found in the row before. -/
theorem tupleColumnsToMap_sent (f : ChangeFilter S V)
    (h : Sent old new cols) : ∀ (rels : List RelationColumn) (data : Record V),
    tupleColumnsToMap f cols rels (fullTuple old) data
      = tupleColumnsToMap f (fullTuple new) rels [] data := by
  induction h with
  | nil => intro rels data; rfl
  | value o v h ih =>
    intro rels data
    cases rels <;> cases v <;> simp [sentColumn, tupleColumnsToMap, ih]
  | toast bytes h ih =>
    intro rels data
    cases rels <;> simp [sentColumn, tupleColumnsToMap, ih]

theorem tupleValuesToMap_sent (h : Sent old new cols) :
    tupleValuesToMap f rel (some cols) (some (fullTuple old)) = valuesOf f rel new :=
  tupleColumnsToMap_sent f h rel.columns []

variable {r : Replicator}

theorem emit_one (hrel : r.relationIDToMsgMap rel.relationID = some rel)
    (hs : f.tables (rel.namespaceName ++ "." ++ rel.relationName) = some s) (kind : ChangeKind)
    (hvalues : tupleValuesToMap f rel tuple oldTuple = valuesOf f rel row)
    (hrow : (valuesOf f rel row).isSome = true) :
    emit f r rel.relationID kind tuple oldTuple = some [⟨s, kind, recordOf f rel row, none⟩] := by
  obtain ⟨values, hval⟩ := Option.isSome_iff_exists.1 hrow
  simp only [emit, hrel, hs, hvalues, recordOf, hval, Option.map_some, Option.getD_some]

theorem processMessages_cons [DecidableEq S]
    (hmsg : processPgoutputWAL f r msg = some (r', now)) (hnow : changesOf s now = first)
    (h : ∃ changes, processMessages f r' msgs = some changes ∧ changesOf s changes = rest) :
    ∃ changes, processMessages f r (msg :: msgs) = some changes ∧
      changesOf s changes = first ++ rest := by
  obtain ⟨changes, hrun, hchanges⟩ := h
  refine ⟨now ++ changes, ?_, ?_⟩
  · simp only [processMessages, hmsg, hrun, Option.map_some]
  · rw [changesOf_append, hnow, hchanges]

theorem processMessages_announced [DecidableEq S]
    (hs : f.tables (rel.namespaceName ++ "." ++ rel.relationName) = some s)
    (h : Announces f s rel r ops msgs) : ∃ changes, processMessages f r msgs = some changes ∧
      changesOf s changes = ops.map (opChange (recordOf f rel) s) := by
  -- the change of one operation is of the stream itself
  have hself : ∀ op : Op PgRow, changesOf s [opChange (recordOf f rel) s op]
      = [opChange (recordOf f rel) s op] := fun op => changesOf_ops (recordOf f rel) [op]
  induction h with
  | nil r => exact ⟨[], rfl, rfl⟩
  | insert new hrel hnew h ih =>
    refine processMessages_cons ?_ (hself (.insert new)) ih
    rw [processPgoutputWAL, emitInsert, emit_one hrel hs .insert rfl hnew]
    rfl
  | update old new cols hsent hrel hnew h ih =>
    refine processMessages_cons ?_ (hself (.update old new)) ih
    rw [processPgoutputWAL, emitUpdate, emit_one hrel hs .update (tupleValuesToMap_sent hsent) hnew]
    rfl
  | delete old hrel hold h ih =>
    refine processMessages_cons ?_ (hself (.delete old)) ih
    rw [processPgoutputWAL, emitDelete, emit_one hrel hs .delete rfl hold]
    rfl
  | other msg changes hmsg hother h ih =>
    exact processMessages_cons hmsg (changesOf_other hother) ih

end Pgoutput

/-! ### The MySQL binlog -/

namespace Binlog

variable {W : Type}

/-- A row: the value of each column, or null. -/
abbrev MySQLRow (W : Type) := List (Option (Value W))

/-- The record of a row whose values can be converted. -/
def recordOf (f : ChangeFilter S V W) (view : List ColumnView) (r : MySQLRow W) : Record V :=
  (convertRowToMap f r view).getD []

/-- The updates of pairs of a row before and after. -/
def updatesOf {A : Type} : List A → List (Op A)
  | before :: after :: rest => .update before after :: updatesOf rest
  | _ => []

/-- The operations that an event logs. -/
def RowsEvent.ops (e : RowsEvent W) : List (Op (MySQLRow W)) :=
  match e.eventType with
  | .writeRows => e.rows.map Op.insert
  | .updateRows => updatesOf e.rows
  | .deleteRows => e.rows.map Op.delete
  | .other => []

/-- The events log these operations on the table, and nothing else on stream `s`. -/
inductive Logs (f : ChangeFilter S V W) (s : S) (table : String) (view : List ColumnView) :
    List (Op (MySQLRow W)) → List (RowsEvent W) → Prop
  | nil : Logs f s table view [] []
  | event {ops : List (Op (MySQLRow W))} {events : List (RowsEvent W)} (e : RowsEvent W)
      (htable : e.table = table) (hview : e.view = view)
      (hrows : ∀ row ∈ e.rows, (convertRowToMap f row view).isSome = true)
      (h : Logs f s table view ops events) : Logs f s table view (e.ops ++ ops) (e :: events)
  | other {ops : List (Op (MySQLRow W))} {events : List (RowsEvent W)} (e : RowsEvent W)
      (changes : List (CDCChange S V)) (he : FilterRowsEvent f e = some changes)
      (hother : ∀ c ∈ changes, c.stream ≠ s) (h : Logs f s table view ops events) :
      Logs f s table view ops (e :: events)

variable {f : ChangeFilter S V W} {s : S} {table : String} {view : List ColumnView}

theorem emitRows_eq (kind : ChangeKind)
    (h : ∀ row ∈ rows, (convertRowToMap f row view).isSome = true) :
    emitRows f s kind view rows
      = some (rows.map (fun row => ⟨s, kind, recordOf f view row, none⟩)) := by
  induction rows with
  | nil => rfl
  | cons row rows ih =>
    obtain ⟨record, hrecord⟩ := Option.isSome_iff_exists.1 (h row mem_cons_self)
    have hrest := ih fun r hr => h r (mem_cons_of_mem row hr)
    simp only [emitRows, hrecord, hrest, Option.map_some, map_cons, recordOf, Option.getD_some]

theorem mem_of_mem_afterImages {A : Type} {a : A} {rows : List A} (h : a ∈ afterImages rows) : a ∈ rows := by
  fun_induction afterImages rows with
  | case1 before after rest ih =>
    rcases mem_cons.1 h with rfl | h
    · exact mem_cons_of_mem _ mem_cons_self
    · exact mem_cons_of_mem _ (mem_cons_of_mem _ (ih h))
  | case2 => cases h

theorem map_updatesOf (g : MySQLRow W → Record V) (rows : List (MySQLRow W)) :
    (updatesOf rows).map (opChange g s)
      = (afterImages rows).map (fun row => ⟨s, .update, g row, none⟩) := by
  induction rows using afterImages.induct with
  | case1 before after rest ih =>
    rw [updatesOf, map_cons, ih]
    rfl
  | case2 rows hrows => simp [updatesOf, afterImages]

/-- An event of the table emits the changes of its operations. -/
theorem FilterRowsEvent_ops (hs : f.streams table = some s)
    (htable : e.table = table) (hview : e.view = view)
    (hrows : ∀ row ∈ e.rows, (convertRowToMap f row view).isSome = true) :
    FilterRowsEvent f e = some (e.ops.map (opChange (recordOf f view) s)) := by
  unfold FilterRowsEvent RowsEvent.ops
  rw [htable, hs, hview]
  cases e.eventType with
  | writeRows | deleteRows =>
    dsimp only
    rw [emitRows_eq _ hrows, map_map]
    rfl
  | updateRows =>
    dsimp only
    rw [emitRows_eq _ fun row hrow => hrows row (mem_of_mem_afterImages hrow), map_updatesOf]
  | other => rfl

theorem processEvents_logged [DecidableEq S] (hs : f.streams table = some s)
    (h : Logs f s table view ops events) :
    ∃ changes, processEvents f events = some changes ∧
      changesOf s changes = ops.map (opChange (recordOf f view) s) := by
  induction h with
  | nil => exact ⟨[], rfl, rfl⟩
  | event e htable hview hrows h ih =>
    obtain ⟨changes, hrun, hchanges⟩ := ih
    refine ⟨e.ops.map (opChange (recordOf f view) s) ++ changes, ?_, ?_⟩
    · simp only [processEvents, FilterRowsEvent_ops hs htable hview hrows, hrun, Option.map_some]
    · rw [changesOf_append, changesOf_ops, hchanges, map_append]
  | other e changes he hother h ih =>
    obtain ⟨rest, hrun, hchanges⟩ := ih
    refine ⟨changes ++ rest, ?_, ?_⟩
    · simp only [processEvents, he, hrun, Option.map_some]
    · rw [changesOf_append, changesOf_other hother, hchanges]
      rfl

end Binlog

/-! ### Convergence -/

def Pgoutput.Relation.columnNames (rel : Pgoutput.Relation) : List String :=
  rel.columns.map Pgoutput.RelationColumn.name

def Binlog.columnNames (view : List Binlog.ColumnView) : List String :=
  view.map Binlog.ColumnView.name

/-- **When the changes of a table give the table.**  For both drivers, the messages of a
history are processed without an error, and the destination equals the table after any
number of the changes exactly when no update changes a row's olake id and no new row
has the olake id of another row. -/
theorem replication_converges_iff [DecidableEq S] (W : Type) [DecidableEq W] (std : Stdlib V)
    (cfg : StreamConfig) (hkey : cfg.sourceDefinedPrimaryKey ≠ []) (dedupInserts : Bool) (s : S) :
    (∀ (f : Pgoutput.ChangeFilter S V) (rel : Pgoutput.Relation) (r : Pgoutput.Replicator)
      (ops : List (Op Pgoutput.PgRow)) (msgs : List Pgoutput.LogicalMsg),
      let key : Pgoutput.PgRow → Pgoutput.PgRow :=
        primaryKeyOf rel.columnNames cfg.sourceDefinedPrimaryKey
      ∀ (t : Pgoutput.PgRow → Option Pgoutput.PgRow) (m : String → Option (Record V)),
      f.tables (rel.namespaceName ++ "." ++ rel.relationName) = some s →
      Pgoutput.Announces f s rel r ops msgs → ValidRun key t ops →
      Converged std cfg (Pgoutput.recordOf f rel) key t m →
      ∃ changes, Pgoutput.processMessages f r msgs = some changes ∧
        ((∀ n, Converged std cfg (Pgoutput.recordOf f rel) key (runAll key t (ops.take n))
            (destinationAfter std cfg dedupInserts m ((changesOf s changes).take n))) ↔
          SameIdentityRun key (olakeIDOf std cfg (Pgoutput.recordOf f rel)) t ops)) ∧
    (∀ (f : Binlog.ChangeFilter S V W) (table : String) (view : List Binlog.ColumnView)
      (ops : List (Op (Binlog.MySQLRow W))) (events : List (Binlog.RowsEvent W)),
      let key : Binlog.MySQLRow W → Binlog.MySQLRow W :=
        primaryKeyOf (Binlog.columnNames view) cfg.sourceDefinedPrimaryKey
      ∀ (t : Binlog.MySQLRow W → Option (Binlog.MySQLRow W)) (m : String → Option (Record V)),
      f.streams table = some s → Binlog.Logs f s table view ops events → ValidRun key t ops →
      Converged std cfg (Binlog.recordOf f view) key t m →
      ∃ changes, Binlog.processEvents f events = some changes ∧
        ((∀ n, Converged std cfg (Binlog.recordOf f view) key (runAll key t (ops.take n))
            (destinationAfter std cfg dedupInserts m ((changesOf s changes).take n))) ↔
          SameIdentityRun key (olakeIDOf std cfg (Binlog.recordOf f view)) t ops)) := by
  refine ⟨?_, ?_⟩
  · intro f rel r ops msgs key t m hs hmsgs hv hstart
    obtain ⟨changes, hrun, hchanges⟩ := Pgoutput.processMessages_announced hs hmsgs
    refine ⟨changes, hrun, ?_⟩
    rw [hchanges]
    exact converged_iff hkey dedupInserts hstart hv
  · intro f table view ops events key t m hs hevents hv hstart
    obtain ⟨changes, hrun, hchanges⟩ := Binlog.processEvents_logged hs hevents
    refine ⟨changes, hrun, ?_⟩
    rw [hchanges]
    exact converged_iff hkey dedupInserts hstart hv

/-! ### A table with the columns `id` and `name` -/

section Example

/-- Strings are printed as they are; md5 is not needed for a single key. -/
def plainStdlib : Stdlib String where
  sprint v := v.getD "<nil>"
  md5 str := str

def idKey : StreamConfig where
  sourceDefinedPrimaryKey := ["id"]
  selectedColumns := none
  resolveUpsertOp := false

/-- Every byte is a character. -/
def bytesToString (bytes : List UInt8) : String :=
  String.ofList (bytes.map (fun b => Char.ofNat b.toNat))

def pgFilter : Pgoutput.ChangeFilter Unit String where
  tables _ := some ()
  oidToString _ := "text"
  converter bytes _ := some (some (bytesToString bytes))
  ofString str := str

def people : Pgoutput.Relation where
  relationID := 7
  namespaceName := "public"
  relationName := "people"
  columns := [⟨"id", 25⟩, ⟨"name", 25⟩]

def pgKnows : Pgoutput.Replicator where
  relationIDToMsgMap := fun _ => some people
  transactionCompleted := true

/-- The row with id 1 or 2 (the bytes 49 and 50) and a name of one letter. -/
def person (id name : UInt8) : Pgoutput.PgRow := [some [id], some [name]]

def binlogFilter : Binlog.ChangeFilter Unit String Unit where
  streams _ := some ()
  decode bytes _ := some bytes
  converter val _ :=
    match val with
    | some (.string bytes) => some (some (bytesToString bytes))
    | _ => some none

def peopleView : List Binlog.ColumnView :=
  [⟨"id", "CHAR", none, none, 0⟩, ⟨"name", "CHAR", none, none, 0⟩]

def binlogPerson (id name : UInt8) : Binlog.MySQLRow Unit := [some (.string [id]), some (.string [name])]

theorem converged_empty {Key : Type} (std : Stdlib V) (cfg : StreamConfig)
    (recordOf : Row → Record V) (key : Row → Key) :
    Converged std cfg recordOf key (fun _ => none) (fun _ => none) := by
  refine ⟨fun i x => ?_, fun r hr => ?_⟩
  · constructor
    · nofun
    · rintro ⟨r, hr, -⟩
      cases hr
  · cases hr

def personKey : Pgoutput.PgRow → Pgoutput.PgRow := primaryKeyOf people.columnNames ["id"]

def movedKey : List (Op Pgoutput.PgRow) :=
  [.insert (person 49 97), .update (person 49 97) (person 50 97)]

/-- Only the row with its new key is left in the table. -/
theorem live_movedKey
    (hr : r ∈ Live personKey (runAll personKey (fun _ => none) movedKey)) : r = person 50 97 := by
  have hv : Op.Valid personKey (Op.apply personKey (fun _ => none) (.insert (person 49 97)))
      (.update (person 49 97) (person 50 97)) := ⟨rfl, .inr rfl⟩
  have hlive : Live personKey (runAll personKey (fun _ => none) movedKey) = _ := live_update hv
  rw [hlive, live_insert rfl] at hr
  rcases hr with hr | ⟨hr | hr, hne⟩
  · exact hr
  · exact absurd hr hne
  · cases hr

/-- A key that moves: the row stays at the destination under its old id. -/
theorem moved_key_stays :
    ∃ (msgs : List Pgoutput.LogicalMsg) (changes : List (CDCChange Unit String)),
      Pgoutput.Announces pgFilter () people pgKnows movedKey msgs ∧
      ValidRun personKey (fun _ => none) movedKey ∧
      Pgoutput.processMessages pgFilter pgKnows msgs = some changes ∧
      destinationAfter plainStdlib idKey true (fun _ => none) (changesOf () changes) "1"
        = some [("id", some "1"), ("name", some "a")] ∧
      ¬ Converged plainStdlib idKey (Pgoutput.recordOf pgFilter people) personKey
        (runAll personKey (fun _ => none) movedKey)
        (destinationAfter plainStdlib idKey true (fun _ => none) (changesOf () changes)) := by
  refine ⟨[.insert 7 (some (Pgoutput.fullTuple (person 49 97))),
      .update 7 (some (Pgoutput.fullTuple (person 49 97))) (some (Pgoutput.fullTuple (person 50 97)))],
    _, ?_, ?_, rfl, rfl, ?_⟩
  · refine .insert _ rfl rfl (.update _ _ _ ?_ rfl rfl (.nil _))
    exact .value _ _ (.value _ _ .nil)
  · exact ⟨rfl, ⟨rfl, .inr rfl⟩, trivial⟩
  · intro h
    obtain ⟨r, hr, hid, -⟩ := (h.image_iff "1" [("id", some "1"), ("name", some "a")]).1 rfl
    rw [live_movedKey hr] at hid
    exact absurd hid (by decide)

def renamed {A : Type} (old new : A) : List (Op A) := [.insert old, .update old new, .delete new]

theorem sameIdentityRun_renamed {A Key : Type} [DecidableEq Key] {key : A → Key} {id : A → String}
    {old new : A} (hid : id old = id new) :
    SameIdentityRun key id (fun _ => none) (renamed old new) := by
  refine ⟨?_, hid, trivial, trivial⟩
  nofun

/-- Both drivers bring an insert, an update and a delete with one key to the destination. -/
theorem replication_converges_renamed :
    (∃ changes, Pgoutput.processMessages pgFilter pgKnows
        [.beginTransaction, .insert 7 (some (Pgoutput.fullTuple (person 49 97))),
          .update 7 (some (Pgoutput.fullTuple (person 49 97)))
            (some [⟨.toast, none⟩, ⟨.text, some [98]⟩]),
          .delete 7 (some (Pgoutput.fullTuple (person 49 98))), .commit] = some changes ∧
      ∀ n, Converged plainStdlib idKey (Pgoutput.recordOf pgFilter people) personKey
        (runAll personKey (fun _ => none) ((renamed (person 49 97) (person 49 98)).take n))
        (destinationAfter plainStdlib idKey true (fun _ => none) ((changesOf () changes).take n))) ∧
    ∃ changes, Binlog.processEvents binlogFilter
        [⟨"people", .writeRows, peopleView, [binlogPerson 49 97]⟩,
          ⟨"people", .updateRows, peopleView, [binlogPerson 49 97, binlogPerson 49 98]⟩,
          ⟨"people", .deleteRows, peopleView, [binlogPerson 49 98]⟩] = some changes ∧
      ∀ n, Converged plainStdlib idKey (Binlog.recordOf binlogFilter peopleView)
        (primaryKeyOf (Binlog.columnNames peopleView) ["id"])
        (runAll (primaryKeyOf (Binlog.columnNames peopleView) ["id"]) (fun _ => none)
          ((renamed (binlogPerson 49 97) (binlogPerson 49 98)).take n))
        (destinationAfter plainStdlib idKey true (fun _ => none) ((changesOf () changes).take n)) := by
  obtain ⟨hpg, hbinlog⟩ := replication_converges_iff Unit plainStdlib idKey (cons_ne_nil "id" [])
    true ()
  refine ⟨?_, ?_⟩
  · have hmsgs : Pgoutput.Announces pgFilter () people pgKnows
        (renamed (person 49 97) (person 49 98)) _ :=
      .other .beginTransaction [] rfl (nofun)
        (.insert _ rfl rfl (.update _ _ [⟨.toast, none⟩, ⟨.text, some [98]⟩]
          (.toast _ (.value _ (some [98]) .nil)) rfl rfl
          (.delete _ rfl rfl (.other .commit [] rfl (nofun) (.nil _)))))
    obtain ⟨changes, hrun, hiff⟩ := hpg pgFilter people pgKnows _ _ (fun _ => none) (fun _ => none)
      rfl hmsgs ⟨rfl, ⟨rfl, .inl rfl⟩, rfl, trivial⟩ (converged_empty _ _ _ _)
    exact ⟨changes, hrun, hiff.2 (sameIdentityRun_renamed (by decide))⟩
  · have hevents : Binlog.Logs binlogFilter () "people" peopleView
        (renamed (binlogPerson 49 97) (binlogPerson 49 98)) _ :=
      .event ⟨"people", .writeRows, peopleView, [binlogPerson 49 97]⟩ rfl rfl (by decide)
        (.event ⟨"people", .updateRows, peopleView, [binlogPerson 49 97, binlogPerson 49 98]⟩ rfl rfl
          (by decide)
          (.event ⟨"people", .deleteRows, peopleView, [binlogPerson 49 98]⟩ rfl rfl (by decide) .nil))
    obtain ⟨changes, hrun, hiff⟩ := hbinlog binlogFilter "people" peopleView _ _ (fun _ => none)
      (fun _ => none) rfl hevents ⟨rfl, ⟨rfl, .inl rfl⟩, rfl, trivial⟩ (converged_empty _ _ _ _)
    exact ⟨changes, hrun, hiff.2 (sameIdentityRun_renamed (by decide))⟩

end Example

end Olake
