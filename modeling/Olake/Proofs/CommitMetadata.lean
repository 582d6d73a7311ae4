/-
What merging commits into the metadata of a table keeps.

Both merges are compared with one reading of the metadata (`Reading`), in which a
position is either a map from keys to positions or a plain text.  On readings a stream
commit lays its position over the stored one (`Position.over`), and the laws of that
operation are those of the left-biased union of maps.

The two merges part in one place (`recordOnce`, `recordAgain`): a backfill thread that
is recorded already is recorded again by the Iceberg writer.
-/
import Olake.Model.CommitMetadata

namespace Olake.CommitMetadata

open List Function Option

variable {Text Key Val : Type} [DecidableEq Key]

/-! ### Positions -/

/-- A stored position: one under each key of a JSON object, or a single one. -/
inductive Position (Text Key Val : Type) where
  | keyed (positions : JsonObject Key Val)
  | plain (text : Text)

def Position.at? (key : Key) : Position Text Key Val → Option Val
  | .keyed positions => positions.lookup key
  | .plain _ => none

/-- A new position over the one in place. -/
def Position.over (next : Position Text Key Val) :
    Option (Position Text Key Val) → Position Text Key Val
  | some (.keyed current) =>
    match next with
    | .keyed positions => .keyed (positions ∪ current)
    | .plain text => .plain text
  | _ => next

theorem union_self (a : JsonObject Key Val) : a ∪ a = a := by
  apply Finmap.ext_lookup
  intro k
  by_cases hk : k ∈ a
  · rw [Finmap.lookup_union_left hk]
  · rw [Finmap.lookup_union_right hk]

theorem Position.over_idem (next : Position Text Key Val) (current : Option (Position Text Key Val)) :
    next.over (some (next.over current)) = next.over current := by
  cases next with
  | plain text => rcases current with _ | _ | _ <;> rfl
  | keyed positions =>
    rcases current with _ | ⟨stored⟩ | ⟨text⟩
    · exact congrArg Position.keyed (union_self positions)
    · refine congrArg Position.keyed ?_
      rw [← Finmap.union_assoc, union_self]
    · exact congrArg Position.keyed (union_self positions)

theorem Position.over_comm (h : a.Disjoint b) (current : Option (Position Text Key Val)) :
    (keyed b : Position Text Key Val).over (some ((keyed a).over current)) =
      (keyed a).over (some ((keyed b).over current)) := by
  have hcomm : b ∪ a = a ∪ b := (Finmap.union_comm_of_disjoint h).symm
  rcases current with _ | ⟨stored⟩ | ⟨text⟩
  · exact congrArg Position.keyed hcomm
  · refine congrArg Position.keyed ?_
    rw [← Finmap.union_assoc, hcomm, Finmap.union_assoc]
  · exact congrArg Position.keyed hcomm

theorem Position.at?_over (hk : k ∉ a) (h : current.at? k = some v) :
    ((keyed a : Position Text Key Val).over (some current)).at? k = some v := by
  cases current with
  | plain text => cases h
  | keyed stored =>
    change (a ∪ stored).lookup k = some v
    rw [Finmap.lookup_union_right hk]
    exact h

/-! ### Readings -/

/-- The metadata of a table, however it is stored. -/
@[ext] structure Reading (Text Key Val : Type) where
  id : Option Text
  position : Option (Position Text Key Val)
  committedIDs : List Text
  dedupInserts : Option Bool

section Readings

variable (J : JsonText Text Key Val)

def JsonText.position (text : Text) : Position Text Key Val :=
  match J.object text with
  | some o => .keyed o
  | none => .plain text

/-- The metadata in a parquet file. -/
def MetadataState.read (m : MetadataState Text Text) : Reading Text Key Val where
  id := m.id
  position := m.state.map J.position
  committedIDs := m.fullRefreshCommittedIDs
  dedupInserts := m.dedupInserts

def Node.text? : Node Text → Option Text
  | .text value => some value
  | _ => none

def Node.bool? : Node Text → Option Bool
  | .bool value => some value
  | _ => none

/-- The metadata in the property of an Iceberg table. -/
def readNode (rootNode : ObjectNode Text) : Reading Text Key Val where
  id := (rootNode .id).bind Node.text?
  position := ((rootNode .state).bind Node.text?).map J.position
  committedIDs := committedIds rootNode
  dedupInserts := (rootNode .dedupInserts).bind Node.bool?

variable {J}

omit [DecidableEq Key] in
theorem position_keyed (h : J.object t = some o) : J.position t = .keyed o := by
  simp [JsonText.position, h]

omit [DecidableEq Key] in
theorem position_plain (h : J.object t = none) : J.position t = .plain t := by
  simp [JsonText.position, h]

/-- What either merge writes for a position: the text as it came, or the text of the
union. -/
theorem position_merged (write : JsonObject Key Val → Text) (hwrite : ∀ o, J.object (write o) = some o)
    (current : Option Text) (next : Text) :
    J.position (match current.bind J.object, J.object next with
      | some currentState, some nextState => write (nextState ∪ currentState)
      | _, _ => next) = (J.position next).over (current.map J.position) := by
  cases current with
  | none =>
    generalize hn : J.object next = n
    cases n <;> rfl
  | some text =>
    simp only [bind_some, map_some]
    generalize hn : J.object next = n
    generalize hc : J.object text = c
    cases c with
    | none => rw [position_plain hc]; cases n <;> rfl
    | some currentState =>
      rw [position_keyed hc]
      cases n with
      | none => rw [position_plain hn]; rfl
      | some nextState => rw [position_keyed (hwrite _), position_keyed hn]; rfl

def Payload.commit (p : Payload J) (r : Reading Text Key Val) : Reading Text Key Val where
  id := some p.threadID
  position := some ((J.position p.state).over r.position)
  committedIDs := r.committedIDs
  dedupInserts := if p.dedupInserts.isSome then p.dedupInserts else r.dedupInserts

def Reading.backfilled (r : Reading Text Key Val) (committedIDs : List Text) : Reading Text Key Val :=
  { r with committedIDs := committedIDs, dedupInserts := some true }

theorem read_mergeStreamMetadataState (m : MetadataState Text Text) (p : Payload J) :
    (mergeStreamMetadataState J m p.metadataState).read J = p.commit (m.read J) := by
  obtain ⟨threadID, state, flag, -⟩ := p
  have hmerge : J.position (mergeState J m.state state) =
      (J.position state).over (m.state.map J.position) :=
    position_merged J.marshal J.object_marshal m.state state
  cases flag <;>
    exact Reading.ext rfl (congrArg some hmerge) rfl rfl

theorem mergeEntry_of_none (h : parseJSONObject J (some entry.2) = none) :
    mergeEntry J rootNode entry = Function.update rootNode entry.1 (some entry.2) := by
  simp [mergeEntry, h]

theorem mergeEntry_state (rootNode : ObjectNode Text) (next : Text) :
    ∃ text, mergeEntry J rootNode (.state, .text next) =
        Function.update rootNode .state (some (.text text)) ∧
      J.position text =
        (J.position next).over (((rootNode .state).bind Node.text?).map J.position) := by
  refine ⟨_, ?_, position_merged J.toText J.object_toText _ next⟩
  have hparse : parseJSONObject J (rootNode .state) =
      ((rootNode .state).bind Node.text?).bind J.object := by
    rcases rootNode .state with _ | _ | _ | _ <;> rfl
  unfold mergeEntry
  simp only [hparse]
  change (match J.object next, ((rootNode .state).bind Node.text?).bind J.object with
    | some incomingStateValue, some storedStateValue => _
    | _, _ => _) = _
  generalize J.object next = n
  generalize ((rootNode .state).bind Node.text?).bind J.object = c
  cases n <;> cases c <;> rfl

theorem readNode_updateJsonState (rootNode : ObjectNode Text) (writerThread : Text) (p : Payload J) :
    readNode J (updateJsonState J rootNode writerThread (some p.metadataState)) =
      p.commit (readNode J rootNode) := by
  obtain ⟨threadID, state, flag, hplain⟩ := p
  set root := update rootNode Field.id (some (Node.text writerThread)) with hroot
  have hid : mergeEntry J root (.id, .text threadID) =
      update root .id (some (.text threadID)) := mergeEntry_of_none hplain
  obtain ⟨text, hstate, htext⟩ := mergeEntry_state (J := J)
    (update root Field.id (some (Node.text threadID))) state
  have hkept : update root Field.id (some (Node.text threadID)) .state = rootNode .state := by
    simp [hroot]
  rw [hkept] at htext
  cases flag with
  | none =>
    have hfields : mergePayloadIntoRoot J root
        (SetMetadataState state threadID).fields = update
          (update root .id (some (.text threadID))) .state (some (.text text)) := by
      rw [← hstate, ← hid]
      rfl
    change readNode J (mergePayloadIntoRoot J root (SetMetadataState state threadID).fields) = _
    rw [hfields]
    exact Reading.ext rfl (congrArg some htext) rfl rfl
  | some flag =>
    have hfields : mergePayloadIntoRoot J root
        (SetDedupInserts (SetMetadataState state threadID) (some flag)).fields = update
          (update (update root .id (some (.text threadID))) .state
            (some (.text text))) .dedupInserts (some (.bool flag)) := by
      rw [← hstate, ← hid]
      rfl
    change readNode J (mergePayloadIntoRoot J root
      (SetDedupInserts (SetMetadataState state threadID) (some flag)).fields) = _
    rw [hfields]
    exact Reading.ext rfl (congrArg some htext) rfl rfl

/-- The payloads carry positions under keys of their own. -/
def Payload.DisjointKeys (p q : Payload J) : Prop :=
  ∃ a b, J.object p.state = some a ∧ J.object q.state = some b ∧ a.Disjoint b

theorem Payload.position_commit_comm {p q : Payload J} (h : p.DisjointKeys q)
    (r : Reading Text Key Val) :
    (q.commit (p.commit r)).position = (p.commit (q.commit r)).position := by
  obtain ⟨a, b, hp, hq, hdisjoint⟩ := h
  simp only [Payload.commit, position_keyed hp, position_keyed hq]
  exact congrArg some (Position.over_comm hdisjoint r.position)

theorem Payload.commit_idem (p : Payload J) (r : Reading Text Key Val) :
    p.commit (p.commit r) = p.commit r := by
  refine Reading.ext rfl (congrArg some (Position.over_idem _ _)) rfl ?_
  obtain ⟨threadID, state, flag, -⟩ := p
  cases flag <;> rfl

def Reading.at? (r : Reading Text Key Val) (key : Key) : Option Val :=
  r.position.bind (Position.at? key)

end Readings

/-! ### Sequences of commits -/

section Commits

variable {J : JsonText Text Key Val} (record : List Text → Text → List Text)

/-- A commit on readings; `record` is how the thread of a backfill is recorded. -/
def Commit.onReading (r : Reading Text Key Val) :
    Commit J → Reading Text Key Val
  | .stream _ payload => payload.commit r
  | .backfill threadID => r.backfilled (record r.committedIDs threadID)

/-- How parquet records a thread. -/
def recordOnce [DecidableEq Text] (committedIDs : List Text) (threadID : Text) : List Text :=
  if threadID ∈ committedIDs then committedIDs else committedIDs ++ [threadID]

/-- How the Iceberg writer records a thread. -/
def recordAgain (committedIDs : List Text) (threadID : Text) : List Text :=
  committedIDs ++ [threadID]

variable (cs : List (Commit J))

theorem read_foldl_parquet [DecidableEq Text] (m : MetadataState Text Text) :
    (cs.foldl Commit.parquet m).read J = cs.foldl (Commit.onReading recordOnce) (m.read J) := by
  induction cs generalizing m with
  | nil => rfl
  | cons c rest ih =>
    rw [foldl_cons, ih]
    cases c with
    | stream writerThread payload =>
      exact congrArg (rest.foldl _) (read_mergeStreamMetadataState m payload)
    | backfill threadID => rfl

theorem readNode_foldl_iceberg (rootNode : ObjectNode Text) :
    readNode J (cs.foldl Commit.iceberg rootNode) =
      cs.foldl (Commit.onReading recordAgain) (readNode J rootNode) := by
  induction cs generalizing rootNode with
  | nil => rfl
  | cons c rest ih =>
    rw [foldl_cons, ih]
    cases c with
    | stream writerThread payload =>
      exact congrArg (rest.foldl _) (readNode_updateJsonState rootNode writerThread payload)
    | backfill threadID => rfl

/-- The commit carries no position, or positions under other keys than `key`. -/
def Commit.Leaves (key : Key) : Commit J → Prop
  | .stream _ payload => ∃ positions, J.object payload.state = some positions ∧ key ∉ positions
  | .backfill _ => True

theorem at?_foldl_onReading (hcs : ∀ c ∈ cs, c.Leaves key)
    (h : r.at? key = some v) : (cs.foldl (Commit.onReading record) r).at? key = some v := by
  induction cs generalizing r with
  | nil => exact h
  | cons c rest ih =>
    apply ih (fun c' hc' => hcs c' (mem_cons_of_mem _ hc'))
    have hleaves := hcs c mem_cons_self
    cases c with
    | backfill threadID => exact h
    | stream writerThread payload =>
      obtain ⟨positions, hobject, hkey⟩ := hleaves
      obtain ⟨stored, hstored, hat⟩ := bind_eq_some_iff.1 h
      change ((J.position payload.state).over r.position).at? key = some v
      rw [position_keyed hobject, hstored]
      exact Position.at?_over hkey hat

/-- The threads whose backfill commits are in the sequence. -/
def backfillThreads : List Text :=
  cs.filterMap (fun c =>
    match c with
    | .stream _ _ => none
    | .backfill threadID => some threadID)

theorem committedIDs_foldl_onReading (r : Reading Text Key Val) :
    (cs.foldl (Commit.onReading record) r).committedIDs =
      (backfillThreads cs).foldl record r.committedIDs := by
  induction cs generalizing r with
  | nil => rfl
  | cons c rest ih =>
    rw [foldl_cons, ih]
    cases c <;> rfl

theorem foldl_recordAgain (threads ids : List Text) :
    threads.foldl recordAgain ids = ids ++ threads := by
  induction threads generalizing ids with
  | nil => simp
  | cons t rest ih => rw [foldl_cons, ih, recordAgain, append_assoc]; rfl

variable [DecidableEq Text] {ids : List Text}

theorem nodup_recordOnce (h : ids.Nodup) (t : Text) : (recordOnce ids t).Nodup := by
  unfold recordOnce
  split
  · exact h
  · rename_i hnew
    rw [← concat_eq_append, nodup_concat]
    exact ⟨hnew, h⟩

theorem mem_recordOnce : a ∈ recordOnce ids t ↔ a ∈ ids ∨ a = t := by
  unfold recordOnce
  split
  · rename_i hmem
    exact ⟨.inl, fun h => h.elim id (fun heq => heq ▸ hmem)⟩
  · simp

/-- Each thread is recorded once, whether it was before or is by one of the commits. -/
theorem count_foldl_recordOnce (threads : List Text) (h : ids.Nodup)
    (ht : t ∈ ids ∨ t ∈ threads) : (threads.foldl recordOnce ids).count t = 1 := by
  induction threads generalizing ids with
  | nil => exact count_eq_one_of_mem h (ht.resolve_right (not_mem_nil))
  | cons a rest ih =>
    apply ih (nodup_recordOnce h a)
    rcases ht with ht | ht
    · exact .inl (mem_recordOnce.2 (.inl ht))
    · rcases mem_cons.1 ht with rfl | ht
      · exact .inl (mem_recordOnce.2 (.inr rfl))
      · exact .inr ht

/-- The two ways of recording agree as long as no thread comes twice. -/
theorem foldl_onReading_eq (h : (r.committedIDs ++ backfillThreads cs).Nodup) :
    cs.foldl (Commit.onReading recordAgain) r = cs.foldl (Commit.onReading recordOnce) r := by
  induction cs generalizing r with
  | nil => rfl
  | cons c rest ih =>
    rw [foldl_cons, foldl_cons]
    cases c with
    | stream writerThread payload => exact ih h
    | backfill threadID =>
      have hnew : threadID ∉ r.committedIDs := by
        intro hmem
        exact (nodup_append.1 h).2.2 _ hmem threadID mem_cons_self rfl
      have hsame : Commit.onReading recordAgain r (.backfill threadID : Commit J) =
          Commit.onReading recordOnce r (.backfill threadID : Commit J) := by
        simp [Commit.onReading, recordAgain, recordOnce, hnew]
      rw [← hsame]
      apply ih
      change (r.committedIDs ++ [threadID] ++ backfillThreads rest).Nodup
      rw [append_assoc]
      exact h

omit [DecidableEq Key] [DecidableEq Text] in
theorem addCommittedID_idem [DecidableEq ID] (threadID : ID) (m : MetadataState ID Text) :
    addCommittedID (addCommittedID m threadID) threadID =
      addCommittedID m threadID := by
  have hmem : threadID ∈ (addCommittedID m threadID).fullRefreshCommittedIDs :=
    mem_recordOnce.2 (.inr rfl)
  generalize hm' : addCommittedID m threadID = m' at hmem ⊢
  have hflag : m'.dedupInserts = some true := hm' ▸ rfl
  cases m'
  simp_all [addCommittedID]

/-- **Merging commits loses nothing**, from any metadata and for any commits, in both
destinations.

The positions that every commit of the sequence leaves alone are kept.  A thread of a
backfill stays recorded once; the Iceberg writer needs that no thread comes twice.  A
commit that is merged again changes nothing.  Payloads with keys of their own can come
in either order, except for the fields that name the later one.  And the two
destinations end with the same metadata. -/
theorem commits_lose_nothing (m : MetadataState Text Text) (rootNode : ObjectNode Text)
    (cs : List (Commit J)) :
    (∀ key v, (∀ c ∈ cs, c.Leaves key) →
      ((m.read J).at? key = some v → ((cs.foldl Commit.parquet m).read J).at? key = some v) ∧
      ((readNode J rootNode).at? key = some v →
        (readNode J (cs.foldl Commit.iceberg rootNode)).at? key = some v)) ∧
    (m.fullRefreshCommittedIDs.Nodup →
      ∀ t, t ∈ m.fullRefreshCommittedIDs ∨ t ∈ backfillThreads cs →
        (cs.foldl Commit.parquet m).fullRefreshCommittedIDs.count t = 1) ∧
    ((committedIds rootNode ++ backfillThreads cs).Nodup →
      ∀ t, t ∈ committedIds rootNode ∨ t ∈ backfillThreads cs →
        (committedIds (cs.foldl Commit.iceberg rootNode)).count t = 1) ∧
    (∀ c : Commit J, (c.parquet (c.parquet m)).read J = (c.parquet m).read J) ∧
    (∀ w (p : Payload J), readNode J ((Commit.stream w p).iceberg ((Commit.stream w p).iceberg rootNode)) =
      readNode J ((Commit.stream w p).iceberg rootNode)) ∧
    (∀ w w' (p q : Payload J), p.DisjointKeys q →
      (((Commit.stream w' q).parquet ((Commit.stream w p).parquet m)).read J).position =
        (((Commit.stream w p).parquet ((Commit.stream w' q).parquet m)).read J).position ∧
      (readNode J ((Commit.stream w' q).iceberg ((Commit.stream w p).iceberg rootNode))).position =
        (readNode J ((Commit.stream w p).iceberg ((Commit.stream w' q).iceberg rootNode))).position) ∧
    (m.read J = readNode J rootNode → (committedIds rootNode ++ backfillThreads cs).Nodup →
      (cs.foldl Commit.parquet m).read J = readNode J (cs.foldl Commit.iceberg rootNode)) := by
  refine ⟨fun key v hcs => ⟨fun h => ?_, fun h => ?_⟩, fun hnodup t ht => ?_, fun hnodup t ht => ?_,
    fun c => ?_, fun w p => ?_, fun w w' p q hdisjoint => ⟨?_, ?_⟩, fun hsame hnodup => ?_⟩
  · rw [read_foldl_parquet]
    exact at?_foldl_onReading recordOnce cs hcs h
  · rw [readNode_foldl_iceberg]
    exact at?_foldl_onReading recordAgain cs hcs h
  · have hids : (cs.foldl Commit.parquet m).fullRefreshCommittedIDs =
        (backfillThreads cs).foldl recordOnce m.fullRefreshCommittedIDs := by
      have hread := congrArg Reading.committedIDs (read_foldl_parquet cs m)
      rw [committedIDs_foldl_onReading] at hread
      exact hread
    rw [hids]
    exact count_foldl_recordOnce _ hnodup ht
  · have hids : committedIds (cs.foldl Commit.iceberg rootNode) =
        committedIds rootNode ++ backfillThreads cs := by
      have hread := congrArg Reading.committedIDs (readNode_foldl_iceberg cs rootNode)
      rw [committedIDs_foldl_onReading, foldl_recordAgain] at hread
      exact hread
    rw [hids]
    exact count_eq_one_of_mem hnodup (mem_append.2 ht)
  · cases c with
    | backfill threadID => exact congrArg (MetadataState.read J) (addCommittedID_idem threadID m)
    | stream w p =>
      simp only [Commit.parquet, read_mergeStreamMetadataState]
      exact p.commit_idem _
  · simp only [Commit.iceberg, readNode_updateJsonState]
    exact p.commit_idem _
  · simp only [Commit.parquet, read_mergeStreamMetadataState]
    exact Payload.position_commit_comm hdisjoint _
  · simp only [Commit.iceberg, readNode_updateJsonState]
    exact Payload.position_commit_comm hdisjoint _
  · rw [read_foldl_parquet, readNode_foldl_iceberg, hsame]
    exact (foldl_onReading_eq cs hnodup).symm

end Commits

/-- Objects with numbers, or plain words. -/
abbrev Words := JsonObject String Nat ⊕ String

/-- How either library reads and writes them. -/
def wordsAndObjects : JsonText Words String Nat where
  object := Sum.getLeft?
  marshal := Sum.inl
  toText := Sum.inl
  object_marshal := fun _ => rfl
  object_toText := fun _ => rfl

/-- The commit of a thread with a position under one key. -/
def cursorCommit (threadID cursor : String) (value : Nat) : Payload wordsAndObjects :=
  ⟨.inr threadID, .inl (Finmap.singleton cursor value), some false, rfl⟩

/-- Two cursors and a chunk are committed over a third cursor and another chunk: the
third cursor stays, each chunk is recorded once, the cursors commute, and the two
destinations end with the same metadata. -/
theorem commits_lose_nothing_cursors :
    let stored : Words := .inl (Finmap.singleton "updated_at" 5)
    let m : MetadataState Words Words := ⟨none, some stored, [.inr "chunk0"], none⟩
    let rootNode : ObjectNode Words := fun field =>
      match field with
      | .state => some (.text stored)
      | .fullRefreshCommittedIDs => some (.array [.inr "chunk0"])
      | _ => none
    let p := cursorCommit "t" "id" 7
    let q := cursorCommit "u" "version" 2
    let first : Commit wordsAndObjects := .stream (.inr "t") p
    let second : Commit wordsAndObjects := .stream (.inr "u") q
    let cs := [first, .backfill (.inr "chunk1"), second]
    (((cs.foldl Commit.parquet m).read wordsAndObjects).at? "updated_at" = some 5 ∧
      (readNode wordsAndObjects (cs.foldl Commit.iceberg rootNode)).at? "updated_at" = some 5) ∧
    (cs.foldl Commit.parquet m).fullRefreshCommittedIDs.count (.inr "chunk1") = 1 ∧
    (committedIds (cs.foldl Commit.iceberg rootNode)).count (.inr "chunk0") = 1 ∧
    ((second.parquet (first.parquet m)).read wordsAndObjects).position =
      ((first.parquet (second.parquet m)).read wordsAndObjects).position ∧
    (cs.foldl Commit.parquet m).read wordsAndObjects =
      readNode wordsAndObjects (cs.foldl Commit.iceberg rootNode) := by
  intro stored m rootNode p q first second cs
  obtain ⟨hkept, hparquet, hiceberg, -, -, hcomm, hsame⟩ := commits_lose_nothing m rootNode cs
  have hleaves : ∀ c ∈ cs, c.Leaves "updated_at" := by
    intro c hc
    rcases mem_cons.1 hc with rfl | hc
    · exact ⟨_, rfl, by simp⟩
    rcases mem_cons.1 hc with rfl | hc
    · exact trivial
    rw [mem_singleton.1 hc]
    exact ⟨_, rfl, by simp⟩
  have hdisjoint : p.DisjointKeys q := ⟨_, _, rfl, rfl, by simp [Finmap.Disjoint]⟩
  have hnodup : (committedIds rootNode ++ backfillThreads cs).Nodup := by decide
  obtain ⟨hp, hi⟩ := hkept "updated_at" 5 hleaves
  exact ⟨⟨hp rfl, hi rfl⟩, hparquet (nodup_singleton _) _ (.inr (mem_singleton_self _)),
    hiceberg hnodup _ (.inl (mem_singleton_self _)), (hcomm _ _ p q hdisjoint).1, hsame rfl hnodup⟩

/-- A position that is not an object takes the place of all that are stored, in both
destinations; and a backfill thread that commits twice is recorded twice in an Iceberg
table. -/
theorem plain_position_replaces :
    let stored : Words := .inl (Finmap.singleton "updated_at" 5)
    let m : MetadataState Words Words := ⟨none, some stored, [], none⟩
    let rootNode : ObjectNode Words :=
      fun field => if field = .state then some (.text stored) else none
    let commit : Commit wordsAndObjects := .stream (.inr "t") ⟨.inr "t", .inr "00000027", none, rfl⟩
    let backfill : Commit wordsAndObjects := .backfill (.inr "chunk")
    (m.read wordsAndObjects).at? "updated_at" = some 5 ∧
    (readNode wordsAndObjects rootNode).at? "updated_at" = some 5 ∧
    ((commit.parquet m).read wordsAndObjects).at? "updated_at" = none ∧
    (readNode wordsAndObjects (commit.iceberg rootNode)).at? "updated_at" = none ∧
    committedIds (backfill.iceberg (backfill.iceberg rootNode)) = [.inr "chunk", .inr "chunk"] := by
  refine ⟨rfl, rfl, rfl, rfl, rfl⟩

end Olake.CommitMetadata
