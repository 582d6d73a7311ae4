/-
What the incremental sync of S3 files processes.

A version of a file that a listing has shown is never passed over: as long as it is in the
bucket, its records are committed, or a later step will still read it.  That step is a new
backfill (`StartsOver`), a chunk that is not committed (`Pending`), or an incremental thread,
for a listed time beyond the cursor (`Later`).  The cursor that counts is the one the next
thread starts from, which may still be in the metadata of the destination (`effective`).

Nothing of that kind holds for versions that no listing has shown.  The cursor is the largest
time of a listing, in seconds, and a file that is uploaded in that second after its key was
listed is not beyond it.  `Noticed` is the condition that this does not happen; the other
conditions of `Ok` are about a process that ends between storing the cursor and the chunks of
a new backfill, and about chunks with the same ID.
-/
import Olake.Lib.Run
import Olake.Model.S3

namespace Olake.S3

open List Function

variable {Key Text : Type}

/-! ### Chunks -/

section Chunks

def totalSize (files : List (FileObject Key Text)) : Nat := files.foldl (fun n file => n + file.Size) 0

def chunkOf (files : List (FileObject Key Text)) : Chunk Key :=
  ⟨files.map FileObject.FileKey, totalSize files⟩

/-- A chunk of several files is not larger than the target. -/
def Fits (files : List (FileObject Key Text)) : Prop :=
  1 < files.length → totalSize files ≤ EffectiveParquetSize

/-- The files so far, in the groups of the chunks and in the current one. -/
def Grouping.Groups (g : Grouping Key) (files : List (FileObject Key Text)) : Prop :=
  ∃ (groups : List (List (FileObject Key Text))) (current : List (FileObject Key Text)),
    groups.flatten ++ current = files ∧ (∀ group ∈ groups, Fits group) ∧
    totalSize current ≤ EffectiveParquetSize ∧
    g = ⟨groups.map chunkOf, current.map FileObject.FileKey, totalSize current⟩

variable {g : Grouping Key} {files : List (FileObject Key Text)}

theorem Grouping.Groups.flushChunk (h : g.Groups files) :
    ∃ groups : List (List (FileObject Key Text)), groups.flatten = files ∧
      (∀ group ∈ groups, Fits group) ∧ g.flushChunk = ⟨groups.map chunkOf, [], 0⟩ := by
  obtain ⟨groups, current, rfl, hfits, hsize, rfl⟩ := h
  cases current with
  | nil => exact ⟨groups, by simp, hfits, rfl⟩
  | cons file rest =>
    refine ⟨groups ++ [file :: rest], by simp, forall_mem_append.2 ⟨hfits, ?_⟩,
      by simp [Grouping.flushChunk, chunkOf]⟩
    exact forall_mem_singleton.2 fun _ => hsize

theorem Grouping.Groups.addFile (h : g.Groups files) (file : FileObject Key Text) :
    (g.addFile file).Groups (files ++ [file]) := by
  obtain ⟨groups, hfiles, hfits, hflush⟩ := h.flushChunk
  unfold Grouping.addFile
  split
  · refine ⟨groups ++ [[file]], [], by simp [hfiles], forall_mem_append.2 ⟨hfits, by simp [Fits]⟩, Nat.zero_le _, ?_⟩
    simp [hflush, chunkOf, totalSize]
  · next hsmall =>
    split
    · exact ⟨groups, [file], by simp [hfiles], hfits, by simp [totalSize]; omega, by simp [hflush, totalSize]⟩
    · next hroom =>
      obtain ⟨groups, current, rfl, hfits, hsize, rfl⟩ := h
      exact ⟨groups, current ++ [file], by simp, hfits, by simpa [totalSize] using hroom, by simp [totalSize]⟩

variable (files) in
theorem groups_foldl : (files.foldl Grouping.addFile ⟨[], [], 0⟩).Groups files := by
  induction files using reverseRecOn with
  | nil => exact ⟨[], [], rfl, by simp, Nat.zero_le _, rfl⟩
  | append_singleton files file ih =>
    rw [foldl_append]
    exact ih.addFile file

/-- The files are cut into groups, one for each chunk. -/
theorem groupFilesIntoChunks_partition (files : List (FileObject Key Text)) :
    ∃ groups : List (List (FileObject Key Text)), groups.flatten = files ∧
      groupFilesIntoChunks files = groups.map chunkOf ∧
      ∀ group ∈ groups, 1 < group.length → totalSize group ≤ EffectiveParquetSize := by
  obtain ⟨groups, hfiles, hfits, hflush⟩ := (groups_foldl files).flushChunk
  exact ⟨groups, hfiles, congrArg Grouping.chunks hflush, hfits⟩

theorem mem_groupFilesIntoChunks (h : file ∈ files)
    : ∃ c ∈ groupFilesIntoChunks files, file.FileKey ∈ c.keys := by
  obtain ⟨groups, hfiles, -, hflush⟩ := (groups_foldl files).flushChunk
  obtain ⟨group, hgroup, hfile⟩ := mem_flatten.1 (hfiles ▸ h)
  rw [groupFilesIntoChunks, hflush]
  exact ⟨chunkOf group, mem_map_of_mem hgroup, mem_map_of_mem hfile⟩

end Chunks

theorem recordID_eq {Row : Type} (dest : Destination) (id : Bytes) (rows : List Row) (ids : List Bytes) :
    recordID dest id rows ids = ids ∨ recordID dest id rows ids = ids ++ [id] := by
  unfold recordID
  repeat' split
  all_goals simp

/-! ### What is still to come -/

section Invariant

variable [LinearOrder Key] [LinearOrder Text] (S : Stream Key Text) (s : Store Key Text)

/-- The cursor that the next incremental thread goes by. -/
def effective : Option Text :=
  match s.cursor, s.metadata with
  | some c, some (id, largest) => if id = c then some largest else some c
  | cursor, _ => cursor

/-- The next run reads all files. -/
def StartsOver : Prop :=
  s.chunks = none ∨ s.chunks = some [] ∧ s.cursor = none

variable (v : Version Key)

/-- The version's key is in a chunk that is neither removed nor committed. -/
def Pending : Prop :=
  ∃ c ∈ s.chunks.getD [], v.key ∈ c.keys ∧ ∀ loaded, S.chunkID loaded c ∉ s.committedIDs

/-- The version's time is beyond the cursor. -/
def Later : Prop :=
  (effective s).any (fun c => c < S.format v.modified) = true

/-- A later step will still read the version. -/
def Ahead : Prop :=
  StartsOver s ∨ Pending S s v ∨ Later S s v

/-- What a listing shows is noticed: it has been shown or read before, or it is still to be
read. -/
def Noticed : Prop :=
  v ∈ s.seen ∨ v ∈ s.processed ∨ Ahead S s v

/-- No other pending chunk has the ID of the chunk. -/
def Sole (c : Chunk Key) : Prop :=
  ∀ c' ∈ s.chunks.getD [], ∀ loaded loaded', S.chunkID loaded c' = S.chunkID loaded' c → c' = c

/-- The key that a listing has come to. -/
def Phase.listedTo : Phase Key Text → Option (Option Key)
  | .listing after _ => some after
  | _ => none

/-- The cursor of a new backfill is stored, and its chunks are not. -/
def Phase.awaitsChunks : Phase Key Text → Bool
  | .cursorSet _ => true
  | _ => false

/-- The condition on the events of a run. -/
def Ok (e : Event Key) (s : System Key Text) : Prop :=
  match e with
  | .start => s.phase.awaitsChunks = true → StartsOver s.toStore
  | .page upto => ∀ after ∈ s.phase.listedTo, ∀ v ∈ pageOf S s.bucket after (some upto),
      Noticed S s.toStore v
  | .lastPage => ∀ after ∈ s.phase.listedTo, ∀ v ∈ pageOf S s.bucket after none, Noticed S s.toStore v
  | .openChunk c => Sole S s.toStore c
  | _ => True

/-! ### The invariant -/

/-- The versions shown before are not passed over. -/
def Ready : Prop :=
  ∀ v ∈ s.bucket, v ∈ s.seen → v ∈ s.processed ∨ Ahead S s v

/-- The listing has shown all versions that were there before. -/
structure Complete (shown : List (Version Key)) : Prop where
  seen : ∀ v ∈ shown, v ∈ s.seen
  all : ∀ v ∈ s.bucket, v ∈ s.seen ∨ S.selects v.key = true ∧ v.serial < s.began → v ∈ shown

/-- A chunk's thread reads every file of the chunk, or a thread before it did. -/
def ThreadInv (c : Chunk Key) : Option (Thread Key) → Prop
  | none => True
  | some .skipping => ∃ loaded, S.chunkID loaded c ∈ s.committedIDs
  | some (.reading todo read) => Sole S s c ∧
      ∀ v ∈ s.bucket, v ∈ s.seen → v.key ∈ c.keys → v.key ∈ todo ∨ v ∈ read
  | some .closed => (∃ loaded, S.chunkID loaded c ∈ s.committedIDs) ∨
      ∀ v ∈ s.bucket, v ∈ s.seen → v.key ∈ c.keys → v ∈ s.processed

def PhaseInv : Phase Key Text → Prop
  | .idle => True
  | .listing after shown => (∀ v ∈ s.seen, v.serial < s.began) ∧
      (∀ v ∈ shown, v.serial < s.uploads ∧ S.selects v.key = true ∧
        (v ∈ s.bucket → v ∈ s.processed ∨ Ahead S s v)) ∧
      ∀ v ∈ s.bucket, S.selects v.key = true → v.serial < s.began →
        after.all (· < v.key) = true ∨ v ∈ shown
  | .cursorSet shown => Complete S s shown ∧ s.committedIDs = [] ∧ s.metadata = none ∧
      (s.cursor = none → shown = [])
  | .backfill _ shown threads => Complete S s shown ∧ s.cursor ≠ none ∧
      ∀ c ∈ s.chunks.getD [], ThreadInv S s c (threads c)
  | .incremental shown cursor todo largest read => Complete S s shown ∧ s.chunks = some [] ∧
      s.cursor = some cursor ∧ effective s = some cursor ∧
      (∀ v ∈ s.bucket, v ∈ s.seen → cursor < S.format v.modified →
        v.key ∈ todo.map FileObject.FileKey ∨ v ∈ read) ∧
      (read.any Version.hasRecords = false → largest = cursor)
  | .committed shown largest recovered => Complete S s shown ∧ s.chunks = some [] ∧
      (∀ v ∈ s.bucket, v ∈ s.seen → v ∈ s.processed ∨ recovered = true ∧ largest < S.format v.modified) ∧
      ∀ id reached, s.metadata = some (id, reached) → id = largest → reached = largest
  | .done shown recovered => Complete S s shown ∧
      ∀ v ∈ s.bucket, v ∈ s.seen → v ∈ s.processed ∨ recovered = true ∧ Later S s v

/-- The bookkeeping of the store. -/
structure Base : Prop where
  keys : (s.bucket.map Version.key).Nodup
  serial : ∀ v ∈ s.bucket, v.serial < s.uploads
  seen : ∀ v ∈ s.seen, v.serial < s.uploads ∧ S.selects v.key = true
  began : s.began ≤ s.uploads
  /-- Before the first chunk of a backfill there is nothing of it at the destination. -/
  unread : s.chunks = none ∨ s.cursor = none → s.committedIDs = [] ∧ s.metadata = none
  cursor : s.cursor = none → s.chunks.getD [] = []
  noState : S.dest = .parquetLocal → s.metadata = none

structure Inv (s : System Key Text) : Prop extends Base S s.toStore where
  ready : (∀ shown, s.phase ≠ .cursorSet shown) → Ready S s.toStore
  phase : PhaseInv S s.toStore s.phase

variable {S} {s : System Key Text}

theorem Inv.at (h : Inv S s) (hphase : s.phase = p) : PhaseInv S s.toStore p := hphase ▸ h.phase

variable {c : Chunk Key} {thread : Option (Thread Key)}

omit [LinearOrder Key] [LinearOrder Text] in
/-- Growing lists at the destination keep what is known of the threads. -/
theorem ThreadInv.mono (h : ThreadInv S store c thread)
    (hseen : ∀ v ∈ store'.bucket, v ∈ store'.seen → v ∈ store.bucket ∧ v ∈ store.seen)
    (hprocessed : ∀ v ∈ store.processed, v ∈ store'.processed)
    (hids : ∀ id ∈ store.committedIDs, id ∈ store'.committedIDs)
    (hchunks : ∀ c ∈ store'.chunks.getD [], c ∈ store.chunks.getD []) : ThreadInv S store' c thread := by
  match thread with
  | none => trivial
  | some .skipping => exact h.imp fun loaded hid => hids _ hid
  | some (.reading todo read) =>
    refine ⟨fun c' hc' => h.1 c' (hchunks c' hc'), fun v hv hin => ?_⟩
    exact h.2 v (hseen v hv hin).1 (hseen v hv hin).2
  | some .closed =>
    refine Or.imp (fun hid => hid.imp fun loaded hid => hids _ hid) (fun hall v hv hin hkey => ?_) h
    exact hprocessed v (hall v (hseen v hv hin).1 (hseen v hv hin).2 hkey)

/-- Changes to the bucket: versions go, and new ones come. -/
theorem Inv.bucket (h : Inv S s) {bucket : List (Version Key)} (huploads : s.uploads ≤ uploads)
    (hkeys : (bucket.map Version.key).Nodup) (hserial : ∀ v ∈ bucket, v.serial < uploads)
    (hold : ∀ v ∈ bucket, v.serial < s.uploads → v ∈ s.bucket) :
    Inv S { s with bucket := bucket, uploads := uploads } := by
  have hseen : ∀ v ∈ bucket, v ∈ s.seen → v ∈ s.bucket := fun v hv hin => hold v hv (h.seen v hin).1
  have hcomplete : ∀ {shown}, Complete S s.toStore shown →
      Complete S { s.toStore with bucket := bucket, uploads := uploads } shown := by
    intro shown hc
    refine ⟨hc.seen, fun v hv hor => hc.all v (hold v hv ?_) hor⟩
    exact hor.elim (fun hin => (h.seen v hin).1) fun hlt => Nat.lt_of_lt_of_le hlt.2 h.began
  refine
    { keys := hkeys
      serial := hserial
      seen := fun v hv => ⟨Nat.lt_of_lt_of_le (h.seen v hv).1 huploads, (h.seen v hv).2⟩
      began := Nat.le_trans h.began huploads
      unread := h.unread
      cursor := h.cursor
      noState := h.noState
      ready := fun hphase v hv hin => h.ready hphase v (hseen v hv hin) hin
      phase := ?_ }
  refine (?_ : ∀ p, PhaseInv S s.toStore p →
    PhaseInv S { s.toStore with bucket := bucket, uploads := uploads } p) _ h.phase
  intro p hphase
  cases p with
  | idle => trivial
  | listing after shown =>
    obtain ⟨hbegan, hshown, hall⟩ := hphase
    refine ⟨hbegan, fun v hv => ?_, fun v hv hsel hlt => ?_⟩
    · obtain ⟨hlt, hsel, hahead⟩ := hshown v hv
      exact ⟨Nat.lt_of_lt_of_le hlt huploads, hsel, fun hin => hahead (hold v hin hlt)⟩
    · exact hall v (hold v hv (Nat.lt_of_lt_of_le hlt h.began)) hsel hlt
  | cursorSet shown => exact ⟨hcomplete hphase.1, hphase.2⟩
  | backfill loaded shown threads =>
    obtain ⟨hc, hcursor, hthreads⟩ := hphase
    exact ⟨hcomplete hc, hcursor, fun c hin => (hthreads c hin).mono
      (fun v hv hin => ⟨hseen v hv hin, hin⟩) (fun _ => id) (fun _ => id) fun _ => id⟩
  | incremental shown cursor todo largest read =>
    obtain ⟨hc, hchunks, hcursor, heff, hread, hlargest⟩ := hphase
    exact ⟨hcomplete hc, hchunks, hcursor, heff, fun v hv hin => hread v (hseen v hv hin) hin, hlargest⟩
  | committed shown largest recovered =>
    obtain ⟨hc, hchunks, hall, hmeta⟩ := hphase
    exact ⟨hcomplete hc, hchunks, fun v hv hin => hall v (hseen v hv hin) hin, hmeta⟩
  | done shown recovered =>
    exact ⟨hcomplete hphase.1, fun v hv hin => hphase.2 v (hseen v hv hin) hin⟩

variable {after : Option Key} {v : Version Key}

omit [LinearOrder Text] in
theorem mem_pageOf :
    v ∈ pageOf S bucket after upto ↔ v ∈ bucket ∧ S.selects v.key = true ∧
      after.all (· < v.key) = true ∧ upto.all (v.key ≤ ·) = true := by
  simp only [pageOf, mem_filter, Bool.and_eq_true, and_assoc]

omit [LinearOrder Text] in
/-- A version of the bucket is what its key is read as. -/
theorem current_of_mem (hkeys : (bucket.map Version.key).Nodup)
    (hv : v ∈ bucket) : current bucket v.key = some v := by
  unfold current
  cases hfind : bucket.find? (fun w => w.key = v.key) with
  | none =>
    have hne := find?_eq_none.1 hfind v hv
    simp at hne
  | some w =>
    have hkey : w.key = v.key := by simpa using find?_some hfind
    rw [inj_on_of_nodup_map hkeys (mem_of_find?_eq_some hfind) hv hkey]

omit [LinearOrder Key] in
/-- After the backfill only the cursor is left to go by. -/
theorem Ahead.later (h : Ahead S s.toStore v) (hchunks : s.chunks = some [])
    (hcursor : s.cursor = some cursor) : Later S s.toStore v := by
  rcases h with (hnone | ⟨-, hnone⟩) | ⟨c', hc', -⟩ | hlater
  · rw [hchunks] at hnone
    cases hnone
  · rw [hcursor] at hnone
    cases hnone
  · rw [hchunks] at hc'
    cases hc'
  · exact hlater

variable {shown : List (Version Key)}

theorem Base.streamIncremental (h : Base S s.toStore) (hready : Ready S s.toStore)
    (hc : Complete S s.toStore shown) (hchunks : s.chunks = some []) (hnone : s.cursor = none → shown = []) :
    Inv S (streamIncremental S s shown) := by
  have hphase : ∀ p, PhaseInv S s.toStore p → Inv S { s with phase := p } := fun p hp =>
    ⟨h, fun _ => hready, hp⟩
  have hfiles : ∀ c, ∀ v ∈ s.bucket, v ∈ s.seen → c < S.format v.modified →
      v.key ∈ (filterFilesByCursor (shown.map S.fileObject) c).map FileObject.FileKey ∨
        v ∈ ([] : List (Version Key)) := by
    intro c v hv hin hlt
    refine .inl (mem_map.2 ⟨S.fileObject v, ?_, rfl⟩)
    exact mem_filter.2 ⟨mem_map_of_mem (hc.all v hv (.inl hin)), decide_eq_true hlt⟩
  unfold S3.streamIncremental
  cases hcursor : s.cursor with
  | none =>
    refine hphase _ ⟨hc, fun v hv hin => ?_⟩
    have hshown := hc.all v hv (.inl hin)
    rw [hnone hcursor] at hshown
    cases hshown
  | some c =>
    have hfresh : effective s.toStore = some c → Inv S { s with
          phase := .incremental shown c (filterFilesByCursor (shown.map S.fileObject) c) c [] } := fun heff =>
      hphase _ ⟨hc, hchunks, hcursor, heff, hfiles c, fun _ => rfl⟩
    cases hmeta : s.metadata with
    | none => exact hfresh (by rw [effective, hcursor, hmeta])
    | some m =>
      obtain ⟨id, largest⟩ := m
      dsimp only
      by_cases hid : id = c
      · rw [if_pos hid]
        have heff : effective s.toStore = some largest := by simp [effective, hcursor, hmeta, hid]
        refine hphase _ ⟨hc, hchunks, fun v hv hin => ?_, fun id' reached hm _ => ?_⟩
        · refine (hready v hv hin).imp (fun hin => hin) fun hahead => ⟨rfl, ?_⟩
          have hlater := hahead.later hchunks hcursor
          rw [Later, heff] at hlater
          exact of_decide_eq_true hlater
        · cases hmeta.symm.trans hm
          rfl
      · rw [if_neg hid]
        exact hfresh (by simp [effective, hcursor, hmeta, hid])

theorem Inv.setChunks (h : Inv S s) (hphase : s.phase = .cursorSet shown) :
    Inv S (setChunks S s shown) := by
  obtain ⟨hc, hids, hmeta, hnone⟩ := h.at hphase
  have hchunk : ∀ v ∈ shown, ∃ c ∈ groupFilesIntoChunks (shown.map S.fileObject), v.key ∈ c.keys := fun v hv =>
    mem_groupFilesIntoChunks (mem_map_of_mem hv)
  have hready : Ready S { s.toStore with chunks := some (groupFilesIntoChunks (shown.map S.fileObject)) } := by
    intro v hv hin
    obtain ⟨c, hcin, hkey⟩ := hchunk v (hc.all v hv (.inl hin))
    refine .inr (.inr (.inl ⟨c, hcin, hkey, fun _ => ?_⟩))
    rw [hids]
    exact not_mem_nil
  have hcursor : s.cursor = none → groupFilesIntoChunks (shown.map S.fileObject) = [] := by
    intro hcursor
    rw [hnone hcursor]
    rfl
  have hbase : Base S { s.toStore with chunks := some (groupFilesIntoChunks (shown.map S.fileObject)) } :=
    { h.toBase with unread := fun _ => ⟨hids, hmeta⟩, cursor := hcursor }
  unfold S3.setChunks
  by_cases hnil : groupFilesIntoChunks (shown.map S.fileObject) = []
  · rw [if_pos hnil]
    exact Base.streamIncremental hbase hready ⟨hc.seen, hc.all⟩ (congrArg some hnil) hnone
  · rw [if_neg hnil]
    exact ⟨hbase, fun _ => hready, ⟨hc.seen, hc.all⟩, fun hn => hnil (hcursor hn), fun _ _ => trivial⟩

theorem Inv.page (h : Inv S s) (hphase : s.phase = .listing after shown)
    (hok : ∀ v ∈ pageOf S s.bucket after (some upto), Noticed S s.toStore v) :
    Inv S { s with phase := .listing (some upto) (shown ++ pageOf S s.bucket after (some upto)) } := by
  have hready := h.ready (by simp [hphase])
  obtain ⟨hbegan, hshown, hall⟩ := h.at hphase
  refine ⟨h.toBase, fun _ => hready, hbegan, fun v hv => ?_, fun v hv hsel hlt => ?_⟩
  · rcases mem_append.1 hv with hv | hv
    · exact hshown v hv
    · obtain ⟨hin, hsel, -⟩ := mem_pageOf.1 hv
      refine ⟨h.serial v hin, hsel, fun _ => ?_⟩
      exact (hok v hv).elim (hready v hin) id
  · rcases hall v hv hsel hlt with hafter | hin
    · rcases lt_or_ge upto v.key with hlt' | hle
      · exact .inl (decide_eq_true hlt')
      · exact .inr (mem_append_right _ (mem_pageOf.2 ⟨hv, hsel, hafter, decide_eq_true hle⟩))
    · exact .inr (mem_append_left _ hin)

variable {loaded : Bool}

omit [LinearOrder Text] in
/-- The steps of a chunk's thread that commit and remove nothing. -/
theorem threadInv_chunkStep (hkeys : (s.bucket.map Version.key).Nodup)
    (hthread : ThreadInv S s.toStore c thread)
    (hsole : ∀ c', e = .openChunk c' → Sole S s.toStore c)
    (hclose : ∀ c' outcome, e = .closeChunk c' outcome → ∀ read, thread ≠ some (.reading [] read)) :
    ThreadInv S s.toStore c (chunkStep S s loaded c e thread) := by
  unfold chunkStep
  split
  · split
    · next hid => exact ⟨loaded, hid⟩
    · exact ⟨hsole _ rfl, fun v _ _ hkey => .inl hkey⟩
  · next key todo read =>
    refine ⟨hthread.1, fun v hv hin hkey => ?_⟩
    rcases hthread.2 v hv hin hkey with htodo | hread
    · rcases mem_cons.1 htodo with heq | htodo
      · refine .inr (mem_append_right _ ?_)
        rw [← heq, current_of_mem hkeys hv]
        exact mem_singleton.2 rfl
      · exact .inl htodo
    · exact .inr (mem_append_left _ hread)
  · trivial
  · split
    · exact .inl hthread
    · trivial
  · next c' outcome read => exact absurd rfl (hclose c' outcome rfl read)
  · exact hthread

variable {threads : Chunk Key → Option (Thread Key)} {read : List (Version Key)}

/-- The commit of a chunk's thread that has read all its files. -/
theorem Inv.commitChunk (h : Inv S s) (hphase : s.phase = .backfill loaded shown threads)
    (hc : c ∈ s.chunks.getD [])
    (hthread : threads c = some (.reading [] read)) (hnext : thread = some .closed ∨ thread = none)
    : Inv S { s with
      processed := s.processed ++ read
      committedIDs := recordID S.dest (S.chunkID loaded c) (read.filter Version.hasRecords) s.committedIDs
      phase := .backfill loaded shown (Function.update threads c thread) } := by
  have hready := h.ready (by simp [hphase])
  obtain ⟨hcomplete, hcursor, hthreads⟩ := h.at hphase
  have hreading := hthreads c hc
  rw [hthread] at hreading
  have hrecorded := recordID_eq S.dest (S.chunkID loaded c) (read.filter Version.hasRecords) s.committedIDs
  have hread : ∀ v ∈ s.bucket, v ∈ s.seen → v.key ∈ c.keys → v ∈ s.processed ++ read := fun v hv hin hkey =>
    mem_append_right _ ((hreading.2 v hv hin hkey).resolve_left not_mem_nil)
  refine ⟨{ h.toBase with unread := ?_ }, fun _ v hv hin => ?_, ⟨hcomplete.seen, hcomplete.all⟩, hcursor,
    (forall_update_iff threads fun c' t => c' ∈ _ → ThreadInv S _ c' t).2 ⟨fun _ => ?_, fun c' _ hc' => ?_⟩⟩
  · rintro (hnone | hnone)
    · rw [show s.chunks = none from hnone] at hc
      cases hc
    · exact absurd hnone hcursor
  · rcases hready v hv hin with hdone | hover | ⟨c', hc', hkey, hids⟩ | hlater
    · exact .inl (mem_append_left _ hdone)
    · exact .inr (.inl hover)
    · -- a version in this chunk is read, and the IDs of other chunks are not recorded
      by_cases heq : c' = c
      · exact .inl (hread v hv hin (heq ▸ hkey))
      · refine .inr (.inr (.inl ⟨c', hc', hkey, fun loaded' hid => ?_⟩))
        rcases hrecorded with hsame | hadded
        · exact hids loaded' (hsame ▸ hid)
        · rcases mem_append.1 (hadded ▸ hid) with hid | hid
          · exact hids loaded' hid
          · exact heq (hreading.1 c' hc' _ _ (mem_singleton.1 hid))
    · exact .inr (.inr (.inr hlater))
  · rcases hnext with rfl | rfl
    · exact .inr hread
    · trivial
  · refine (hthreads c' hc').mono (fun _ => And.intro) (fun _ => mem_append_left _) (fun id hid => ?_) (fun _ => id)
    rcases hrecorded with hsame | hadded
    · exact hsame.symm ▸ hid
    · exact hadded.symm ▸ mem_append_left _ hid

theorem Inv.finishChunk (h : Inv S s) (hphase : s.phase = .backfill loaded shown threads)
    (hc : c ∈ s.chunks.getD []) (hthread : threads c = some .closed) :
    let s' : System Key Text := { s with
      chunks := some ((s.chunks.getD []).erase c)
      phase := .backfill loaded shown (Function.update threads c none) }
    Inv S (if (s.chunks.getD []).erase c = [] then S3.streamIncremental S s' shown else s') := by
  intro s'
  have hready := h.ready (by simp [hphase])
  obtain ⟨hcomplete, hcursor, hthreads⟩ := h.at hphase
  have hclosed := hthreads c hc
  rw [hthread] at hclosed
  have hready' : Ready S s'.toStore := by
    intro v hv hin
    rcases hready v hv hin with hdone | hover | ⟨c', hc', hkey, hids⟩ | hlater
    · exact .inl hdone
    · rcases hover with hnone | ⟨hnil, -⟩
      · simp [hnone] at hc
      · simp [hnil] at hc
    · by_cases heq : c' = c
      · subst heq
        rcases hclosed with ⟨loaded', hid⟩ | hall
        · exact absurd hid (hids loaded')
        · exact .inl (hall v hv hin hkey)
      · exact .inr (.inr (.inl ⟨c', (mem_erase_of_ne heq).2 hc', hkey, hids⟩))
    · exact .inr (.inr (.inr hlater))
  have hbase : Base S s'.toStore :=
    { h.toBase with
      unread := fun hor => absurd (hor.resolve_left (Option.some_ne_none _)) hcursor
      cursor := fun hnone => absurd hnone hcursor }
  by_cases hnil : (s.chunks.getD []).erase c = []
  · rw [if_pos hnil]
    exact hbase.streamIncremental hready' ⟨hcomplete.seen, hcomplete.all⟩ (congrArg some hnil)
      fun hnone => absurd hnone hcursor
  · rw [if_neg hnil]
    refine ⟨hbase, fun _ => hready', ⟨hcomplete.seen, hcomplete.all⟩, hcursor,
      (forall_update_iff threads fun c' t => c' ∈ _ → ThreadInv S _ c' t).2 ⟨fun _ => trivial, fun c' _ hc' => ?_⟩⟩
    exact (hthreads c' (mem_of_mem_erase hc')).mono (fun _ => And.intro) (fun _ => id) (fun _ => id)
      (fun _ => mem_of_mem_erase)

theorem Inv.backfillStep (h : Inv S s) (hphase : s.phase = .backfill loaded shown threads)
    (hsole : ∀ c', e = .openChunk c' → Sole S s.toStore c) :
    Inv S (backfillStep S s loaded shown threads c e) := by
  have hready := h.ready (by simp [hphase])
  unfold S3.backfillStep
  split
  · exact h
  next hc =>
  rw [not_not] at hc
  obtain ⟨hcomplete, hcursor, hthreads⟩ := h.at hphase
  have hupdate : ∀ thread, ThreadInv S s.toStore c thread →
      Inv S { s with phase := .backfill loaded shown (update threads c thread) } := fun thread hthread =>
    ⟨h.toBase, fun _ => hready, hcomplete, hcursor,
      (forall_update_iff threads fun c' t => c' ∈ _ → ThreadInv S _ c' t).2
        ⟨fun _ => hthread, fun c' _ hc' => hthreads c' hc'⟩⟩
  split
  · next c' outcome read hthread =>
    have hnext : chunkStep S s loaded c (.closeChunk c' outcome) (some (.reading [] read)) = some .closed ∨
        chunkStep S s loaded c (.closeChunk c' outcome) (some (.reading [] read)) = none := by
      cases outcome <;> simp [chunkStep]
    rw [hthread]
    split
    · exact h.commitChunk hphase hc hthread hnext
    · next hfailed =>
      refine hupdate _ ?_
      have hnone : chunkStep S s loaded c (.closeChunk c' outcome) (some (.reading [] read)) = none := by
        cases outcome <;> simp [chunkStep, CloseOutcome.durable] at hfailed ⊢
      rw [hnone]
      trivial
  · next c' hthread => exact h.finishChunk hphase hc hthread
  · next hclose _ =>
    refine hupdate _ (threadInv_chunkStep h.keys (hthreads c hc) hsole fun c' outcome he read hthread => ?_)
    exact hclose c' outcome read he hthread

variable {largest : Text}

/-- The commit of an incremental thread that has read all its files. -/
theorem Inv.commitFiles (h : Inv S s)
    (hphase : s.phase = .incremental shown cursor [] largest read) :
    let store : Store Key Text := { s.toStore with
      processed := s.processed ++ read
      metadata := recordState S.dest s.metadata cursor largest read }
    Base S store ∧ (∀ v ∈ s.bucket, v ∈ s.seen → v ∈ store.processed) ∧
      ∀ id reached, store.metadata = some (id, reached) → id = largest → reached = largest := by
  intro store
  have hready := h.ready (by simp [hphase])
  obtain ⟨hcomplete, hchunks, hcursor, heff, hread, hlargest⟩ := h.at hphase
  refine ⟨{ h.toBase with unread := ?_, noState := ?_ }, fun v hv hin => ?_, fun id reached hmeta hid => ?_⟩
  · rintro (hnone | hnone)
    · cases hchunks.symm.trans hnone
    · cases hcursor.symm.trans hnone
  · intro hdest
    simp only [store, hdest]
    exact h.noState hdest
  · rcases hready v hv hin with hdone | hahead
    · exact mem_append_left _ hdone
    · have hlater := hahead.later hchunks hcursor
      rw [Later, heff] at hlater
      exact mem_append_right _ ((hread v hv hin (of_decide_eq_true hlater)).resolve_left not_mem_nil)
  · -- without records the cursor is the old one, and the metadata was not for it
    have hold : s.metadata = some (id, reached) → id = cursor → reached = cursor := by
      intro hm hid'
      rw [effective, hcursor, hm] at heff
      simpa [hid'] using heff
    by_cases hany : read.any Version.hasRecords = true
    · have hnew : S.dest = .parquetLocal ∨ store.metadata = some (cursor, largest) := by
        simp only [store, recordState, hany]
        cases S.dest <;> simp
      rcases hnew with hdest | hnew
      · simp only [store, hdest] at hmeta
        rw [h.noState hdest] at hmeta
        cases hmeta
      · cases hnew.symm.trans hmeta
        rfl
    · have hsame : store.metadata = s.metadata := by
        simp only [store, recordState, hany]
        cases S.dest <;> simp
      rw [hlargest (Bool.eq_false_iff.2 hany)] at hid ⊢
      exact hold (hsame ▸ hmeta) hid

theorem Inv.incrementalStep (h : Inv S s)
    (hphase : s.phase = .incremental shown cursor todo largest read) (e : Event Key) :
    Inv S (incrementalStep S s shown cursor todo largest read e) := by
  have hready := h.ready (by simp [hphase])
  obtain ⟨hcomplete, hchunks, hcursor, heff, hread, hlargest⟩ := h.at hphase
  have hsome : s.cursor = none → shown = [] := fun hnone => by simp [hcursor] at hnone
  unfold S3.incrementalStep
  split
  · -- a file is read
    split
    · exact h
    next file rest =>
    have hnext : ∀ v ∈ s.bucket, v ∈ s.seen → cursor < S.format v.modified →
        current s.bucket file.FileKey = some v ∨ v.key ∈ rest.map FileObject.FileKey ∨ v ∈ read := by
      intro v hv hin hlt
      rw [← or_assoc]
      refine (hread v hv hin hlt).imp_left fun htodo => (mem_cons.1 htodo).imp_left fun heq => ?_
      rw [← heq, current_of_mem h.keys hv]
    split
    · next hgone =>
      rw [hgone] at hnext
      exact ⟨h.toBase, fun _ => hready, hcomplete, hchunks, hcursor, heff,
        fun v hv hin hlt => (hnext v hv hin hlt).resolve_left nofun, hlargest⟩
    · next w hw =>
      refine ⟨h.toBase, fun _ => hready, hcomplete, hchunks, hcursor, heff, fun v hv hin hlt => ?_, fun hnone => ?_⟩
      · rcases hnext v hv hin hlt with heq | htodo | hdone
        · cases hw.symm.trans heq
          exact .inr (mem_append_right _ (mem_singleton.2 rfl))
        · exact .inl htodo
        · exact .inr (mem_append_left _ hdone)
      · rw [any_append, Bool.or_eq_false_iff] at hnone
        have hw : w.hasRecords = false := by simpa using hnone.2
        rw [if_neg (by simp [hw])]
        exact hlargest hnone.1
  · exact h.toBase.streamIncremental hready hcomplete hchunks hsome
  · next outcome =>
    split
    · exact h
    obtain ⟨hbase, hdone, hmeta⟩ := h.commitFiles hphase
    have hready' : Ready S { s.toStore with
        processed := s.processed ++ read
        metadata := recordState S.dest s.metadata cursor largest read } := fun v hv hin =>
      .inl (hdone v hv hin)
    cases outcome with
    | committed =>
      exact ⟨hbase, fun _ => hready', ⟨hcomplete.seen, hcomplete.all⟩, hchunks,
        fun v hv hin => .inl (hdone v hv hin), hmeta⟩
    | committedErr =>
      exact Base.streamIncremental hbase hready' ⟨hcomplete.seen, hcomplete.all⟩ hchunks hsome
    | failed => exact h.toBase.streamIncremental hready hcomplete hchunks hsome
  · exact h

theorem Inv.save (h : Inv S s) (hphase : s.phase = .committed shown largest recovered) :
    Inv S { s with cursor := some largest, phase := .done shown recovered } := by
  obtain ⟨hcomplete, hchunks, hall, hmeta⟩ := h.at hphase
  have heff : effective { s.toStore with cursor := some largest } = some largest := by
    cases hm : s.metadata with
    | none => simp [effective, hm]
    | some m =>
      obtain ⟨id, reached⟩ := m
      by_cases hid : id = largest
      · simp [effective, hm, hmeta id reached hm hid]
      · simp [effective, hm, hid]
  have hlater : ∀ v ∈ s.bucket, v ∈ s.seen → v ∈ s.processed ∨
      recovered = true ∧ Later S { s.toStore with cursor := some largest } v := by
    intro v hv hin
    refine (hall v hv hin).imp (fun hin => hin) fun hlt => ⟨hlt.1, ?_⟩
    rw [Later, heff]
    exact decide_eq_true hlt.2
  refine ⟨{ h.toBase with
      unread := fun hor => ?_
      cursor := nofun },
    fun _ v hv hin => (hlater v hv hin).imp (fun hin => hin) fun hlt => .inr (.inr hlt.2),
    ⟨hcomplete.seen, hcomplete.all⟩, hlater⟩
  rcases hor with hnone | hnone
  · cases hchunks.symm.trans hnone
  · cases hnone

theorem Inv.start (h : Inv S s) (hok : ∀ shown, s.phase = .cursorSet shown → StartsOver s.toStore) :
    Inv S { s with began := s.uploads, phase := .listing none [] } := by
  have hready : Ready S s.toStore := by
    by_cases hphase : ∃ shown, s.phase = .cursorSet shown
    · obtain ⟨shown, hphase⟩ := hphase
      exact fun v _ _ => .inr (.inl (hok shown hphase))
    · exact h.ready fun shown heq => hphase ⟨shown, heq⟩
  refine ⟨{ h.toBase with began := Nat.le_refl _ }, fun _ => hready, fun v hv => (h.seen v hv).1, ?_, ?_⟩
  · nofun
  · exact fun v _ _ _ => .inl rfl

theorem Inv.delete (h : Inv S s) (key : Key) :
    Inv S { s with bucket := s.bucket.filter (fun v => v.key ≠ key) } := by
  refine h.bucket (Nat.le_refl _) ?_ (fun v hv => h.serial v (mem_of_mem_filter hv))
    fun v hv _ => mem_of_mem_filter hv
  exact h.keys.sublist (filter_sublist.map _)

theorem Inv.upload (h : Inv S s) (key : Key) (size records modified : Nat) :
    Inv S { s with
      bucket := s.bucket.filter (fun v => v.key ≠ key) ++ [⟨key, s.uploads, size, records, modified⟩]
      uploads := s.uploads + 1 } := by
  refine h.bucket (Nat.le_succ _) ?_ (fun v hv => ?_) fun v hv hlt => ?_
  · rw [map_append, nodup_append]
    refine ⟨h.keys.sublist (filter_sublist.map _), nodup_singleton _, fun a ha b hb heq => ?_⟩
    obtain ⟨v, hv, rfl⟩ := mem_map.1 ha
    cases mem_singleton.1 hb
    exact of_decide_eq_true (mem_filter.1 hv).2 heq
  · rcases mem_append.1 hv with hv | hv
    · exact Nat.lt_succ_of_lt (h.serial v (mem_of_mem_filter hv))
    · cases mem_singleton.1 hv
      exact Nat.lt_succ_self _
  · rcases mem_append.1 hv with hv | hv
    · exact mem_of_mem_filter hv
    · cases mem_singleton.1 hv
      exact absurd hlt (Nat.lt_irrefl _)

theorem Inv.init : Inv S (System.init : System Key Text) where
  keys := nodup_nil
  serial v hv := by cases hv
  seen v hv := by cases hv
  began := Nat.le_refl _
  unread _ := ⟨rfl, rfl⟩
  cursor _ := rfl
  noState _ := rfl
  ready _ v hv := by cases hv
  phase := trivial

variable [OrderBot Text]

omit [LinearOrder Key] in
theorem fetchMaxCursorValues_eq_none {files : List (FileObject Key Text)} :
    FetchMaxCursorValues files = none ↔ files = [] := by
  unfold FetchMaxCursorValues
  split <;> simp_all

theorem Base.beginSync (h : Base S s.toStore) (hready : Ready S s.toStore)
    (hc : Complete S s.toStore shown) : Inv S (beginSync S s shown) := by
  have hover : s.chunks = none ∨ s.chunks = some [] ∧ s.cursor = none →
      Inv S { s with cursor := FetchMaxCursorValues (shown.map S.fileObject), phase := .cursorSet shown } := by
    intro hover
    have hunread := h.unread (hover.imp id And.right)
    refine ⟨{ h with unread := fun _ => hunread, cursor := fun _ => ?_ },
      fun hp => absurd rfl (hp shown),
      ⟨⟨hc.seen, hc.all⟩, hunread.1, hunread.2, fun hnone => ?_⟩⟩
    · rcases hover with hnone | ⟨hnil, -⟩
      · simp [hnone]
      · simp [hnil]
    · exact map_eq_nil_iff.1 (fetchMaxCursorValues_eq_none.1 hnone)
  unfold S3.beginSync
  split
  · next c hchunks hcursor =>
    exact h.streamIncremental hready hc hchunks fun hnone => by simp [hcursor] at hnone
  · next c rest hchunks =>
    refine ⟨h, fun _ => hready, hc, fun hnone => ?_, fun _ _ => trivial⟩
    have hnil := h.cursor hnone
    rw [hchunks] at hnil
    cases hnil
  · next hcons hsome =>
    refine hover ?_
    rcases hchunks : s.chunks with _ | _ | ⟨c, rest⟩
    · exact .inl rfl
    · exact .inr ⟨rfl, Option.eq_none_iff_forall_ne_some.2 fun c hcursor => hsome c hchunks hcursor⟩
    · exact absurd hchunks (hcons c rest)

theorem Inv.lastPage (h : Inv S s) (hphase : s.phase = .listing after shown)
    (hok : ∀ v ∈ pageOf S s.bucket after none, Noticed S s.toStore v) :
    Inv S (S3.beginSync S { s with seen := s.seen ++ (shown ++ pageOf S s.bucket after none) }
      (shown ++ pageOf S s.bucket after none)) := by
  have hready := h.ready (by simp [hphase])
  obtain ⟨hbegan, hshown, hall⟩ := h.at hphase
  have hlast : ∀ v, v ∈ pageOf S s.bucket after none ↔ _ := fun v => mem_pageOf
  generalize pageOf S s.bucket after none = page at hok hlast ⊢
  have hready' : Ready S { s.toStore with seen := s.seen ++ (shown ++ page) } := by
    intro v hv hin
    simp only [mem_append] at hin
    rcases hin with hin | hin | hin
    · exact hready v hv hin
    · exact (hshown v hin).2.2 hv
    · exact (hok v hin).elim (hready v hv) id
  have hcomplete : Complete S { s.toStore with seen := s.seen ++ (shown ++ page) }
      (shown ++ page) := by
    refine ⟨fun v hv => mem_append_right _ hv, fun v hv hor => ?_⟩
    have hold : S.selects v.key = true → v.serial < s.began → v ∈ shown ++ page := by
      intro hsel hlt
      rcases hall v hv hsel hlt with hafter | hin
      · exact mem_append_right _ ((hlast v).2 ⟨hv, hsel, hafter, rfl⟩)
      · exact mem_append_left _ hin
    rcases hor with hin | ⟨hsel, hlt⟩
    · rcases mem_append.1 hin with hin | hin
      · exact hold (h.seen v hin).2 (hbegan v hin)
      · exact hin
    · exact hold hsel hlt
  have hbase : Base S { s.toStore with seen := s.seen ++ (shown ++ page) } :=
    { h.toBase with seen := forall_mem_append.2 ⟨h.seen, forall_mem_append.2
        ⟨fun v hin => ⟨(hshown v hin).1, (hshown v hin).2.1⟩, fun v hin => ?_⟩⟩ }
  · exact Base.beginSync hbase hready' hcomplete
  · obtain ⟨hin', hsel, -⟩ := (hlast v).1 hin
    exact ⟨h.serial v hin', hsel⟩

theorem Inv.step (e : Event Key) (s : System Key Text) (h : Inv S s) (hok : Ok S e s) :
    Inv S (step S e s) := by
  unfold S3.step
  split
  · exact h.upload ..
  · exact h.delete _
  · exact h.start fun shown hphase => hok (by rw [hphase]; rfl)
  · next upto after shown hphase =>
    split
    · exact h.page hphase (hok after (by rw [hphase]; rfl))
    · exact h
  · next after shown hphase => exact h.lastPage hphase (hok after (by rw [hphase]; rfl))
  · next shown hphase => exact h.setChunks hphase
  · next hphase => exact h.backfillStep hphase fun _ _ => hok
  · next hphase => exact h.backfillStep hphase nofun
  · next hphase => exact h.backfillStep hphase nofun
  · next hphase => exact h.backfillStep hphase nofun
  · next hphase => exact h.backfillStep hphase nofun
  · next hphase => exact h.save hphase
  · next hphase => exact h.incrementalStep hphase _
  · exact h

/-- In every run whose events meet the condition: when a run is complete, its listing has
shown every file that was there when it began, and every version it has shown is processed,
or the run took over the commit of an earlier process and the version is beyond the cursor
that it stored, so that it comes next. -/
theorem every_version_processed (S : Stream Key Text) (events : List (Event Key))
    (hevents : Machine.Along (S3.step S) (Ok S) events System.init) :
    let s := Machine.run (S3.step S) events System.init;
    ∀ shown recovered, s.phase = .done shown recovered →
      (∀ v ∈ s.bucket, S.selects v.key = true → v.serial < s.began → v ∈ shown) ∧
      ∀ v ∈ s.bucket, v ∈ shown → v ∈ s.processed ∨ recovered = true ∧ Later S s.toStore v := by
  intro s shown recovered hphase
  have hinv : Inv S s := Machine.run_inv Inv.step Inv.init hevents
  obtain ⟨hcomplete, hdone⟩ := hinv.at hphase
  exact ⟨fun v hv hsel hlt => hcomplete.all v hv (.inr ⟨hsel, hlt⟩),
    fun v hv hin => hdone v hv (hcomplete.seen v hin)⟩

end Invariant

instance [LinearOrder Key] [LinearOrder Text] (S : Stream Key Text) (e : Event Key) (s : System Key Text) :
    Decidable (Ok S e s) := by
  unfold Ok Noticed Ahead StartsOver Pending Later Sole
  split <;> infer_instance

/-- A stream of files named by numbers, with times cut to seconds. -/
def numbered : Stream Nat Nat where
  format t := t / 1000000000
  selects _ := true
  chunkID _ c := c.keys.map UInt8.ofNat
  dest := .parquetS3

def firstRun : List (Event Nat) :=
  [.upload 1 10 5 1200000000, .start, .lastPage, .setChunks, .openChunk ⟨[1], 10⟩, .readKey ⟨[1], 10⟩,
    .closeChunk ⟨[1], 10⟩ .committed, .finishChunk ⟨[1], 10⟩, .close .committed, .save]

def secondRun (modified : Nat) : List (Event Nat) :=
  [.upload 2 10 5 modified, .start, .lastPage, .readFile, .close .committed, .save]

theorem every_version_processed_second :
    let s := Machine.run (step numbered) (firstRun ++ secondRun 2100000000) System.init;
    s.cursor = some 2 ∧ ∀ v ∈ s.bucket, v ∈ s.processed := by
  intro s
  obtain ⟨hshown, hdone⟩ := every_version_processed numbered (firstRun ++ secondRun 2100000000)
    (by decide +kernel) _ false rfl
  refine ⟨by decide +kernel, fun v hv => (hdone v hv (hshown v hv rfl ?_)).resolve_right nofun⟩
  revert v
  decide +kernel

/-- A file that is uploaded in the second of the last one, after the listing. -/
theorem version_never_processed :
    let s := Machine.run (step numbered) (firstRun ++ secondRun 1700000000) System.init;
    (∃ v ∈ s.bucket, v.key = 2 ∧ v ∉ s.processed) ∧ s.cursor = some 1 ∧ numbered.format 1700000000 = 1 := by
  decide +kernel

end Olake.S3
