/-
The row index on disk is a map from keys to locations.

What is on the disk is sound (`Sound`): the files have the ids below the next one, a path and its
id name each other, and a stored row names a file that has an id.  Every batch keeps this, also
the one that gives an id to a new path before its rows are written, so it holds wherever a process
dies; what a process has in memory agrees with it (`Inv`).  The next id does not run over, since
the store has an entry for each id below it (`ids_le_size`) and a disk has less than 2^64.

The rows of the store are those of the calls that returned (`Committed`), so a lookup gives the
location that was committed last.
-/
import Mathlib.Data.List.Nodup
import Olake.Lib.Run
import Olake.Model.IndexDB

namespace Olake.IndexDB

open Varint List Function Option ByteStore PebbleIndex Int64

/-! ### Keys and values -/

@[simp] theorem rowKey_inj : rowKey a = rowKey b ↔ a = b := by simp [rowKey]

@[simp] theorem fileByPathKey_inj : fileByPathKey a = fileByPathKey b ↔ a = b := by
  simp [fileByPathKey]

@[simp] theorem metaKey_inj : metaKey a = metaKey b ↔ a = b := by simp [metaKey]

@[simp] theorem fileByIDKey_inj : fileByIDKey a = fileByIDKey b ↔ a = b := by
  simp [fileByIDKey, put64_injective.eq_iff]

@[simp] theorem keys_ne : (∀ a id, rowKey a ≠ fileByIDKey id ∧ fileByIDKey id ≠ rowKey a) ∧
    (∀ a path, rowKey a ≠ fileByPathKey path ∧ fileByPathKey path ≠ rowKey a) ∧
    (∀ a name, rowKey a ≠ metaKey name ∧ metaKey name ≠ rowKey a) ∧
    (∀ id path, fileByIDKey id ≠ fileByPathKey path ∧ fileByPathKey path ≠ fileByIDKey id) ∧
    (∀ id name, fileByIDKey id ≠ metaKey name ∧ metaKey name ≠ fileByIDKey id) ∧
    ∀ path name, fileByPathKey path ≠ metaKey name ∧ metaKey name ≠ fileByPathKey path := by
  simp [rowKey, fileByIDKey, fileByPathKey, metaKey, prefixRow, prefixIDToFilePath, prefixFileByPath, prefixMeta]

@[simp] theorem metaNames_ne :
    metaSnapshot ≠ metaNextFileID ∧ metaSnapshot ≠ metaFormatVersion ∧ metaNextFileID ≠ metaSnapshot ∧
      metaNextFileID ≠ metaFormatVersion ∧ metaFormatVersion ≠ metaSnapshot ∧ metaFormatVersion ≠ metaNextFileID := by
  decide

theorem toNat_position {position : Int64} (h : 0 ≤ position) : position.toUInt64.toNat < 2 ^ 63 := by
  have hpos : 0 ≤ position.toInt := le_iff_toInt_le.1 h
  have hcond := position.toBitVec.toInt_eq_toNat_cond
  rw [toInt_toBitVec, toNat_toBitVec] at hcond
  have hlt := position.toUInt64.toNat_lt
  split at hcond <;> omega

theorem decodeRow_encodeRow (id : UInt64) (h : 0 ≤ position) :
    decodeRow (encodeRow id position.toUInt64) = .ok (id, position) := by
  have hsecond := uvarint_putUvarint position.toUInt64 []
  rw [append_nil] at hsecond
  unfold decodeRow encodeRow
  rw [uvarint_putUvarint]
  dsimp only
  rw [drop_left, hsecond]
  dsimp only
  rw [if_neg (by have := toNat_position h; omega), toInt64_toUInt64]

variable {db : ByteStore}

theorem readMetaKey_counter
    (h : db.get (metaKey name) = some (putUvarint n)) : readMetaKey disk db name = .ok n := by
  have hread := uvarint_putUvarint n []
  rw [append_nil] at hread
  simp [readMetaKey, h, hread]

/-! ### The store -/

/-- What the index is for: the location of each row, and the checkpoint. -/
structure Committed where
  rows : GoString → Option RowLocation
  snapshot : Int64

namespace Committed

def empty : Committed := ⟨fun _ => none, 0⟩

def put (m : Committed) (change : GoString × RowLocation) : Committed :=
  { m with rows := Function.update m.rows change.1 (some change.2) }

def commit (m : Committed) (changes : List (GoString × RowLocation)) (snapshotID : Option Int64) : Committed :=
  { changes.foldl put m with snapshot := snapshotID.getD m.snapshot }

def after (m : Committed) (call : Call) (returned : Bool) : Committed :=
  match call, returned with
  | .commit changes snapshotID, true => m.commit changes snapshotID
  | .truncate, true => .empty
  | _, _ => m

end Committed

/-- How a location is stored. -/
def Stored (db : ByteStore) : Option RowLocation → Option (List UInt8) → Prop
  | none, value => value = none
  | some loc, value => 0 ≤ loc.position ∧ ∃ id, value = some (encodeRow id loc.position.toUInt64) ∧
      db.get (fileByIDKey id) = some loc.filePath

/-- Every file that has an id keeps it. -/
def Extends (db db' : ByteStore) : Prop :=
  ∀ id path, db.get (fileByIDKey id) = some path → db'.get (fileByIDKey id) = some path

theorem Extends.refl (db : ByteStore) : Extends db db := fun _ _ hget => hget

theorem Extends.trans (h : Extends db₁ db₂) (h' : Extends db₂ db₃) : Extends db₁ db₃ :=
  fun id path hget => h' id path (h id path hget)

theorem Stored.mono (h : Stored db loc value) (hextends : Extends db db') : Stored db' loc value := by
  cases loc with
  | none => exact h
  | some loc =>
    obtain ⟨hpos, id, hvalue, hget⟩ := h
    exact ⟨hpos, id, hvalue, hextends id _ hget⟩

/-- What holds of the store at any time. -/
structure Sound (db : ByteStore) (m : Committed) (next : UInt64) : Prop where
  version : db.get (metaKey metaFormatVersion) = some (putUvarint formatVersion)
  counter : db.get (metaKey metaNextFileID) = none ∧ next = 0 ∨
    db.get (metaKey metaNextFileID) = some (putUvarint next)
  snapshot : db.get (metaKey metaSnapshot) = none ∧ m.snapshot = 0 ∨
    db.get (metaKey metaSnapshot) = some (putVarint m.snapshot)
  byID : ∀ id, (db.get (fileByIDKey id)).isSome ↔ id < next
  byPath : ∀ path value, db.get (fileByPathKey path) = some value ↔
    ∃ id, value = put64 id ∧ db.get (fileByIDKey id) = some path
  rows : ∀ key, Stored db (m.rows key) (db.get (rowKey key))

/-- A store with an entry for each id has room for them. -/
theorem ids_le_size (hn : n ≤ 2 ^ 64)
    (h : ∀ id : UInt64, id.toNat < n → (db.get (fileByIDKey id)).isSome) : n ≤ db.size := by
  have hid : ∀ k ∈ range n, (UInt64.ofNat k).toNat = k := by
    intro k hk
    rw [mem_range] at hk
    rw [UInt64.toNat_ofNat', Nat.mod_eq_of_lt (by omega)]
  have hnodup : ((range n).map (fun k => fileByIDKey (UInt64.ofNat k))).Nodup := by
    refine List.Nodup.map_on (fun a ha b hb hab => ?_) nodup_range
    rwa [fileByIDKey_inj, ← UInt64.toNat_inj, hid a ha, hid b hb] at hab
  have hle := db.length_le_size hnodup fun key hkey => by
    obtain ⟨k, hk, rfl⟩ := mem_map.1 hkey
    exact h _ (by rw [hid k hk]; exact mem_range.1 hk)
  simpa using hle

/-- The store with the next id given to a path. -/
def interned (db : ByteStore) (path : GoString) (next : UInt64) : ByteStore :=
  db.commit [.set (fileByIDKey next) path, .set (fileByPathKey path) (put64 next),
    setCounter metaNextFileID (next + 1)]

theorem get_interned (db : ByteStore) (path : GoString) (next : UInt64) :
    (∀ id, (interned db path next).get (fileByIDKey id) = if id = next then some path else db.get (fileByIDKey id)) ∧
    (∀ p, (interned db path next).get (fileByPathKey p) =
      if p = path then some (put64 next) else db.get (fileByPathKey p)) ∧
    (∀ name, (interned db path next).get (metaKey name) =
      if name = metaNextFileID then some (putUvarint (next + 1)) else db.get (metaKey name)) ∧
    ∀ key, (interned db path next).get (rowKey key) = db.get (rowKey key) := by
  simp [interned, commit, apply, setCounter, get_set]

namespace Sound

variable {db : ByteStore} {m : Committed} {next : UInt64}

theorem id_ne_next (h : Sound db m next) (hget : db.get (fileByIDKey n) = some path) : n ≠ next := by
  rintro rfl
  exact UInt64.lt_irrefl _ ((h.byID n).1 (by rw [hget]; rfl))

theorem extends_interned (h : Sound db m next) (path : GoString) : Extends db (interned db path next) :=
  fun id p hget => by rw [(get_interned db path next).1, if_neg (h.id_ne_next hget), hget]

/-- A path that has no id gets the next one. -/
theorem intern (h : Sound db m next) (hnew : db.get (fileByPathKey path) = none)
    (hroom : next.toNat + 1 < 2 ^ 64) : Sound (interned db path next) m (next + 1) := by
  obtain ⟨hfile, hpath, hmeta, hrow⟩ := get_interned db path next
  have hsucc : (next + 1).toNat = next.toNat + 1 := by
    rw [UInt64.toNat_add, UInt64.toNat_one, Nat.mod_eq_of_lt hroom]
  refine ⟨by simpa [hmeta] using h.version, .inr (by simp [hmeta]), by simpa [hmeta] using h.snapshot,
    fun id => ?_, fun p value => ?_, fun key => ?_⟩
  · rw [hfile, UInt64.lt_iff_toNat_lt, hsucc]
    have hold := h.byID id
    rw [UInt64.lt_iff_toNat_lt] at hold
    grind [UInt64.toNat_inj]
  · rw [hpath]
    have hnone : ∀ id, db.get (fileByIDKey id) ≠ some path := fun id hget => by
      cases hnew.symm.trans ((h.byPath path _).2 ⟨id, rfl, hget⟩)
    grind [h.byPath p value, h.id_ne_next]
  · rw [hrow]
    exact (h.rows key).mono (h.extends_interned path)

theorem set (h : Sound db m next) (hfile : ∀ id, fileByIDKey id ≠ key)
    (hpath : ∀ path, fileByPathKey path ≠ key) (hmeta : ∀ name, name ≠ metaSnapshot → metaKey name ≠ key)
    (hsnapshot : (db.set key value).get (metaKey metaSnapshot) = none ∧ m'.snapshot = 0 ∨
      (db.set key value).get (metaKey metaSnapshot) = some (putVarint m'.snapshot))
    (hrows : ∀ k, Stored db (m'.rows k) ((db.set key value).get (rowKey k))) :
    Sound (db.set key value) m' next ∧ Extends db (db.set key value) := by
  have hextends : Extends db (db.set key value) := fun id path hget => by rwa [get_set, if_neg (hfile id)]
  refine ⟨⟨?_, ?_, hsnapshot, fun id => ?_, fun path value => ?_, fun k => (hrows k).mono hextends⟩, hextends⟩
  · rw [get_set, if_neg (hmeta _ (by simp))]
    exact h.version
  · rw [get_set, if_neg (hmeta _ (by simp))]
    exact h.counter
  · rw [get_set, if_neg (hfile id)]
    exact h.byID id
  · simp only [get_set, if_neg (hpath path), if_neg (hfile _)]
    exact h.byPath path value

theorem put (h : Sound db m next) (key : GoString) {id : UInt64} (hpos : 0 ≤ loc.position)
    (hid : db.get (fileByIDKey id) = some loc.filePath) :
    Sound (db.set (rowKey key) (encodeRow id loc.position.toUInt64)) (m.put (key, loc)) next ∧
      Extends db (db.set (rowKey key) (encodeRow id loc.position.toUInt64)) := by
  refine h.set (by simp) (by simp) (by simp) (by simpa [get_set, Committed.put] using h.snapshot) (fun k => ?_)
  rw [get_set, Committed.put]
  by_cases hk : k = key
  · subst hk
    simp only [update_self]
    exact ⟨hpos, id, rfl, hid⟩
  · simp only [update_of_ne hk, rowKey_inj, if_neg hk]
    exact h.rows k

theorem checkpoint (h : Sound db m next) (id : Int64) :
    Sound (db.set (metaKey metaSnapshot) (putVarint id)) { m with snapshot := id } next ∧
      Extends db (db.set (metaKey metaSnapshot) (putVarint id)) :=
  h.set (by simp) (by simp) (by simp) (.inr (by simp [get_set]))
    (fun key => by simpa [get_set] using h.rows key)

end Sound

/-- Whatever there was, nothing is left but the version. -/
theorem get_truncation (db : ByteStore)
    (hb : b = prefixRow ∨ b = prefixIDToFilePath ∨ b = prefixFileByPath ∨ b = prefixMeta) (rest : List UInt8) :
    (db.commit PebbleIndex.truncation).get (b :: rest) =
      if b :: rest = metaKey metaFormatVersion then some (putUvarint formatVersion) else none := by
  have hdelete : ∀ (s : ByteStore) (c a : UInt8), c.toNat + 1 < 256 →
      (s.deleteRange [c] (prefixEnd c)).get (a :: rest) = if a = c then none else s.get (a :: rest) := by
    intro s c a hc
    refine s.get_deleteRange_byte ?_ a rest
    rw [UInt8.toNat_add, UInt8.toNat_one, Nat.mod_eq_of_lt hc]
  simp only [truncation, commit, map_cons, map_nil, cons_append, nil_append,
    foldl_cons, foldl_nil, apply, setCounter, get_set]
  split
  · rfl
  · rw [hdelete _ _ _ (by decide), hdelete _ _ _ (by decide), hdelete _ _ _ (by decide), hdelete _ _ _ (by decide)]
    rcases hb with rfl | rfl | rfl | rfl <;> simp

theorem sound_truncation (db : ByteStore) : Sound (db.commit PebbleIndex.truncation) .empty 0 := by
  have hrow : ∀ key, (db.commit truncation).get (rowKey key) = none := fun key =>
    (get_truncation db (.inl rfl) _).trans (if_neg (keys_ne.2.2.1 key _).1)
  have hfile : ∀ id, (db.commit truncation).get (fileByIDKey id) = none := fun id =>
    (get_truncation db (.inr (.inl rfl)) _).trans (if_neg (keys_ne.2.2.2.2.1 id _).1)
  have hpath : ∀ path, (db.commit truncation).get (fileByPathKey path) = none := fun path =>
    (get_truncation db (.inr (.inr (.inl rfl))) _).trans (if_neg (keys_ne.2.2.2.2.2 path _).1)
  have hmeta : ∀ name, (db.commit truncation).get (metaKey name) =
      if name = metaFormatVersion then some (putUvarint formatVersion) else none := fun name => by
    simpa [metaKey] using get_truncation db (b := prefixMeta) (.inr (.inr (.inr rfl))) name
  refine ⟨by simp [hmeta], .inl (by simp [hmeta]), .inl (by simp [hmeta, Committed.empty]), fun id => ?_,
    fun path value => ?_, fun key => hrow key⟩
  · simp [hfile]
  · simp [hpath, hfile]

/-! ### The index in memory -/

variable {disk : Disk}

variable (disk) in
/-- What a process has in memory agrees with what is on the disk. -/
structure Inv (i : PebbleIndex) (m : Committed) : Prop where
  sound : Sound i.db m i.nextFileID
  size : i.db.size ≤ disk.capacity
  pathToID : ∀ path id, i.pathToID path = some id → i.db.get (fileByIDKey id) = some path
  idToPath : ∀ id path, i.idToPath id = some path → i.db.get (fileByIDKey id) = some path

variable (disk) in
theorem commitSync_cases (batch : List ByteStore.Op) (i : PebbleIndex) :
    commitSync disk batch i = (.crashed, i) ∨ commitSync disk batch i = (.error disk.noSpace, i) ∨
    ((i.db.commit batch).size ≤ disk.capacity ∧ commitSync disk batch i =
      (.ok (), { i with
        db := i.db.commit batch
        life := i.life.map Nat.pred })) := by
  unfold commitSync
  split
  · exact .inl rfl
  · split
    · exact .inr (.inl rfl)
    · next hfits => exact .inr (.inr ⟨Nat.le_of_not_lt hfits, rfl⟩)

variable {i : PebbleIndex} {m : Committed} {path : GoString} {next : UInt64} {writes keys : Nat}

theorem Inv.remember (h : Inv disk i m) {id : UInt64} (hid : i.db.get (fileByIDKey id) = some path)
    : Inv disk (i.remember path id) m where
  sound := h.sound
  size := h.size
  pathToID := (forall_update_iff _ fun p o => ∀ n, o = some n → i.db.get (fileByIDKey n) = some p).2
    ⟨fun _ hn => some.inj hn ▸ hid, fun p _ => h.pathToID p⟩
  idToPath := (forall_update_iff _ fun n o => ∀ p, o = some p → i.db.get (fileByIDKey n) = some p).2
    ⟨fun _ hp => some.inj hp ▸ hid, fun n _ => h.idToPath n⟩

theorem Sound.readFileID_eq (h : Sound db m next) (path : GoString) :
    (db.get (fileByPathKey path) = none ∧ readFileID disk db path = .ok none) ∨
    ∃ id, db.get (fileByIDKey id) = some path ∧ readFileID disk db path = .ok (some id) := by
  unfold readFileID
  cases hvalue : db.get (fileByPathKey path) with
  | none => exact .inl ⟨rfl, rfl⟩
  | some value =>
    obtain ⟨id, rfl, hid⟩ := (h.byPath path value).1 hvalue
    refine .inr ⟨id, hid, ?_⟩
    simp [length_put64, get64_put64]

theorem Inv.intern (h : Inv disk i m) (hnew : i.db.get (fileByPathKey path) = none)
    (hfits : (interned i.db path i.nextFileID).size ≤ disk.capacity) (life : Option Nat) :
    Inv disk { i with
      db := interned i.db path i.nextFileID
      nextFileID := i.nextFileID + 1
      life := life } m := by
  have hlt := i.nextFileID.toNat_lt
  have hextends := h.sound.extends_interned path
  have hcount : i.nextFileID.toNat + 1 ≤ (interned i.db path i.nextFileID).size := by
    refine ids_le_size (by omega) fun id hid => ?_
    rw [(get_interned _ _ _).1]
    split
    · rfl
    · next hne =>
      have hne' : id.toNat ≠ i.nextFileID.toNat := fun heq => hne (UInt64.toNat_inj.1 heq)
      rw [h.sound.byID, UInt64.lt_iff_toNat_lt]
      omega
  exact ⟨h.sound.intern hnew (lt_of_le_of_lt (hcount.trans hfits) disk.fits), hfits,
    fun p id hp => hextends id p (h.pathToID p id hp), fun id p hp => hextends id p (h.idToPath id p hp)⟩

/-- `fileID` gives the id of the path, whatever it has to write. -/
theorem fileID_spec (h : Inv disk i m) (path : GoString) :
    Inv disk (i.fileID disk path).2 m ∧ Extends i.db (i.fileID disk path).2.db ∧
      ∀ id, (i.fileID disk path).1 = .ok id → (i.fileID disk path).2.db.get (fileByIDKey id) = some path := by
  have hsame := Extends.refl i.db
  unfold fileID
  cases hcache : i.pathToID path with
  | some id =>
    refine ⟨h, hsame, fun id' hid' => ?_⟩
    cases hid'
    exact h.pathToID path id hcache
  | none =>
    rcases h.sound.readFileID_eq path with ⟨hnew, hread⟩ | ⟨id, hid, hread⟩
    · rw [hread]
      dsimp only
      rcases commitSync_cases disk _ i with hout | hout | ⟨hfits, hout⟩ <;> rw [hout]
      · exact ⟨h, hsame, nofun⟩
      · exact ⟨h, hsame, nofun⟩
      · have hget := (get_interned i.db path i.nextFileID).1 i.nextFileID
        rw [if_pos rfl] at hget
        refine ⟨(h.intern hnew hfits _).remember hget, h.sound.extends_interned path, fun id hid => ?_⟩
        cases hid
        exact hget
    · rw [hread]
      refine ⟨h.remember hid, hsame, fun id' hid' => ?_⟩
      cases hid'
      exact hid

/-- A row that is in the index is found, and nothing else is. -/
theorem lookup_spec (h : Inv disk i m) (key : GoString) :
    (i.Lookup disk key).1 = .ok (m.rows key) ∧ Inv disk (i.Lookup disk key).2 m := by
  have hrow := h.sound.rows key
  unfold PebbleIndex.Lookup
  cases hm : m.rows key with
  | none =>
    rw [hm] at hrow
    have hnone : i.db.get (rowKey key) = none := hrow
    rw [hnone]
    exact ⟨rfl, h⟩
  | some loc =>
    rw [hm] at hrow
    obtain ⟨hpos, id, hvalue, hget⟩ := hrow
    rw [hvalue]
    dsimp only
    rw [decodeRow_encodeRow id hpos]
    dsimp only
    unfold filePath
    cases hcache : i.idToPath id with
    | some path =>
      have hpath := h.idToPath id path hcache
      rw [hget] at hpath
      cases hpath
      exact ⟨rfl, h⟩
    | none =>
      have hread : readFilePath disk i.db id = .ok loc.filePath := by rw [readFilePath, hget]
      rw [hread]
      exact ⟨rfl, h.remember hget⟩

/-- The rows that are to be written: each names a file that has an id. -/
def Staged (db : ByteStore) : List (GoString × RowLocation) → List ByteStore.Op → Prop :=
  List.Forall₂ (fun change op => 0 ≤ change.2.position ∧ ∃ id,
    op = .set (rowKey change.1) (encodeRow id change.2.position.toUInt64) ∧
    db.get (fileByIDKey id) = some change.2.filePath)

variable {changes : List (GoString × RowLocation)}

theorem Staged.mono (h : Staged db changes ops)
    (hextends : Extends db db') : Staged db' changes ops :=
  h.imp fun _ _ ⟨hpos, id, hop, hget⟩ => ⟨hpos, id, hop, hextends id _ hget⟩

theorem stageChanges_spec (h : Inv disk i m) (changes : List (GoString × RowLocation)) (pending : List ByteStore.Op) :
    Inv disk (i.stageChanges disk changes pending).2 m ∧ Extends i.db (i.stageChanges disk changes pending).2.db ∧
      ∀ ops, (i.stageChanges disk changes pending).1 = .ok ops →
        ∃ rows, ops = pending ++ rows ∧ Staged (i.stageChanges disk changes pending).2.db changes rows := by
  induction changes generalizing i pending with
  | nil =>
    refine ⟨h, .refl _, fun ops hops => ?_⟩
    cases hops
    exact ⟨[], (append_nil _).symm, List.Forall₂.nil⟩
  | cons change rest ih =>
    obtain ⟨key, loc⟩ := change
    unfold stageChanges
    split
    · exact ⟨h, .refl _, nofun⟩
    · next hneg =>
      obtain ⟨hinv, hextends, hfile⟩ := fileID_spec h loc.filePath
      rcases hout : i.fileID disk loc.filePath with ⟨out, i'⟩
      rw [hout] at hinv hextends hfile
      cases out with
      | error | crashed => exact ⟨hinv, hextends, nofun⟩
      | ok id =>
        obtain ⟨hinv', hextends', hops'⟩ := ih hinv
          (pending ++ [.set (rowKey key) (encodeRow id loc.position.toUInt64)])
        refine ⟨hinv', hextends.trans hextends', fun ops hops => ?_⟩
        obtain ⟨rows, rfl, hstaged⟩ := hops' ops hops
        refine ⟨.set (rowKey key) (encodeRow id loc.position.toUInt64) :: rows, by simp, List.Forall₂.cons ?_ hstaged⟩
        exact ⟨Int64.not_lt.1 hneg, id, rfl, hextends' id _ (hfile id rfl)⟩

theorem Sound.rows_commit (h : Sound db m next) (hstaged : Staged db changes ops) :
    Sound (db.commit ops) (changes.foldl Committed.put m) next ∧ Extends db (db.commit ops) := by
  induction changes generalizing db m ops with
  | nil =>
    cases hstaged
    exact ⟨h, .refl _⟩
  | cons change rest ih =>
    obtain ⟨op, ops, ⟨hpos, id, rfl, hget⟩, hrest, rfl⟩ := forall₂_cons_left_iff.1 hstaged
    obtain ⟨hput, hextends⟩ := h.put change.1 hpos hget
    obtain ⟨hsound, hextends'⟩ := ih hput (Staged.mono hrest hextends)
    exact ⟨hsound, hextends.trans hextends'⟩

theorem Sound.snapshot_commit (h : Sound db m next) (snapshotID : Option Int64) :
    Sound (db.commit (PebbleIndex.stageSnapshot snapshotID)) { m with snapshot := snapshotID.getD m.snapshot } next ∧
      Extends db (db.commit (PebbleIndex.stageSnapshot snapshotID)) := by
  cases snapshotID with
  | none => exact ⟨h, .refl _⟩
  | some id => exact h.checkpoint id

/-- A batch that is written counts in full, and one that is not written does not count. -/
theorem commit_spec (h : Inv disk i m) (changes : List (GoString × RowLocation)) (snapshotID : Option Int64) :
    Inv disk (i.Commit disk changes snapshotID).2
      (if (i.Commit disk changes snapshotID).1 = .ok () then m.commit changes snapshotID else m) := by
  obtain ⟨hinv, -, hstaged⟩ := stageChanges_spec h changes []
  unfold PebbleIndex.Commit
  rcases hstage : i.stageChanges disk changes [] with ⟨out, i'⟩
  rw [hstage] at hinv hstaged
  cases out with
  | error | crashed => exact hinv
  | ok ops =>
    obtain ⟨rows, hops, hrows⟩ := hstaged ops rfl
    subst hops
    obtain ⟨hsound, hextends⟩ := hinv.sound.rows_commit hrows
    obtain ⟨hsound', hextends'⟩ := hsound.snapshot_commit snapshotID
    have hsnapshot : (changes.foldl Committed.put m).snapshot = m.snapshot := by
      clear hsound' hsound hrows hstaged hstage hinv h
      induction changes generalizing m with
      | nil => rfl
      | cons change rest ih => exact ih
    have hbatch : (i'.db.commit ops).commit (stageSnapshot snapshotID) =
        i'.db.commit (ops ++ stageSnapshot snapshotID) := by
      simp [commit]
    rw [hsnapshot, hbatch] at hsound'
    have hall := hextends.trans hextends'
    rw [hbatch] at hall
    dsimp only
    split
    · next hempty =>
      rw [hempty] at hsound'
      exact ⟨hsound', hinv.size, hinv.pathToID, hinv.idToPath⟩
    · rcases commitSync_cases disk (ops ++ stageSnapshot snapshotID) i' with
        hout | hout | ⟨hfits, hout⟩ <;> rw [hout]
      · exact hinv
      · exact hinv
      · exact ⟨hsound', hfits, fun p id hp => hall id p (hinv.pathToID p id hp),
          fun id p hp => hall id p (hinv.idToPath id p hp)⟩

theorem truncate_spec (h : Inv disk i m) :
    Inv disk (i.Truncate disk).2 (if (i.Truncate disk).1 = .ok () then .empty else m) := by
  unfold PebbleIndex.Truncate
  rcases commitSync_cases disk truncation i with hout | hout | ⟨hfits, hout⟩ <;> rw [hout]
  · exact h
  · exact h
  · exact ⟨sound_truncation i.db, hfits, nofun, nofun⟩

/-! ### Calls that return -/

variable (disk) in
/-- The process lives for so many writes more, and the disk has room for so many keys. -/
structure Room (i : PebbleIndex) (writes keys : Nat) : Prop where
  alive : ∀ n, i.life = some n → writes ≤ n
  free : i.db.size + keys ≤ disk.capacity

theorem Room.commitSync (batch : List ByteStore.Op) (h : Room disk i (writes + 1) (keys + batch.length)) :
    ∃ i', commitSync disk batch i = (.ok (), i') ∧ Room disk i' writes keys := by
  have hsize := i.db.size_commit_le batch
  have hfree := h.free
  have hlife : i.life ≠ some 0 := fun hlife => absurd (h.alive 0 hlife) (by omega)
  unfold IndexDB.commitSync
  rw [if_neg hlife, if_neg (by omega)]
  refine ⟨_, rfl, fun n hn => ?_, by dsimp only; omega⟩
  obtain ⟨k, hk, rfl⟩ := map_eq_some_iff.1 hn
  have := h.alive k hk
  rw [Nat.pred_eq_sub_one]
  omega

theorem Room.mono (h : Room disk i writes keys) (hwrites : writes' ≤ writes) (hkeys : keys' ≤ keys) :
    Room disk i writes' keys' :=
  ⟨fun n hn => hwrites.trans (h.alive n hn), (Nat.add_le_add_left hkeys _).trans h.free⟩

theorem Room.fileID (h : Room disk i (writes + 1) (keys + 3)) (hinv : Inv disk i m) (path : GoString) :
    ∃ id i', i.fileID disk path = (.ok id, i') ∧ Room disk i' writes keys := by
  have hless := h.mono (Nat.le_succ writes) (Nat.le_add_right keys 3)
  unfold PebbleIndex.fileID
  cases i.pathToID path with
  | some id => exact ⟨id, i, rfl, hless⟩
  | none =>
    rcases hinv.sound.readFileID_eq path with ⟨-, hread⟩ | ⟨id, -, hread⟩ <;> rw [hread]
    · obtain ⟨i', hcommit, hroom⟩ := h.commitSync [.set (fileByIDKey i.nextFileID) path,
        .set (fileByPathKey path) (put64 i.nextFileID), setCounter metaNextFileID (i.nextFileID + 1)]
      dsimp only
      rw [hcommit]
      exact ⟨_, _, rfl, hroom.alive, hroom.free⟩
    · exact ⟨_, _, rfl, hless.alive, hless.free⟩

theorem Room.stageChanges (h : Room disk i (writes + changes.length) (keys + 3 * changes.length))
    (hinv : Inv disk i m) (hpos : ∀ change ∈ changes, 0 ≤ change.2.position) (pending : List ByteStore.Op) :
    ∃ ops i', i.stageChanges disk changes pending = (.ok ops, i') ∧
      ops.length = pending.length + changes.length ∧ Room disk i' writes keys := by
  induction changes generalizing i pending with
  | nil => exact ⟨pending, i, rfl, rfl, h⟩
  | cons change rest ih =>
    obtain ⟨key, loc⟩ := change
    obtain ⟨hloc, hrest⟩ := forall_mem_cons.1 hpos
    obtain ⟨id, i', hid, hroom⟩ := Room.fileID h hinv loc.filePath
    have hinv' := (fileID_spec hinv loc.filePath).1
    rw [hid] at hinv'
    obtain ⟨ops, i'', hops, hlen, hroom'⟩ := ih hroom hinv' hrest
      (pending ++ [.set (rowKey key) (encodeRow id loc.position.toUInt64)])
    refine ⟨ops, i'', ?_, by simp at hlen ⊢; omega, hroom'⟩
    unfold PebbleIndex.stageChanges
    rw [if_neg (Int64.not_lt.2 hloc), hid]
    exact hops

/-- Nothing but a crash, a full disk or a negative position keeps `Commit` from its work. -/
theorem commit_returns (hinv : Inv disk i m) (hpos : ∀ change ∈ changes, 0 ≤ change.2.position)
    (h : Room disk i (changes.length + 1) (4 * changes.length + 1)) (snapshotID : Option Int64) :
    (i.Commit disk changes snapshotID).1 = .ok () := by
  have hstage : Room disk i (1 + changes.length) (changes.length + 1 + 3 * changes.length) :=
    h.mono (by omega) (by omega)
  obtain ⟨ops, i', hops, hlen, hroom⟩ := hstage.stageChanges hinv hpos []
  unfold PebbleIndex.Commit
  rw [hops]
  dsimp only
  split
  · rfl
  · have hbatch : (ops ++ stageSnapshot snapshotID).length ≤ changes.length + 1 := by
      rw [length_append, hlen]
      cases snapshotID <;> simp [stageSnapshot]
    have hwrite : Room disk i' (0 + 1) (0 + (ops ++ stageSnapshot snapshotID).length) :=
      hroom.mono (by omega) (by omega)
    obtain ⟨i'', hcommit, -⟩ := hwrite.commitSync
    rw [hcommit]

theorem truncate_returns (h : Room disk i 1 5) : (i.Truncate disk).1 = .ok () := by
  have hwrite : Room disk i (0 + 1) (0 + truncation.length) := h
  obtain ⟨i', hcommit, -⟩ := hwrite.commitSync
  unfold PebbleIndex.Truncate
  rw [hcommit]

/-! ### Opening the index -/

variable (disk) in
/-- What is on the disk when no index is open. -/
def OnDisk (db : ByteStore) (m : Committed) : Prop :=
  (db = .empty ∧ m = .empty) ∨ (∃ next, Sound db m next) ∧ db.size ≤ disk.capacity

theorem Inv.onDisk (h : Inv disk i m) : OnDisk disk i.db m := .inr ⟨⟨_, h.sound⟩, h.size⟩

theorem Sound.readNext (h : Sound db m next) : readMetaKey disk db metaNextFileID = .ok next := by
  rcases h.counter with ⟨hnone, rfl⟩ | hsome
  · rw [readMetaKey, hnone]
  · exact readMetaKey_counter hsome

/-- The index can be opened, unless the process dies in the first one. -/
theorem open_spec (h : OnDisk disk db m) (life : Option Nat) :
    ((PebbleIndex.openIndex disk db life).1 = .ok () ∧ Inv disk (PebbleIndex.openIndex disk db life).2 m) ∨
    ((PebbleIndex.openIndex disk db life).1 = .crashed ∧ (PebbleIndex.openIndex disk db life).2.db = db ∧
      life = some 0) := by
  unfold openIndex load checkFormatVersion
  rcases h with ⟨rfl, rfl⟩ | ⟨⟨next, hsound⟩, hsize⟩
  · have hversion : readMetaKey disk .empty metaFormatVersion = .ok 0 := rfl
    have hfits : (empty.commit truncation).size = 1 := rfl
    rw [hversion]
    dsimp only
    rw [if_neg (by decide)]
    unfold PebbleIndex.Truncate commitSync
    by_cases hlife : life = some 0
    · right
      rw [if_pos hlife]
      exact ⟨rfl, rfl, hlife⟩
    · left
      have hroom : ¬ disk.capacity < (empty.commit truncation).size := by
        rw [hfits]
        exact Nat.not_lt.2 disk.room
      have hsound := sound_truncation .empty
      have hnext : readMetaKey disk (empty.commit truncation) metaNextFileID = .ok 0 :=
        hsound.readNext
      rw [if_neg hlife, if_neg hroom]
      dsimp only
      rw [hnext]
      exact ⟨rfl, hsound, Nat.le_of_not_lt hroom, nofun, nofun⟩
  · have hversion : readMetaKey disk db metaFormatVersion = .ok formatVersion := readMetaKey_counter hsound.version
    have hnext : readMetaKey disk db metaNextFileID = .ok next := hsound.readNext
    left
    rw [hversion]
    dsimp only
    rw [if_pos rfl]
    dsimp only
    rw [hnext]
    exact ⟨rfl, hsound, hsize, nofun, nofun⟩

/-! ### Runs -/

variable (disk) in
/-- What holds between two calls. -/
def Holds (m : Committed) : World → Prop
  | .down db => OnDisk disk db m
  | .up i => Inv disk i m

theorem holds_after {α : Type} {out : Outcome α × PebbleIndex} (h : Inv disk out.2 m) :
    Holds disk m (.after out) := by
  obtain ⟨outcome, i⟩ := out
  cases outcome with
  | crashed => exact h.onDisk
  | ok | error => exact h

theorem holds_returned (h : Inv disk out.2 (if out.1 = .ok () then m.after call true else m)) :
    Holds disk (m.after call (out.1 == .ok ())) (.after out) := by
  refine holds_after ?_
  by_cases hok : out.1 = .ok ()
  · simpa [hok] using h
  · cases call <;> simpa [hok, Committed.after] using h

theorem Holds.onDisk (h : Holds disk m w) : OnDisk disk w.db m := by
  cases w with
  | down db => exact h
  | up i => exact Inv.onDisk h

variable (disk) in
theorem step_reopen (life : Option Nat) (w : World) :
    step disk (.reopen life) w =
      match PebbleIndex.openIndex disk w.db life with
      | (.ok _, i) => .up i
      | (_, i) => .down i.db := by
  cases w <;> rfl

theorem holds_step (h : Holds disk m w) (call : Call) :
    Holds disk (m.after call (returned disk call w)) (step disk call w) := by
  cases call with
  | reopen life =>
    have hafter : m.after (.reopen life) (returned disk (.reopen life) w) = m := by cases w <;> rfl
    rw [hafter, step_reopen]
    have hopen := open_spec h.onDisk life
    generalize openIndex disk w.db life = opened at hopen
    obtain ⟨out, i⟩ := opened
    rcases hopen with ⟨hok, hinv⟩ | ⟨hcrashed, hdb, -⟩
    · cases hok
      exact hinv
    · cases hcrashed
      dsimp only at hdb ⊢
      rw [hdb]
      exact h.onDisk
  | commit changes snapshotID =>
    cases w with
    | down db => exact h
    | up i => exact holds_returned (commit_spec h changes snapshotID)
  | lookup key =>
    cases w with
    | down db => exact h
    | up i => exact holds_after (lookup_spec h key).2
  | truncate =>
    cases w with
    | down db => exact h
    | up i => exact holds_returned (truncate_spec h)

variable (disk) in
/-- The map that the calls of a run make up, from which of them returned. -/
def committed : List Call → World → Committed → Committed
  | [], _, m => m
  | call :: rest, w, m => committed rest (step disk call w) (m.after call (returned disk call w))

theorem holds_run (h : Holds disk m w) (calls : List Call) :
    Holds disk (committed disk calls w m) (Machine.run (step disk) calls w) := by
  induction calls generalizing w m with
  | nil => exact h
  | cons call rest ih => exact ih (holds_step h call)

/-- A stored row can be read, whether the index is open or not. -/
theorem OnDisk.row (h : OnDisk disk db m) (hvalue : db.get (rowKey key) = some value) :
    ∃ id position path, decodeRow value = .ok (id, position) ∧ readFilePath disk db id = .ok path ∧
      m.rows key = some ⟨path, position⟩ := by
  rcases h with ⟨rfl, -⟩ | ⟨⟨next, hsound⟩, -⟩
  · cases hvalue
  · have hrow := hsound.rows key
    rw [hvalue] at hrow
    cases hm : m.rows key with
    | none =>
      rw [hm] at hrow
      cases hrow
    | some loc =>
      rw [hm] at hrow
      obtain ⟨hpos, id, hid, hget⟩ := hrow
      cases hid
      exact ⟨id, loc.position, loc.filePath, decodeRow_encodeRow id hpos, by rw [readFilePath, hget], rfl⟩

theorem OnDisk.readFileID (h : OnDisk disk db m) {id : UInt64}
    (hread : readFileID disk db path = .ok (some id)) : db.get (fileByIDKey id) = some path := by
  rcases h with ⟨rfl, -⟩ | ⟨⟨next, hsound⟩, -⟩
  · cases hread
  · rcases hsound.readFileID_eq path with ⟨-, hnone⟩ | ⟨id', hget, hsome⟩
    · cases hnone.symm.trans hread
    · cases hsome.symm.trans hread
      exact hget

theorem OnDisk.lt_next (h : OnDisk disk db m) {id : UInt64}
    (hread : readFilePath disk db id = .ok path) :
    ∃ next, readMetaKey disk db metaNextFileID = .ok next ∧ id < next := by
  rcases h with ⟨rfl, -⟩ | ⟨⟨next, hsound⟩, -⟩
  · cases hread
  · refine ⟨next, hsound.readNext, (hsound.byID id).1 ?_⟩
    unfold readFilePath at hread
    cases hget : db.get (fileByIDKey id) with
    | none => simp [hget] at hread
    | some path => rfl

theorem lastCommittedSnapshot_eq (h : Inv disk i m) : i.LastCommittedSnapshot disk = .ok m.snapshot := by
  have hread := varint_putVarint m.snapshot []
  rw [append_nil] at hread
  unfold PebbleIndex.LastCommittedSnapshot
  rcases h.sound.snapshot with ⟨hnone, hzero⟩ | hsome
  · rw [hnone, hzero]
  · simp [hsome, hread]

/-- Over any calls of any processes the index is a map: a lookup gives what was committed last
since the index was emptied, and a process that stays alive and has room on its disk can commit and
empty it; different paths have different ids, the next id is above all of them,
and the file of every row can be resolved. -/
theorem index_refines_map (disk : Disk) (calls : List Call) :
    let w := Machine.run (step disk) calls (.down .empty);
    let m := committed disk calls (.down .empty) .empty;
    (∀ i, w = .up i → (∀ key, (i.Lookup disk key).1 = .ok (m.rows key)) ∧
      i.LastCommittedSnapshot disk = .ok m.snapshot ∧
      (∀ path id, i.pathToID path = some id → readFilePath disk w.db id = .ok path) ∧
      readMetaKey disk w.db metaNextFileID = .ok i.nextFileID ∧
      (∀ changes snapshotID, (∀ change ∈ changes, 0 ≤ change.2.position) →
        Room disk i (changes.length + 1) (4 * changes.length + 1) →
        (i.Commit disk changes snapshotID).1 = .ok ()) ∧
      (Room disk i 1 5 → (i.Truncate disk).1 = .ok ())) ∧
    (∃ i, PebbleIndex.openIndex disk w.db none = (.ok (), i) ∧
      ∀ key, (i.Lookup disk key).1 = .ok (m.rows key)) ∧
    (∀ path path' id, readFileID disk w.db path = .ok (some id) → readFileID disk w.db path' = .ok (some id) →
      path = path') ∧
    (∀ id path, readFilePath disk w.db id = .ok path →
      ∃ next, readMetaKey disk w.db metaNextFileID = .ok next ∧ id < next) ∧
    ∀ key value, w.db.get (rowKey key) = some value →
      ∃ id position path, decodeRow value = .ok (id, position) ∧ readFilePath disk w.db id = .ok path ∧
        m.rows key = some ⟨path, position⟩ := by
  intro w m
  have hstart : Holds disk .empty (.down .empty) := .inl ⟨rfl, rfl⟩
  have hholds : Holds disk m w := holds_run hstart calls
  have hdisk := hholds.onDisk
  refine ⟨fun i hi => ?_, ?_, fun path path' id hpath hpath' => ?_, fun id path => hdisk.lt_next,
    fun key value => hdisk.row⟩
  · rw [hi] at hholds ⊢
    have hinv : Inv disk i m := hholds
    refine ⟨fun key => (lookup_spec hinv key).1, lastCommittedSnapshot_eq hinv, fun path id hid => ?_,
      hinv.sound.readNext, fun changes snapshotID hpos hroom => commit_returns hinv hpos hroom snapshotID,
      truncate_returns⟩
    rw [readFilePath, World.db, hinv.pathToID path id hid]
  · rcases open_spec hdisk none with ⟨hok, hinv⟩ | ⟨-, -, hlife⟩
    · exact ⟨_, Prod.ext hok rfl, fun key => (lookup_spec hinv key).1⟩
    · cases hlife
  · have hget := hdisk.readFileID hpath
    rw [hdisk.readFileID hpath'] at hget
    exact (some.inj hget).symm

def smallDisk : Disk where
  dir := "index"
  text _ := "?"
  noSpace := "no space left on device"
  capacity := 100
  room := by decide
  fits := by decide

/-- A row is committed and moved; a process that dies in its first write does not move it again.
The next one finds where it was moved, and could move it. -/
theorem index_refines_map_moved :
    let calls := [.reopen none, .commit [([7], ⟨[1], 0⟩)] none, .commit [([7], ⟨[2], 5⟩)] (some 3),
      .reopen (some 0), .commit [([7], ⟨[3], 6⟩)] none, .reopen none];
    ∃ i, Machine.run (step smallDisk) calls (.down .empty) = .up i ∧
      (i.Lookup smallDisk [7]).1 = .ok (some ⟨[2], 5⟩) ∧ i.LastCommittedSnapshot smallDisk = .ok 3 ∧
      (i.Commit smallDisk [([7], ⟨[3], 6⟩)] none).1 = .ok () := by
  intro calls
  obtain ⟨hup, -⟩ := index_refines_map smallDisk calls
  obtain ⟨i, hi⟩ : ∃ i, Machine.run (step smallDisk) calls (.down .empty) = .up i := ⟨_, rfl⟩
  obtain ⟨hlookup, hsnapshot, -, -, hcommit, -⟩ := hup i hi
  have hm : (committed smallDisk calls (.down .empty) .empty).rows [7] = some ⟨[2], 5⟩ ∧
      (committed smallDisk calls (.down .empty) .empty).snapshot = 3 := by decide +kernel
  have hroom : i.life = none ∧ i.db.size ≤ 10 := by
    cases hi
    decide +kernel
  refine ⟨i, hi, (hlookup [7]).trans (by rw [hm.1]), hsnapshot.trans (by rw [hm.2]),
    hcommit _ none (by decide) ⟨fun n hn => ?_, ?_⟩⟩
  · rw [hroom.1] at hn
    cases hn
  · exact (Nat.add_le_add_right hroom.2 5).trans (by decide)

end Olake.IndexDB
