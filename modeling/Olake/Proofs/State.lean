/-
What survives the state file.

A value denotes something of the source: a number, a text or a list of file keys.
The Go type it is kept in is not part of that, so an int64 that comes back as the
float64 of the same number is the same source value.  Reloading keeps the source
value of everything a float64 and a UTF-8 string can hold (`Value.Exact`), and of
nothing else; the rest of this file lifts that from one value to the whole state,
through the hash set the chunks are kept in and the streams that are not saved.
-/
import Olake.Model.State

namespace Olake

open Binary64 Utf8

/-! ### One value -/

theorem Float64.eq_of_val {x y : Float64} (h : x.val = y.val) : x = y := by
  cases x
  cases y
  simpa using h

theorem Float64.ofInt_val (n : Int) : (ofInt n).val = n.sign * round n.natAbs := rfl

/-- A number is decoded to itself exactly when a float64 can hold it. -/
theorem Float64.ofInt_val_eq : (ofInt n).val = n ↔ Exact n.natAbs := by
  rw [← round_eq_self, ofInt_val]
  rcases lt_trichotomy n 0 with h | rfl | h
  · rw [Int.sign_eq_neg_one_of_neg h]
    omega
  · simp [round_of_lt]
  · rw [Int.sign_eq_one_of_pos h]
    omega

theorem shortest_pos (hx : round x = x) (h : 0 < x) : 0 < shortest x := by
  by_contra hs
  have h0 : round (shortest x) = 0 := by
    rw [Nat.eq_zero_of_not_pos hs]
    rfl
  rw [round_shortest hx] at h0
  omega

/-- A float64 is written so that it is read as itself. -/
theorem Float64.ofInt_shortest (x : Float64) : ofInt (x.val.sign * shortest x.val.natAbs) = x := by
  apply eq_of_val
  have hs := round_shortest x.exact
  rw [ofInt_val]
  rcases lt_trichotomy x.val 0 with h | h | h
  · have hpos := shortest_pos x.exact (by omega)
    rw [Int.sign_eq_neg_one_of_neg h, Int.sign_eq_neg_one_of_neg (by omega)]
    simp only [neg_mul, one_mul, Int.natAbs_neg, Int.natAbs_natCast]
    omega
  · simp [h]
  · have hpos := shortest_pos x.exact (by omega)
    rw [Int.sign_eq_one_of_pos h, Int.sign_eq_one_of_pos (by omega)]
    simp only [one_mul, Int.natAbs_natCast]
    omega

@[simp] theorem Value.reload_null : Value.null.reload = .null := rfl

@[simp] theorem Value.reload_str (s : Bytes) : (Value.str s).reload = .str (toValid s) := rfl

@[simp] theorem Value.reload_int64 (n : Int64) :
    (Value.int64 n).reload = .float64 (.ofInt n.toInt) := rfl

@[simp] theorem Value.reload_float64 (x : Float64) : (Value.float64 x).reload = .float64 x :=
  congrArg Value.float64 x.ofInt_shortest

@[simp] theorem Value.reload_reload (v : Value) : v.reload.reload = v.reload := by cases v <;> simp

@[simp] theorem Bound.reload_value (v : Value) : (Bound.value v).reload = .value v.reload := rfl

@[simp] theorem Bound.reload_strings (l : List Bytes) :
    (Bound.strings l).reload = .anys (l.map toValid) := rfl

@[simp] theorem Bound.reload_anys (l : List Bytes) :
    (Bound.anys l).reload = .anys (l.map toValid) := rfl

@[simp] theorem Bound.reload_reload (b : Bound) : b.reload.reload = b.reload := by cases b <;> simp

/-- The file can hold what is stood for: a number of at most 53 significant bits, a
text in UTF-8. -/
def Source.Exact : Source → Prop
  | .null => True
  | .number n => Binary64.Exact n.natAbs
  | .text s => Valid s
  | .files keys => ∀ k ∈ keys, Valid k

instance (n : Nat) : Decidable (Binary64.Exact n) := decidable_of_iff _ round_eq_self

instance (s : Source) : Decidable s.Exact := by
  unfold Source.Exact
  split <;> infer_instance

theorem map_toValid_eq_self {l : List Bytes} : l.map toValid = l ↔ ∀ k ∈ l, Valid k := by
  have h := List.map_inj_left (f := toValid) (g := id) (l := l)
  rw [List.map_id] at h
  exact h.trans (forall₂_congr fun _ _ => toValid_eq_self)

/-- A loaded value stands for the same as the saved one exactly when the file can
hold it. -/
theorem Value.source_reload {v : Value} : v.reload.source = v.source ↔ v.source.Exact := by
  cases v with
  | null => simp [source, Source.Exact]
  | str s => simp [source, Source.Exact, toValid_eq_self]
  | int64 n => simp [source, Source.Exact, Float64.ofInt_val_eq]
  | float64 x => simp [source, Source.Exact, ← round_eq_self, x.exact]

theorem Bound.source_reload {b : Bound} : b.reload.source = b.source ↔ b.source.Exact := by
  cases b with
  | value v => exact Value.source_reload
  | strings | anys => simp [source, Source.Exact, map_toValid_eq_self]

theorem Bound.source_reload_exact (b : Bound) : b.reload.source.Exact := by
  rw [← Bound.source_reload, Bound.reload_reload]

theorem Chunk.source_reload {c : Chunk} :
    c.reload.source = c.source ↔ c.min.source.Exact ∧ c.max.source.Exact := by
  simp [source, reload, Bound.source_reload]

/-- The type of the column a cursor value comes from. -/
def Value.column : Value → DataType
  | .null => .int64
  | .int64 _ => .int64
  | .float64 _ => .int64
  | .str _ => .string

/-- The typed cursor of a loaded value is the typed cursor of the saved one. -/
theorem Value.reformat_reload (h : v.source.Exact) :
    ReformatValue v.column v.reload = ReformatValue v.column v := by
  cases v with
  | null => rfl
  | str s => simp [toValid_of_valid h]
  | int64 n =>
    have hval : (Float64.ofInt n.toInt).val = n.toInt := Float64.ofInt_val_eq.2 h
    simp [column, ReformatValue, hval]
  | float64 x => simp

/-! ### The set of chunks -/

section ChunkSet

variable {H : Type} [DecidableEq H] (hash : Chunk → H)

theorem mem_insertChunk {set : List Chunk}
    (hinj : ∀ e ∈ set, hash e = hash c → e = c) : d ∈ insertChunk hash set c ↔ d ∈ set ∨ d = c := by
  unfold insertChunk
  split
  next h =>
    obtain ⟨e, he, heq⟩ := List.mem_map.1 h
    have hc : c ∈ set := hinj e he heq ▸ he
    constructor
    · exact .inl
    · rintro (hd | rfl)
      · exact hd
      · exact hc
  next h => simp

/-- A set of chunks whose hashes do not collide holds the chunks it was made of. -/
theorem mem_NewSet (hinj : ∀ c ∈ l, ∀ d ∈ l, hash c = hash d → c = d)
    (d : Chunk) : d ∈ NewSet hash l ↔ d ∈ l := by
  -- the part already inserted is a part of `l`, so the hypothesis covers it
  suffices h : ∀ (rest done : List Chunk), (∀ c ∈ done ++ rest, c ∈ l) →
      (d ∈ rest.foldl (insertChunk hash) done ↔ d ∈ done ∨ d ∈ rest) by
    simpa [NewSet] using h l [] (by simp)
  intro rest
  induction rest with
  | nil => simp
  | cons c rest ih =>
    intro done hsub
    have hc : c ∈ l := hsub c (by simp)
    have hmem : ∀ e, e ∈ insertChunk hash done c ↔ e ∈ done ∨ e = c := fun e =>
      mem_insertChunk hash fun e' he' => hinj e' (hsub e' (by simp [he'])) c hc
    rw [List.foldl_cons, ih]
    · rw [hmem, List.mem_cons, or_assoc]
    · intro e he
      rcases List.mem_append.1 he with he | he
      · rcases (hmem e).1 he with he | rfl
        · exact hsub e (by simp [he])
        · exact hc
      · exact hsub e (by simp [he])

end ChunkSet

/-! ### The whole state -/

section Reload

variable {H : Type} [DecidableEq H] (hash : Chunk → H)

/-- The state the next process loads. -/
def State.reload (st : State) : State := st.MarshalJSON.load hash

def Entry.reload : Entry → Entry
  | .value v => .value v.reload
  | .chunks set => .chunks (NewSet hash (set.map Chunk.reload))

def StreamState.reload (s : StreamState) : StreamState := s.MarshalJSON.UnmarshalJSON hash

theorem Entry.unmarshal_marshal (e : Entry) : e.marshal.unmarshal hash = e.reload hash := by
  cases e with
  | value v => rfl
  | chunks set =>
    show Entry.chunks (NewSet hash ((set.map fun c => (c.min.marshal, c.max.marshal)).map
      loadChunk)) = .chunks (NewSet hash (set.map Chunk.reload))
    rw [List.map_map]
    rfl

theorem lookup_map_snd {α β : Type} (f : α → β) (key : String) (l : List (String × α)) :
    (l.map fun p => (p.1, f p.2)).lookup key = (l.lookup key).map f := by
  induction l with
  | nil => rfl
  | cons p l ih =>
    rw [List.map_cons, List.lookup_cons, List.lookup_cons]
    split
    · rfl
    · exact ih

theorem StreamState.load_reload (s : StreamState) (key : String) :
    (s.reload hash).load key = (s.load key).map (Entry.reload hash) := by
  unfold load reload MarshalJSON SavedStream.UnmarshalJSON
  rw [lookup_map_snd, lookup_map_snd, Option.map_map]
  exact congrArg (Option.map · _) (funext fun e => e.unmarshal_marshal hash)

variable {id : StreamID} {st : State}

theorem State.find_eq_some : st.find id = some s ↔ s ∈ st.streams ∧ s.id = id := by
  constructor
  · intro h
    have hid := List.find?_some h
    exact ⟨List.mem_of_find?_eq_some h, of_decide_eq_true hid⟩
  · rintro ⟨hs, rfl⟩
    cases hf : st.find s.id with
    | none =>
      have hne := List.find?_eq_none.1 hf s hs
      simp at hne
    | some t =>
      have ht : t ∈ st.streams := List.mem_of_find?_eq_some hf
      have hid := List.find?_some hf
      rw [List.inj_on_of_nodup_map st.nodup ht hs (of_decide_eq_true hid)]

variable {set : List Chunk}

theorem State.find_reload :
    (st.reload hash).find id = some t ↔
      ∃ s, st.find id = some s ∧ s.holdsValue ∧ t = s.reload hash := by
  unfold reload MarshalJSON StateFile.load
  simp only [List.map_map, List.mem_map, List.mem_filter, find_eq_some]
  constructor
  · rintro ⟨⟨s, ⟨hs, hv⟩, rfl⟩, hid⟩
    exact ⟨s, ⟨hs, hid⟩, hv, rfl⟩
  · rintro ⟨s, ⟨hs, hid⟩, hv, rfl⟩
    exact ⟨⟨s, ⟨hs, hv⟩, rfl⟩, hid⟩

/-- Every key of every stream holds after loading what it held, reloaded: the
streams that are not saved hold nothing. -/
theorem State.load_reload (st : State) (id : StreamID) (key : String) :
    (((st.reload hash).find id).bind fun s => s.load key) =
      ((st.find id).bind fun s => s.load key).map (Entry.reload hash) := by
  cases hf : st.find id with
  | none =>
    cases hr : (st.reload hash).find id with
    | none => rfl
    | some t =>
      obtain ⟨s, hs, -⟩ := (find_reload hash).1 hr
      rw [hf] at hs
      cases hs
  | some s =>
    cases hv : s.holdsValue with
    | true =>
      rw [(find_reload hash).2 ⟨s, hf, hv, rfl⟩]
      exact s.load_reload hash key
    | false =>
      have hnone : (st.reload hash).find id = none := by
        rw [Option.eq_none_iff_forall_not_mem]
        intro t ht
        obtain ⟨s', hs', hv', -⟩ := (find_reload hash).1 ht
        rw [hf] at hs'
        cases hs'
        rw [hv] at hv'
        cases hv'
      rw [hnone]
      simp [StreamState.load, s.holds hv]

theorem State.GetCursor_reload (st : State) (id : StreamID) (key : String) :
    (st.reload hash).GetCursor id key = (st.GetCursor id key).map (Entry.reload hash) := by
  unfold GetCursor
  split
  · rfl
  · exact st.load_reload hash id key

theorem State.GetChunks_reload (st : State) (id : StreamID) :
    (st.reload hash).GetChunks id =
      (st.GetChunks id).map fun set => NewSet hash (set.map Chunk.reload) := by
  unfold GetChunks
  rw [st.load_reload]
  cases (st.find id).bind fun s => s.load ChunksKey with
  | none => rfl
  | some e => cases e <;> rfl

/-- The hash keeps the loaded chunks of a set apart. -/
def NoCollision (set : List Chunk) : Prop :=
  ∀ c ∈ set, ∀ d ∈ set, hash c.reload = hash d.reload → c.reload = d.reload

theorem mem_NewSet_reload (h : NoCollision hash set) (d : Chunk) :
    d ∈ NewSet hash (set.map Chunk.reload) ↔ ∃ c ∈ set, c.reload = d := by
  rw [mem_NewSet hash, List.mem_map]
  intro c hc e he
  obtain ⟨c', hc', rfl⟩ := List.mem_map.1 hc
  obtain ⟨e', he', rfl⟩ := List.mem_map.1 he
  exact h c' hc' e' he'

/-! ### What is preserved -/

/-- Every cursor, also read back as the type of its column, and every chunk bound
is after loading the source value it was when saved. -/
structure Preserved (st : State) : Prop where
  cursors : ∀ id key v, st.GetCursor id key = some (.value v) →
    ∃ v', (st.reload hash).GetCursor id key = some (.value v') ∧ v'.source = v.source ∧
      ReformatValue v.column v' = ReformatValue v.column v
  chunks : ∀ id set, st.GetChunks id = some set →
    ∃ set', (st.reload hash).GetChunks id = some set' ∧
      ∀ b, b ∈ set'.map Chunk.source ↔ b ∈ set.map Chunk.source

/-- Every cursor and every chunk bound of the state is a number of at most 53
significant bits, a text in UTF-8 or a list of such texts. -/
structure FileHolds (st : State) : Prop where
  cursors : ∀ id key v, st.GetCursor id key = some (.value v) → v.source.Exact
  chunks : ∀ id set, st.GetChunks id = some set →
    ∀ c ∈ set, c.min.source.Exact ∧ c.max.source.Exact

theorem sources_preserved (hcol : NoCollision hash set)
    (hex : ∀ c ∈ set, c.min.source.Exact ∧ c.max.source.Exact) (b : Source × Source) :
    b ∈ (NewSet hash (set.map Chunk.reload)).map Chunk.source ↔ b ∈ set.map Chunk.source := by
  simp only [List.mem_map, mem_NewSet_reload hash hcol]
  constructor
  · rintro ⟨_, ⟨c, hc, rfl⟩, rfl⟩
    exact ⟨c, hc, (Chunk.source_reload.2 (hex c hc)).symm⟩
  · rintro ⟨c, hc, rfl⟩
    exact ⟨c.reload, ⟨c, hc, rfl⟩, Chunk.source_reload.2 (hex c hc)⟩

/-- What a loaded set stands for, the file can hold; so a set it stands for after
loading has no other bounds. -/
theorem exact_of_sources_preserved (hcol : NoCollision hash set)
    (h : ∀ b, b ∈ (NewSet hash (set.map Chunk.reload)).map Chunk.source ↔
      b ∈ set.map Chunk.source) : ∀ c ∈ set, c.min.source.Exact ∧ c.max.source.Exact := by
  intro c hc
  have hmem := (h c.source).2 (List.mem_map.2 ⟨c, hc, rfl⟩)
  obtain ⟨_, hd, heq⟩ := List.mem_map.1 hmem
  obtain ⟨d, -, rfl⟩ := (mem_NewSet_reload hash hcol _).1 hd
  simp only [Chunk.source, Chunk.reload, Bound.reload_reload, Prod.mk.injEq] at heq
  rw [← heq.1, ← heq.2]
  exact ⟨d.min.source_reload_exact, d.max.source_reload_exact⟩

/-- Loading a saved state preserves all cursors and bounds exactly when the file can
hold each of them. -/
theorem preserved_iff (st : State)
    (hcol : ∀ id set, st.GetChunks id = some set → NoCollision hash set) :
    Preserved hash st ↔ FileHolds st := by
  constructor
  · intro h
    constructor
    · intro id key v hv
      obtain ⟨v', hv', hsrc, -⟩ := h.cursors id key v hv
      rw [st.GetCursor_reload, hv] at hv'
      cases hv'
      exact Value.source_reload.1 hsrc
    · intro id set hset
      obtain ⟨set', hset', hsrc⟩ := h.chunks id set hset
      rw [st.GetChunks_reload, hset] at hset'
      cases hset'
      exact exact_of_sources_preserved hash (hcol id set hset) hsrc
  · intro h
    constructor
    · intro id key v hv
      refine ⟨v.reload, ?_, Value.source_reload.2 (h.cursors id key v hv),
        Value.reformat_reload (h.cursors id key v hv)⟩
      rw [st.GetCursor_reload, hv]
      rfl
    · intro id set hset
      refine ⟨_, ?_, sources_preserved hash (hcol id set hset) (h.chunks id set hset)⟩
      rw [st.GetChunks_reload, hset]
      rfl

end Reload

/-- A state with the given integer as the cursor of a stream. -/
def cursorState (n : Int64) : State :=
  State.empty.SetCursor ⟨"public", "orders"⟩ "id" (.int64 n)

theorem preserved_small_cursor : Preserved id (cursorState 42) ↔ FileHolds (cursorState 42) :=
  preserved_iff id (cursorState 42) fun _ _ _ _ _ _ _ h => h

/-- The cursor `2 ^ 53 + 1` is loaded as `2 ^ 53`. -/
theorem cursor_not_preserved : ¬ Preserved id (cursorState 9007199254740993) := by
  intro h
  have hget : (cursorState 9007199254740993).GetCursor ⟨"public", "orders"⟩ "id" =
      some (.value (.int64 9007199254740993)) := by decide
  obtain ⟨v', hv', hsrc, -⟩ := h.cursors _ _ _ hget
  cases hv'
  revert hsrc
  decide

end Olake
