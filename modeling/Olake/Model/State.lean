/-
The state file (types/state.go, types/set.go): the cursors and the pending chunks
of every stream, and what saving them to JSON and loading them again makes of them.

Cursor values and chunk bounds are dynamically typed.  A driver puts strings,
64-bit integers and lists of file keys there; the JSON they are saved as has only
strings, numbers and lists, and is decoded without a type, so a number comes back
as a float64.  Strings are byte strings, which the encoder turns into UTF-8.

Only what the chunks and the cursors need is modelled: the type and version of the
state and its global part are left out, and a loaded `float64` is always integral
because no driver stores a fraction here.
-/
import Olake.Lib.Utf8
import Olake.Lib.Binary64

namespace Olake

open Binary64 Utf8

/-- A Go string. -/
abbrev Bytes := List UInt8

instance lawfulBytes : LawfulBEq Bytes := inferInstance

/-! ### Values -/

/-- A float64 whose value is an integer. -/
structure Float64 where
  val : Int
  exact : round val.natAbs = val.natAbs
deriving DecidableEq

/-- The float64 a number in JSON is decoded to. -/
def Float64.ofInt (n : Int) : Float64 where
  val := n.sign * round n.natAbs
  exact := by
    have : (n.sign * round n.natAbs).natAbs = round n.natAbs := by
      rcases lt_trichotomy n 0 with h | rfl | h
      · simp [Int.sign_eq_neg_one_of_neg h]
      · rfl
      · simp [Int.sign_eq_one_of_pos h]
    rw [this, round_round]

inductive Value where
  | null
  | str (s : Bytes)
  | int64 (n : Int64)
  | float64 (x : Float64)
deriving DecidableEq

/-- A chunk bound: a value, or the keys of the files of an S3 chunk, which are a
`[]string` when freshly split and an `[]interface{}` when loaded. -/
inductive Bound where
  | value (v : Value)
  | strings (keys : List Bytes)
  | anys (keys : List Bytes)
deriving DecidableEq

structure Chunk where
  min : Bound
  max : Bound
deriving DecidableEq

/-- What a value or a bound stands for at the source. -/
inductive Source where
  | null
  | number (n : Int)
  | text (s : Bytes)
  | files (keys : List Bytes)
deriving DecidableEq

def Value.source : Value → Source
  | .null => .null
  | .str s => .text s
  | .int64 n => .number n.toInt
  | .float64 x => .number x.val

def Bound.source : Bound → Source
  | .value v => v.source
  | .strings keys => .files keys
  | .anys keys => .files keys

def Chunk.source (c : Chunk) : Source × Source := (c.min.source, c.max.source)

/-! ### JSON

The trees that are written; that their text is read back as the same tree is taken
from the JSON package. -/

inductive Json where
  | null
  | num (n : Int)
  | str (s : Bytes)

inductive BoundJson where
  | value (j : Json)
  | arr (l : List Bytes)

/-- `json.Marshal` of a value: strings are coerced to UTF-8, a float64 is written
with the fewest digits that identify it. -/
def Value.marshal : Value → Json
  | .null => .null
  | .str s => .str (toValid s)
  | .int64 n => .num n.toInt
  | .float64 x => .num (x.val.sign * shortest x.val.natAbs)

def Bound.marshal : Bound → BoundJson
  | .value v => .value v.marshal
  | .strings keys => .arr (keys.map toValid)
  | .anys keys => .arr (keys.map toValid)

/-- `json.Unmarshal` into an `interface{}`. -/
def Json.unmarshal : Json → Value
  | .null => .null
  | .num n => .float64 (.ofInt n)
  | .str s => .str s

def BoundJson.unmarshal : BoundJson → Bound
  | .value j => .value j.unmarshal
  | .arr l => .anys l

/-- A cursor value that went to the file and back. -/
def Value.reload (v : Value) : Value := v.marshal.unmarshal

def Bound.reload (b : Bound) : Bound := b.marshal.unmarshal

/-- The chunks of a loaded stream are marshalled and unmarshalled once more, from
the `interface{}` the first decoding left, into the type `Chunk`. -/
def Chunk.reload (c : Chunk) : Chunk :=
  { min := c.min.reload.reload, max := c.max.reload.reload }

/-! ### Sets of chunks

`Set[Chunk]` keeps its elements under a hash; an element whose hash is already
there is not inserted. -/

section ChunkSet

variable {H : Type} [DecidableEq H] (hash : Chunk → H)

/-- `Set.Insert`. -/
def insertChunk (set : List Chunk) (c : Chunk) : List Chunk :=
  if hash c ∈ set.map hash then set else set ++ [c]

def NewSet (chunks : List Chunk) : List Chunk :=
  chunks.foldl (insertChunk hash) []

/-- `Set.Remove`. -/
def removeChunk (set : List Chunk) (c : Chunk) : List Chunk :=
  set.filter fun d => hash d ≠ hash c

end ChunkSet

/-! ### The state of a stream -/

def ChunksKey : String := "chunks"

/-- What a key of a stream's state holds. -/
inductive Entry where
  | value (v : Value)
  | chunks (set : List Chunk)
deriving DecidableEq

/-- `stream.Namespace()` and `stream.Name()`. -/
structure StreamID where
  ns : String
  name : String
deriving DecidableEq, Repr

/-- `StreamState`.  A stream whose state holds something says so, since only such
streams are saved. -/
structure StreamState where
  id : StreamID
  holdsValue : Bool
  state : List (String × Entry)
  nodup : (state.map Prod.fst).Nodup
  holds : holdsValue = false → state = []

/-- `State.Load` of the stream's `sync.Map`. -/
def StreamState.load (s : StreamState) (key : String) : Option Entry :=
  s.state.lookup key

/-- `State.Store`, with `HoldsValue.Store(true)`. -/
def StreamState.store (s : StreamState) (key : String) (e : Entry) : StreamState where
  id := s.id
  holdsValue := true
  state := s.state.filter (fun p => p.1 ≠ key) ++ [(key, e)]
  nodup := by
    rw [List.map_append, List.nodup_append]
    refine ⟨s.nodup.sublist (List.filter_sublist.map _), by simp, ?_⟩
    intro a ha b hb hab
    simp only [List.map_cons, List.map_nil, List.mem_singleton] at hb
    obtain ⟨p, hp, rfl⟩ := List.mem_map.1 ha
    simp [hab, hb] at hp
  holds := by simp

def initStreamState (id : StreamID) : StreamState where
  id := id
  holdsValue := false
  state := []
  nodup := List.nodup_nil
  holds _ := rfl

/-! ### The state -/

/-- `State.Streams`: at most one entry for a stream. -/
structure State where
  streams : List StreamState
  nodup : (streams.map StreamState.id).Nodup

variable (st : State)

namespace State

def empty : State := ⟨[], List.nodup_nil⟩

variable (id : StreamID)

/-- The entry of a stream, by `utils.ArrayContains`. -/
def find : Option StreamState :=
  st.streams.find? fun s => s.id = id

def update (f : StreamState → StreamState) (hf : ∀ s, (f s).id = s.id) : State where
  streams := st.streams.map fun s => if s.id = id then f s else s
  nodup := by
    have hid : (StreamState.id ∘ fun s => if s.id = id then f s else s) = StreamState.id := by
      funext s
      dsimp only [Function.comp_apply]
      split
      · exact hf s
      · rfl
    rw [List.map_map, hid]
    exact st.nodup

/-- The common part of `SetCursor` and `SetChunks`: store under the key in the
stream's entry, which is appended if there is none. -/
def store (key : String) (e : Entry) : State :=
  match h : st.find id with
  | some _ => st.update id (fun s => s.store key e) fun _ => rfl
  | none =>
    { streams := st.streams ++ [(initStreamState id).store key e]
      nodup := by
        rw [List.map_append, List.nodup_append]
        refine ⟨st.nodup, by simp, ?_⟩
        intro a ha b hb hab
        obtain ⟨s, hs, rfl⟩ := List.mem_map.1 ha
        simp only [List.map_cons, List.map_nil, List.mem_singleton] at hb
        have hne := List.find?_eq_none.1 h s hs
        exact hne (decide_eq_true (hab.trans hb)) }

def GetCursor (key : String) : Option Entry :=
  if key = "" then none
  else (st.find id).bind fun s => s.load key

def SetCursor (key : String) (v : Value) : State :=
  if key = "" then st else st.store id key (.value v)

def GetChunks : Option (List Chunk) :=
  match (st.find id).bind fun s => s.load ChunksKey with
  | some (.chunks set) => some set
  | _ => none

/-- `SetChunks`; a full refresh keeps no chunks in the state. -/
def SetChunks (fullRefresh : Bool) (set : List Chunk) : State :=
  if fullRefresh then st else st.store id ChunksKey (.chunks set)

end State

/-! ### Saving and loading -/

/-- A saved entry: the chunks are a list of objects with the fields min and max. -/
inductive SavedEntry where
  | value (j : Json)
  | chunks (l : List (BoundJson × BoundJson))

/-- A saved stream; its state is a JSON object. -/
structure SavedStream where
  id : StreamID
  state : List (String × SavedEntry)
  nodup : (state.map Prod.fst).Nodup

structure StateFile where
  streams : List SavedStream
  nodup : (streams.map SavedStream.id).Nodup

def Entry.marshal : Entry → SavedEntry
  | .value v => .value v.marshal
  | .chunks set => .chunks (set.map fun c => (c.min.marshal, c.max.marshal))

def StreamState.MarshalJSON (s : StreamState) : SavedStream where
  id := s.id
  state := s.state.map fun p => (p.1, p.2.marshal)
  nodup := by simpa [Function.comp_def] using s.nodup

/-- `State.MarshalJSON`: the streams that hold a value. -/
def State.MarshalJSON : StateFile where
  streams := (st.streams.filter StreamState.holdsValue).map StreamState.MarshalJSON
  nodup := by
    rw [List.map_map]
    exact st.nodup.sublist (List.filter_sublist.map _)

section Load

variable {H : Type} [DecidableEq H] (hash : Chunk → H)

/-- A decoded chunk marshalled and decoded a second time, into `Chunk`. -/
def loadChunk (j : BoundJson × BoundJson) : Chunk :=
  { min := j.1.unmarshal.reload, max := j.2.unmarshal.reload }

/-- An entry of a loaded stream; the chunks are put into a new set. -/
def SavedEntry.unmarshal : SavedEntry → Entry
  | .value j => .value j.unmarshal
  | .chunks l => .chunks (NewSet hash (l.map loadChunk))

def SavedStream.UnmarshalJSON (f : SavedStream) : StreamState where
  id := f.id
  holdsValue := !f.state.isEmpty
  state := f.state.map fun p => (p.1, p.2.unmarshal hash)
  nodup := by simpa [Function.comp_def] using f.nodup
  holds := by simp

def StateFile.load (f : StateFile) : State where
  streams := f.streams.map (SavedStream.UnmarshalJSON hash)
  nodup := by
    rw [List.map_map]
    exact f.nodup

end Load

/-! ### Reading a cursor back -/

/-- The types of the cursor columns that hold integers and strings. -/
inductive DataType where
  | int64
  | string

/-- The digits of `strconv.ParseInt`, with the number read so far. -/
def parseDigits : Int → Bytes → Option Int
  | n, [] => some n
  | n, c :: s => if 48 ≤ c ∧ c ≤ 57 then parseDigits (10 * n + (c.toNat - 48)) s else none

/-- `strconv.ParseInt(s, 10, 64)`. -/
def parseInt (s : Bytes) : Option Int64 :=
  let n := match s with
    | [] => none
    | 45 :: t => if t = [] then none else (parseDigits 0 t).map (- ·)
    | 43 :: t => if t = [] then none else parseDigits 0 t
    | s => parseDigits 0 s
  n.bind fun n => if -2 ^ 63 ≤ n ∧ n < 2 ^ 63 then some (.ofInt n) else none

def printInt (n : Int) : Bytes :=
  if n < 0 then 45 :: decimal n.natAbs else decimal n.natAbs

/-- The `%v` form of a float64. -/
def Float64.print (x : Float64) : Bytes :=
  if x.val < 0 then 45 :: general x.val.natAbs else general x.val.natAbs

/-- `ReformatValue` of a cursor value to the type of the cursor column. -/
def ReformatValue : DataType → Value → Option Value
  | _, .null => some .null
  | .int64, .int64 n => some (.int64 n)
  | .int64, .float64 x => some (.int64 (.ofInt x.val))
  | .int64, .str s => (parseInt s).map .int64
  | .string, .int64 n => some (.str (printInt n.toInt))
  | .string, .float64 x => some (.str x.print)
  | .string, .str s => some (.str s)

end Olake
