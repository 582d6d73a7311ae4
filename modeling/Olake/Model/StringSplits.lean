/-
Chunks of text keys (`isStringSupportedPK`, `splitEvenlyForString` and `condenseStrings` of
drivers/mysql/internal/backfill.go).

Keys are numbers of a large base.  Candidates are taken at even steps of such numbers, and the
database answers with keys of the table near them; the steps are made smaller until there are
enough keys, which are then thinned out.  The database and the rounding of floats are parameters.
Lists are short enough for the products of their lengths to be int64s.
-/
import Olake.Lib.Ranges

namespace Olake.StringSplits

/-! ### Texts as numbers -/

def charset : List Char :=
  "0123456789ABCDEFGHIJKLMNOPQRSTUVWXYZabcdefghijklmnopqrstuvwxyz[\\]^_`\x7b|\x7d~!\"#$%&'()*+,-./:;<=>?@ ".toList

/-- `charToIndex`; the indices start at 1. -/
def charToIndex (ch : Char) : Option Nat :=
  if ch ∈ charset then some (charset.idxOf ch + 1) else none

def indexToChar : Nat → Char
  | 0 => '\x00'
  | idx + 1 => charset.getD idx '\x00'

def charsetBase : Nat := charset.length

theorem charsetBase_eq : charsetBase = 95 := by decide

def encodeCharsetStringToBigInt (s : List Char) : Except String Nat :=
  s.foldlM (fun val ch =>
    match charToIndex ch with
    | some idx => .ok (val * charsetBase + idx)
    | none => .error ("unsupported character: " ++ ch.toString)) 0

theorem div_charsetBase_lt (h : x ≠ 0) : x / charsetBase < x := by
  rw [charsetBase_eq]
  omega

/-- The loop of `decodeBigIntToCharsetString`, with the runes it appends. -/
def decodeLoop (x : Nat) : List Char :=
  if x = 0 then []
  else if x % charsetBase = 0 then indexToChar charsetBase :: decodeLoop ((x - 1) / charsetBase)
  else indexToChar (x % charsetBase) :: decodeLoop (x / charsetBase)
termination_by x
decreasing_by
  · exact Nat.lt_of_le_of_lt (Nat.div_le_div_right (Nat.sub_le x 1)) (div_charsetBase_lt ‹_›)
  · exact div_charsetBase_lt ‹_›

def decodeBigIntToCharsetString (n : Nat) : List Char := (decodeLoop n).reverse

/-! ### Chunks -/

structure StringChunkBounds where
  MaxPadded : String
  minEncodedBigIntValue : Nat
  maxEncodedBigIntValue : Nat
  increasing : minEncodedBigIntValue < maxEncodedBigIntValue

def padRightWithZeroes (s : String) (maxLength : Nat) : String :=
  if maxLength ≤ s.toList.length then s
  else s ++ String.ofList (List.replicate (maxLength - s.toList.length) '0')

/-- `isStringSupportedPK`, for the texts of the least and the greatest key. -/
def isStringSupportedPK (minVal maxVal : String) (dataMaxLength : Option Nat) (dataType : String) :
    Option StringChunkBounds :=
  if dataType ≠ "char" ∧ dataType ≠ "varchar" then none
  else dataMaxLength.bind fun maxLength =>
    match encodeCharsetStringToBigInt (padRightWithZeroes minVal maxLength).toList,
      encodeCharsetStringToBigInt (padRightWithZeroes maxVal maxLength).toList with
    | .ok lo, .ok hi =>
      if h : lo < hi then some ⟨padRightWithZeroes maxVal maxLength, lo, hi, h⟩ else none
    | _, _ => none

/-- The answer to `MySQLDistinctAlignedPKValuesWithCollationQuery`. -/
inductive Answer where
  | failed (err : String)
  | rows (values : List String)
  | scanFailed (err : String)
  | rowsFailed (err : String)

/-- What the splitter asks for. -/
structure Env where
  streamID : String
  /-- `int64(math.Ceil(float64(size) / float64(constants.EffectiveParquetSize)))`. -/
  expected : Int → Int
  /-- `int(math.Ceil(constants.MysqlChunkAcceptanceRatio * float64(n)))`. -/
  accepted : Nat → Nat
  accepted_pos : ∀ n, 0 < n → 0 < accepted n
  query : List String → Answer

/-- The place of the `i`-th of the chosen elements. -/
def condensedIndex (numCandidateBoundaries expectedChunks i : Nat) : Nat :=
  (i * (numCandidateBoundaries - 1) + (expectedChunks - 1) / 2) / (expectedChunks - 1)

theorem condensedIndex_lt (h : E < n) (hi : i < E) : condensedIndex n E i < n := by
  have hle : i * (n - 1) ≤ (E - 1) * (n - 1) := Nat.mul_le_mul_right _ (by omega)
  by_cases hone : E - 1 = 0
  · rw [condensedIndex, hone, Nat.div_zero]
    omega
  · have hmul : (E - 1) * n = (E - 1) * (n - 1) + (E - 1) := by
      rw [← Nat.mul_succ, Nat.succ_eq_add_one, Nat.sub_add_cancel (by omega)]
    exact Nat.div_lt_of_lt_mul (by omega)

def condenseStrings {α : Type} (candidateBoundaries : List α) (expectedChunks : Nat) : List α :=
  if h : candidateBoundaries.length ≤ expectedChunks then candidateBoundaries
  else if expectedChunks = 1 then candidateBoundaries.take 1
  else List.ofFn fun i : Fin expectedChunks =>
    candidateBoundaries.get ⟨_, condensedIndex_lt (Nat.lt_of_not_le h) i.isLt⟩

variable (env : Env) (bounds : StringChunkBounds)

/-- The candidates from `currentBoundary` on, at most so many. -/
def candidates (adjustedStepSize : Nat) : Nat → Nat → List String
  | 0, _ => []
  | left + 1, currentBoundary =>
    if currentBoundary < bounds.maxEncodedBigIntValue then
      String.ofList (decodeBigIntToCharsetString currentBoundary) ::
        candidates adjustedStepSize left (currentBoundary + adjustedStepSize)
    else []

/-- One attempt asks for the keys near its candidates. -/
def attempt (stringChunkStepSize expectedChunks stepShrinkFactor : Nat) : Answer :=
  let adjustedStepSize := (stringChunkStepSize + stepShrinkFactor) / (stepShrinkFactor + 1)
  env.query (candidates bounds adjustedStepSize (expectedChunks * (stepShrinkFactor + 1))
    bounds.minEncodedBigIntValue ++ [bounds.MaxPadded])

/-- The attempts, and the longest answer so far.  The error is that of the query that ended them. -/
def attempts (stringChunkStepSize expectedChunks : Nat) :
    List Nat → List String → Except String (List String × Option String)
  | [], chunkBoundaries => .ok (chunkBoundaries, none)
  | stepShrinkFactor :: rest, chunkBoundaries =>
    match attempt env bounds stringChunkStepSize expectedChunks stepShrinkFactor with
    | .failed err => .ok (chunkBoundaries,
        some ("distinct boundary query failed for stream " ++ env.streamID ++ ": " ++ err))
    | .scanFailed err => .error ("failed to scan row: " ++ err)
    | .rowsFailed err => .error ("row iteration error during distinct boundaries iteration: " ++ err)
    | .rows values =>
      let chunkBoundaries := if chunkBoundaries.length < values.length then values else chunkBoundaries
      if expectedChunks ≤ values.length then .ok (chunkBoundaries, none)
      else attempts stringChunkStepSize expectedChunks rest chunkBoundaries

/-- The powers of two up to a million. -/
def stepShrinkFactors : List Nat := (List.range 20).map (Nat.pow 2)

def splitEvenlyForString (approxTableSize : Int) : Except String (List (Option String × Option String)) :=
  let expectedChunks := if env.expected approxTableSize ≤ 0 then 1 else (env.expected approxTableSize).toNat
  let stringChunkStepSize :=
    (bounds.maxEncodedBigIntValue - bounds.minEncodedBigIntValue + (expectedChunks - 1)) / expectedChunks
  match attempts env bounds stringChunkStepSize expectedChunks stepShrinkFactors [] with
  | .error err => .error err
  | .ok (chunkBoundaries, boundaryQueryErr) =>
    if chunkBoundaries.length < env.accepted expectedChunks then
      .error (boundaryQueryErr.getD "insufficient string chunk boundaries generated")
    else .ok (Ranges.ranges (condenseStrings chunkBoundaries expectedChunks))

end Olake.StringSplits
