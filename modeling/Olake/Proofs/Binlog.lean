/-
What is read back from the column metadata of the binlog.

The scanner takes the character behind a backslash as it is, so the escapes of a newline, a carriage
return and a NUL come out as letters (`unescaped`).  The mask of `unsignedMap` moves with the numeric
columns, so what it has not passed yet are the bits of the numeric columns to come.
-/
import Mathlib.Data.Nat.Bitwise
import Mathlib.Tactic
import Olake.Model.Binlog

namespace Olake.Binlog

/-! ### Members -/

/-- How MySQL writes a character of a member. -/
def escape (ch : Char) : List Char :=
  if ch = '\'' then ['\'', '\'']
  else if ch = '\\' then ['\\', '\\']
  else if ch = '\n' then ['\\', 'n']
  else if ch = '\r' then ['\\', 'r']
  else if ch = '\x00' then ['\\', '0']
  else [ch]

def quoteMember (member : List Char) : List Char := '\'' :: member.flatMap escape ++ ['\'']

/-- A column type as MySQL renders it. -/
def render (set : Bool) (members : List (List Char)) : List Char :=
  (if set then ['s', 'e', 't'] else ['e', 'n', 'u', 'm']) ++
    '(' :: ([','].intercalate (members.map quoteMember) ++ [')'])

def unescaped (ch : Char) : Char :=
  if ch = '\n' then 'n' else if ch = '\r' then 'r' else if ch = '\x00' then '0' else ch

theorem scan_escape (hbody : body ≠ []) (ch : Char) :
    scanMembers members cur true (escape ch ++ body) =
      scanMembers members (cur ++ [unescaped ch]) true body := by
  obtain ⟨next, body, rfl⟩ := List.exists_cons_of_ne_nil hbody
  unfold escape unescaped
  split_ifs <;> simp_all [scanMembers]

theorem scan_quoteMember (member : List Char) (h : body.head? ≠ some '\'') :
    scanMembers members [] false (quoteMember member ++ body) =
      scanMembers (members ++ [member.map unescaped]) [] false body := by
  have hscan : ∀ cur, scanMembers members cur true (member.flatMap escape ++ '\'' :: body) =
      scanMembers (members ++ [cur ++ member.map unescaped]) [] false body := by
    induction member with
    | nil => cases body <;> simp_all [scanMembers]
    | cons ch member ih =>
      intro cur
      rw [List.flatMap_cons, List.append_assoc, scan_escape (by simp), ih]
      simp
  simpa [quoteMember, scanMembers] using hscan []

theorem scan_members (members seen : List (List Char)) :
    scanMembers seen [] false ([','].intercalate (members.map quoteMember)) =
      seen ++ members.map (·.map unescaped) := by
  induction members generalizing seen with
  | nil => simp [scanMembers]
  | cons member members ih =>
    cases members with
    | nil =>
      have hscan : scanMembers seen [] false (quoteMember member ++ []) = _ :=
        scan_quoteMember member (by simp)
      simpa [scanMembers] using hscan
    | cons member' members =>
      rw [List.map_cons, List.map_cons, List.intercalate_cons_cons, List.append_assoc,
        scan_quoteMember _ (by simp), List.singleton_append, scanMembers]
      simpa using ih (seen ++ [member.map unescaped])

theorem parse_render (set : Bool) (members : List (List Char)) :
    parseEnumSetMembers (render set members) = members.map (·.map unescaped) := by
  have hdrop : (render set members).dropWhile (· ≠ '(') =
      '(' :: ([','].intercalate (members.map quoteMember) ++ [')']) := by
    cases set <;> rfl
  rw [parseEnumSetMembers, hdrop]
  simp [scan_members]

theorem map_eq_self_iff {α : Type} {f : α → α} {l : List α} : l.map f = l ↔ ∀ x ∈ l, f x = x := by
  simpa using List.map_eq_map_iff (f := f) (g := id) (l := l)

theorem parseEnumSetMembers_render_iff (set : Bool) (members : List (List Char)) :
    parseEnumSetMembers (render set members) = members ↔
      ∀ member ∈ members, ∀ ch ∈ member, ch ≠ '\n' ∧ ch ≠ '\r' ∧ ch ≠ '\x00' := by
  have hsame : ∀ ch, unescaped ch = ch ↔ ch ≠ '\n' ∧ ch ≠ '\r' ∧ ch ≠ '\x00' := by
    intro ch
    unfold unescaped
    split_ifs <;> simp_all
  simp only [parse_render, map_eq_self_iff, hsame]

theorem newline_lost :
    parseEnumSetMembers (render false [['a', '\n', 'b']]) ≠ [['a', '\n', 'b']] := by
  decide

/-! ### Signedness -/

/-- The lowest `p` bits, the most significant first. -/
def lowBits (field : UInt8) : Nat → List Bool
  | 0 => []
  | p + 1 => field.toNat.testBit p :: lowBits field p

def bits (bitmap : List UInt8) : List Bool := bitmap.flatMap (lowBits · 8)

/-- The bit for a column: numeric columns are counted. -/
def bitOf (columns : List ColumnType) (bits : List Bool) (i : Nat) : Option Bool :=
  if (columns[i]?).any isNumericColumn then bits[(columns.take i).countP isNumericColumn]? else none

theorem mask_ne_zero (n p : Nat) : decide (n &&& 2 ^ p ≠ 0) = n.testBit p := by
  rw [Nat.and_two_pow]
  cases n.testBit p <;> simp

theorem bitOf_succ (type : ColumnType) (columns : List ColumnType) (left : List Bool) (i : Nat) :
    bitOf (type :: columns) left (i + 1) =
      bitOf columns (if isNumericColumn type then left.tail else left) i := by
  cases h : isNumericColumn type <;> simp [bitOf, h]

theorem entries_cons (next : Option (List (Option Bool)))
    (hnext : ∃ ret, next = some ret ∧
      ∀ i, ret[i]?.join = bitOf columns (if isNumericColumn type then left.tail else left) i) :
    ∃ ret, next.map (bitOf (type :: columns) left 0 :: ·) = some ret ∧
      ∀ i, ret[i]?.join = bitOf (type :: columns) left i := by
  obtain ⟨ret, rfl, hret⟩ := hnext
  refine ⟨_, rfl, fun i => ?_⟩
  cases i with
  | zero => rfl
  | succ i => rw [bitOf_succ, ← hret i, List.getElem?_cons_succ]

theorem unsignedLoop_spec (hne : columns ≠ [])
    (hlong : columns.countP isNumericColumn ≤ (lowBits field (p + 1) ++ bits bitmap).length) :
    ∃ ret, unsignedLoop columns field bitmap (2 ^ p) = some ret ∧
      ∀ i, ret[i]?.join = bitOf columns (lowBits field (p + 1) ++ bits bitmap) i := by
  induction columns generalizing field bitmap p with
  | nil => exact absurd rfl hne
  | cons type columns ih =>
    have hentry : (if isNumericColumn type then some (decide (field.toNat &&& 2 ^ p ≠ 0)) else none) =
        bitOf (type :: columns) (lowBits field (p + 1) ++ bits bitmap) 0 := by
      rw [mask_ne_zero]
      simp [bitOf, lowBits]
    unfold unsignedLoop
    simp only [hentry]
    by_cases hlast : columns = []
    · subst hlast
      exact entries_cons (some []) ⟨[], rfl, by simp [bitOf]⟩
    rw [if_neg (by simpa using hlast)]
    cases hnumeric : isNumericColumn type with
    | false =>
      rw [if_pos (by simp)]
      refine entries_cons _ ?_
      simpa [hnumeric] using ih hlast (by simpa [hnumeric] using hlong)
    | true =>
      have hleft : columns.countP isNumericColumn ≤ (lowBits field p ++ bits bitmap).length := by
        simpa [hnumeric, lowBits] using hlong
      cases p with
      | succ p =>
        have hmask : 2 ^ (p + 1) >>> 1 = 2 ^ p := by omega
        rw [hmask, if_pos (by simp)]
        refine entries_cons _ ?_
        simpa [hnumeric, lowBits] using ih hlast hleft
      | zero =>
        cases bitmap with
        | nil => exact entries_cons (some []) ⟨[], rfl, by simp [bitOf, hnumeric, lowBits, bits]⟩
        | cons field bitmap =>
          refine entries_cons _ ?_
          simpa [hnumeric, lowBits, bits] using ih (p := 7) hlast (by simpa [bits, lowBits] using hleft)

theorem bits_length (bitmap : List UInt8) : (bits bitmap).length = 8 * bitmap.length := by
  simp [bits, lowBits, Nat.mul_comm]

/-- The table has a column, unless the bitmap is empty: numeric columns and bits go together. -/
theorem unsignedMap_spec (columns : List ColumnType) (bitmap : List UInt8)
    (hcolumns : columns = [] → bitmap = [])
    (hlong : columns.countP isNumericColumn ≤ 8 * bitmap.length) :
    ∃ ret, unsignedMap columns bitmap = some ret ∧ ∀ i, ret[i]?.join = some true ↔
      (columns[i]?).any isNumericColumn ∧
        (bits bitmap)[(columns.take i).countP isNumericColumn]? = some true := by
  cases bitmap with
  | nil => exact ⟨[], rfl, by simp [bits]⟩
  | cons field bitmap =>
    rw [← bits_length] at hlong
    obtain ⟨ret, hret, hentries⟩ :=
      unsignedLoop_spec (p := 7) (fun h => by simpa using hcolumns h) hlong
    refine ⟨ret, hret, fun i => ?_⟩
    rw [hentries i, bitOf]
    split <;> simp_all [bits]

theorem no_column_panics : unsignedMap [] [0x80] = none := rfl

theorem second_numeric_unsigned :
    ∃ ret, unsignedMap [.long, .other 15, .short] [0x40] = some ret ∧ ∀ i, ret[i]?.join = some true ↔
      ([ColumnType.long, .other 15, .short][i]?).any isNumericColumn ∧
        (bits [0x40])[([ColumnType.long, .other 15, .short].take i).countP isNumericColumn]? = some true :=
  unsignedMap_spec _ _ (by simp) (by decide)

end Olake.Binlog
