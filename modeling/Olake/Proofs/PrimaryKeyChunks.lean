/-
Which rows satisfy the conditions of the chunks.

A row without NULLs is at or above the key that a boundary is read back as, or it is
not (`Above`), and the condition of a chunk asks just that of its two bounds
(`satisfies_iff`).  So the range library tells when exactly one condition holds.  What
the splitter adds is that each boundary is the key of a row, that no boundary comes
twice because the walk would never end, and that a row picked behind a boundary lies
beyond it, if its text is read back as it was.

A row with a NULL chunk column satisfies no condition at all.
-/
import Mathlib.Data.Char
import Olake.Lib.Walks
import Olake.Model.PrimaryKeyChunks

namespace Olake.PrimaryKey

open Sql List

variable {α : Type}

/-! ### Rows without NULLs -/

def Row.key (r : Row α) : List α := r.filterMap (Option.map Cell.key)

def Row.texts (r : Row α) : List Text := r.filterMap (Option.map Cell.text)

variable {r : Row α}

theorem exists_cells (h : none ∉ r) : ∃ cells : List (Cell α), r = cells.map some := by
  induction r with
  | nil => exact ⟨[], rfl⟩
  | cons c rest ih =>
    obtain ⟨cells, hcells⟩ := ih (fun hmem => h (mem_cons_of_mem _ hmem))
    cases c with
    | none => exact absurd mem_cons_self h
    | some cell => exact ⟨cell :: cells, by rw [hcells, map_cons]⟩

@[simp] theorem key_map_some (cells : List (Cell α)) :
    Row.key (cells.map some) = cells.map Cell.key := by
  simp [Row.key]

@[simp] theorem texts_map_some (cells : List (Cell α)) :
    Row.texts (cells.map some) = cells.map Cell.text := by
  simp [Row.texts]

theorem keys_of_not_null (h : none ∉ r) : r.keys = r.key.map some := by
  obtain ⟨cells, rfl⟩ := exists_cells h
  simp [Row.keys]

theorem length_key (h : none ∉ r) : r.key.length = r.length := by
  obtain ⟨cells, rfl⟩ := exists_cells h
  simp

theorem length_texts (h : none ∉ r) : r.texts.length = r.length := by
  obtain ⟨cells, rfl⟩ := exists_cells h
  simp

/-- Without NULLs, the two databases join a key the same way. -/
theorem keyText_of_not_null (h : none ∉ r) (hne : r ≠ []) :
    keyText dialect r = some ([','].intercalate r.texts) := by
  obtain ⟨cells, rfl⟩ := exists_cells h
  cases dialect with
  | mysql => rfl
  | mssql =>
    cases cells with
    | nil => exact absurd rfl hne
    | cons cell rest =>
      cases rest with
      | nil => simp [keyText, Row.texts]
      | cons cell' rest =>
        rw [texts_map_some]
        simp [keyText, Function.comp_def]

/-! ### The condition of a chunk -/

theorem boundGroup_ne_nil {L : Type} (op : Comparison) {values : List L}
    (h : column < values.length) : boundGroup op values column ≠ [] := by
  simp [boundGroup, h]

theorem buildBound_eq (h : columns ≤ values.length) (isLower : Bool) :
    buildBound columns values isLower = (List.range columns).map (fun colIdx =>
      boundGroup (if isLower then (if colIdx = columns - 1 then .ge else .gt) else .lt)
        (values.map formatSQLLiteral) colIdx) := by
  have hlen : columns ≤ (values.map formatSQLLiteral).length := by simpa using h
  unfold buildBound
  generalize values.map formatSQLLiteral = literals at hlen ⊢
  rw [map_eq_flatMap]
  apply flatMap_congr
  intro colIdx hmem
  simp [boundGroup_ne_nil _ ((mem_range.1 hmem).trans_le hlen)]

variable [LinearOrder α]

section Conditions

variable (db : Database α) (columns : Nat)

/-- The key that the conditions make of a boundary. -/
def readBack (boundary : Text) : List α :=
  boundKey db.literal columns ((splitBoundaryValues boundary).map formatSQLLiteral)

/-- The row is at or above the boundary. -/
abbrev Above (r : Row α) (boundary : Text) : Prop := readBack db columns boundary ≤ r.key

variable {db columns} {r : Row α}

theorem bound_iff (hr : none ∉ r) (hlen : r.length = columns) (hpos : 0 < columns)
    (hb : columns ≤ (splitBoundaryValues b).length) (isLower : Bool) :
    disjunction db.literal r.keys (buildBound columns (splitBoundaryValues b) isLower) = some true ↔
      if isLower then Above db columns r b else ¬ Above db columns r b := by
  have hk : r.key.length = columns := (length_key hr).trans hlen
  have hb' : r.key.length ≤ ((splitBoundaryValues b).map formatSQLLiteral).length := by
    simpa [hk] using hb
  rw [keys_of_not_null hr, buildBound_eq hb, Above, not_le, ← hk]
  cases isLower with
  | true => exact holds_lower hb' (hk ▸ hpos)
  | false => exact holds_upper hb'

variable {chunk : Option Text × Option Text}

theorem satisfies_iff (hr : none ∉ r) (hlen : r.length = columns) (hpos : 0 < columns)
    (hmin : ∀ b ∈ chunk.1, columns ≤ (splitBoundaryValues b).length)
    (hmax : ∀ b ∈ chunk.2, columns ≤ (splitBoundaryValues b).length) :
    Satisfies db columns r chunk ↔ Ranges.Within (Above db columns r) chunk := by
  obtain ⟨min, max⟩ := chunk
  unfold Satisfies chunkTruth buildLexicographicChunkCondition Ranges.Within
  cases min with
  | none =>
    cases max with
    | none => simp
    | some max => simpa [Truth.and_eq_true] using bound_iff hr hlen hpos (hmax max rfl) false
  | some min =>
    cases max with
    | none => simpa [Truth.and_eq_true] using bound_iff hr hlen hpos (hmin min rfl) true
    | some max =>
      simpa [Truth.and_eq_true] using and_congr (bound_iff hr hlen hpos (hmin min rfl) true)
        (bound_iff hr hlen hpos (hmax max rfl) false)

theorem not_bound_of_null (b : Text) (isLower : Bool) :
    disjunction db.literal (Row.keys [none]) (buildBound 1 (splitBoundaryValues b) isLower) ≠
      some true := by
  rw [Ne, disjunction_eq_true]
  rintro ⟨g, hg, htrue⟩
  rw [conjunction_eq_true] at htrue
  have hpos : 1 ≤ (splitBoundaryValues b).length := by
    rw [splitBoundaryValues, length_map]
    exact length_pos_of_ne_nil (splitOn_ne_nil _ b)
  rw [buildBound_eq hpos] at hg
  obtain ⟨colIdx, hcol, rfl⟩ := mem_map.1 hg
  have hzero : colIdx = 0 := by simpa using mem_range.1 hcol
  subst hzero
  obtain ⟨v, rest, hsplit⟩ := exists_cons_of_length_pos (Nat.lt_of_lt_of_le Nat.one_pos hpos)
  have htrue' := htrue _ (by simp only [boundGroup, hsplit]; simp; rfl)
  cases htrue'

theorem not_satisfies_of_null (h : chunk.1.isSome ∨ chunk.2.isSome)
    : ¬ Satisfies db 1 [none] chunk := by
  obtain ⟨min, max⟩ := chunk
  cases min with
  | some min =>
    intro htrue
    exact not_bound_of_null min true (Truth.and_eq_true.1 htrue).1
  | none =>
    cases max with
    | none => simp at h
    | some max =>
      intro htrue
      exact not_bound_of_null max false (Truth.and_eq_true.1 htrue).1

end Conditions

/-! ### The texts of keys -/

/-- Joined by commas and split again, there are at least as many parts. -/
theorem length_le_splitOn_intercalate (ls : List Text) :
    ls.length ≤ (([','].intercalate ls : Text).splitOn ',').length := by
  induction ls with
  | nil => exact Nat.zero_le _
  | cons l rest ih =>
    have hpos : ∀ t : Text, 0 < (t.splitOn ',').length := fun t =>
      length_pos_of_ne_nil (splitOn_ne_nil _ t)
    cases rest with
    | nil => exact hpos _
    | cons l' rest =>
      have hjoin : ([','].intercalate (l :: l' :: rest) : Text) =
          l ++ ',' :: [','].intercalate (l' :: rest) := by
        simp [intercalate_cons_cons]
      have hsplit : ([','].intercalate (l :: l' :: rest) : Text).splitOn ',' =
          l.splitOn ',' ++ ([','].intercalate (l' :: rest) : Text).splitOn ',' := by
        rw [hjoin]
        exact splitOnP_append_cons l _ (beq_self_eq_true ',')
      rw [hsplit, length_append, length_cons]
      have hl := hpos l
      omega

/-- A key has at least as many parts as there are columns. -/
theorem columns_le_parts {t : Table α} (hr : r ∈ t.rows)
    (hb : keyText dialect r = some b) : t.columns ≤ (b.splitOn ',').length := by
  by_cases hone : 1 < t.columns
  · have hnull := t.not_null hone r hr
    have hlen := t.row_length r hr
    have hne : r ≠ [] := by
      rintro rfl
      simp at hlen
      omega
    rw [keyText_of_not_null hnull hne] at hb
    cases hb
    rw [← hlen, ← length_texts hnull]
    exact length_le_splitOn_intercalate _
  · exact Nat.le_trans (by omega) (length_pos_of_ne_nil (splitOn_ne_nil _ b))

/-! ### The walk -/

section Walk

variable {db : Database α} {dialect : Dialect} {t : Table α} {chunkSize : Nat}

/-- A boundary and the next one: the key of a row behind it. -/
def Follows (db : Database α) (dialect : Dialect) (t : Table α) (b b' : Text) : Prop :=
  t.columns ≤ (walkValues dialect b).length ∧
    ∃ r ∈ rowsBehind db t (walkValues dialect b), keyText dialect r = some b'

theorem nextChunkEnd_follows
    (h : nextChunkEnd db dialect t chunkSize b = some b') : Follows db dialect t b b' := by
  unfold nextChunkEnd at h
  dsimp only at h
  split at h
  · cases h
  · rename_i hlen
    obtain ⟨r, hpick, htext⟩ := Option.bind_eq_some_iff.1 h
    refine ⟨Nat.le_of_not_lt hlen, r, ?_, htext⟩
    unfold pickRow at hpick
    cases dialect with
    | mysql => exact mem_of_getElem? hpick
    | mssql =>
      dsimp only at hpick
      split at hpick
      · cases hpick
      · exact mem_of_getElem? hpick

theorem walk_eq (fuel : Nat) (b : Text) :
    walk db dialect t chunkSize fuel b = Walks.walk (nextChunkEnd db dialect t chunkSize) fuel b := by
  induction fuel generalizing b with
  | zero => rfl
  | succ fuel ih =>
    simp only [walk, Walks.walk, ih]
    cases nextChunkEnd db dialect t chunkSize b <;> rfl

theorem walk_spec (h : walk db dialect t chunkSize fuel b = some bs) :
    (b :: bs).Nodup ∧ (b :: bs).IsChain (Follows db dialect t) := by
  rw [walk_eq] at h
  exact ⟨Walks.walk_nodup h, Walks.walk_isChain (fun _ _ => nextChunkEnd_follows) h⟩

theorem boundary_row (h : splitViaPrimaryKey db dialect t chunkSize fuel = some boundaries)
    (hb : b ∈ boundaries) : ∃ r ∈ t.rows, keyText dialect r = some b := by
  unfold splitViaPrimaryKey at h
  cases hmin : t.rows.head?.bind (keyText dialect) with
  | none =>
    rw [hmin] at h
    cases h
    cases hb
  | some minVal =>
    rw [hmin] at h
    obtain ⟨bs, hwalk, rfl⟩ := Option.map_eq_some_iff.1 h
    obtain ⟨first, hfirst, htext⟩ := Option.bind_eq_some_iff.1 hmin
    rcases mem_cons.1 hb with rfl | hb
    · exact ⟨first, mem_of_head? hfirst, htext⟩
    · -- a later boundary follows another one
      have hchain := (walk_spec hwalk).2
      clear * - hchain hb
      induction bs generalizing minVal with
      | nil => cases hb
      | cons b' rest ih =>
        obtain ⟨⟨-, r, hr, htext⟩, hrest⟩ := isChain_cons_cons.1 hchain
        rcases mem_cons.1 hb with rfl | hb
        · exact ⟨r, (mem_filter.1 hr).1, htext⟩
        · exact ih b' hb hrest

theorem split_cases (h : splitViaPrimaryKey db dialect t chunkSize fuel = some boundaries) :
    t.rows.head?.bind (keyText dialect) = none ∧ boundaries = [] ∨
      boundaries ≠ [] ∧ boundaries.Nodup ∧ boundaries.IsChain (Follows db dialect t) := by
  unfold splitViaPrimaryKey at h
  cases hmin : t.rows.head?.bind (keyText dialect) with
  | none =>
    rw [hmin] at h
    cases h
    exact .inl ⟨rfl, rfl⟩
  | some minVal =>
    rw [hmin] at h
    obtain ⟨bs, hwalk, rfl⟩ := Option.map_eq_some_iff.1 h
    exact .inr ⟨by simp, walk_spec hwalk⟩

end Walk

/-! ### Exactly one chunk -/

/-- Every bound of a chunk is a boundary, and every chunk has one. -/
theorem bounds_of_mem_chunks (h : chunk ∈ chunks boundaries) :
    (∀ b ∈ chunk.1, b ∈ boundaries) ∧ (∀ b ∈ chunk.2, b ∈ boundaries) ∧
      (chunk.1.isSome ∨ chunk.2.isSome) := by
  cases boundaries with
  | nil => cases h
  | cons b rest =>
    rcases mem_cons.1 h with rfl | h
    · simp
    · clear * - h
      induction rest generalizing b with
      | nil =>
        rw [Ranges.rangesFrom, mem_singleton] at h
        subst h
        simp
      | cons b' rest ih =>
        rcases mem_cons.1 h with rfl | h
        · simp
        · obtain ⟨h1, h2, h3⟩ := ih b' h
          exact ⟨fun a ha => mem_cons_of_mem _ (h1 a ha),
            fun a ha => mem_cons_of_mem _ (h2 a ha), h3⟩

section Partition

variable {db : Database α} {dialect : Dialect} {t : Table α} {chunkSize fuel : Nat}
  {boundaries : List Text}

/-- The boundaries, read back, do not fall behind the row again: it is above every
boundary that precedes one it is above. -/
abbrev InOrderAt (db : Database α) (columns : Nat) (boundaries : List Text) (r : Row α) : Prop :=
  boundaries.IsChain (fun b b' => Above db columns r b' → Above db columns r b)

variable (h : splitViaPrimaryKey db dialect t chunkSize fuel = some boundaries)
include h

theorem columns_le_boundary (hb : b ∈ boundaries) : t.columns ≤ (splitBoundaryValues b).length := by
  obtain ⟨r, hr, htext⟩ := boundary_row h hb
  rw [splitBoundaryValues, length_map]
  exact columns_le_parts hr htext

/-- A table with rows has boundaries, unless its smallest key is NULL. -/
theorem boundaries_ne_nil
    (hrows : t.rows ≠ []) (hnull : ∀ r ∈ t.rows, none ∉ r) : boundaries ≠ [] := by
  rcases split_cases h with ⟨hmin, -⟩ | ⟨hne, -⟩
  · obtain ⟨first, rest, hcons⟩ := exists_cons_of_ne_nil hrows
    have hfirst : first ∈ t.rows := by simp [hcons]
    have hne : first ≠ [] :=
      ne_nil_of_length_pos (by rw [t.row_length first hfirst]; exact t.columns_pos)
    rw [hcons, head?_cons, Option.bind_some, keyText_of_not_null (hnull first hfirst) hne] at hmin
    cases hmin
  · exact hne

theorem existsUnique_chunk_iff (hne : boundaries ≠ []) (hmem : r ∈ t.rows) (hr : none ∉ r) :
    (∃! chunk, chunk ∈ chunks boundaries ∧ Satisfies db t.columns r chunk) ↔
      InOrderAt db t.columns boundaries r := by
  have hnodup : boundaries.Nodup := by
    rcases split_cases h with ⟨-, hnil⟩ | ⟨-, hnodup, -⟩
    · exact absurd hnil hne
    · exact hnodup
  rw [InOrderAt, ← Ranges.existsUnique_range_iff hne hnodup]
  apply existsUnique_congr
  intro chunk
  apply and_congr_right
  intro hchunk
  obtain ⟨hmin, hmax, -⟩ := bounds_of_mem_chunks hchunk
  exact satisfies_iff hr (t.row_length r hmem) t.columns_pos
    (fun b hb => columns_le_boundary h (hmin b hb)) (fun b hb => columns_le_boundary h (hmax b hb))

omit h

/-- A row with a NULL is a row of one column, and satisfies no condition. -/
theorem not_satisfies_of_mem_null (hmem : r ∈ t.rows) (hr : none ∈ r)
    (hchunk : chunk ∈ chunks boundaries) : ¬ Satisfies db t.columns r chunk := by
  have hone : t.columns = 1 := by
    by_contra hmany
    have hpos := t.columns_pos
    exact t.not_null (by omega) r hmem hr
  obtain ⟨c, rfl⟩ := length_eq_one_iff.1 ((t.row_length r hmem).trans hone)
  rw [mem_singleton] at hr
  subst hr
  rw [hone]
  exact not_satisfies_of_null (bounds_of_mem_chunks hchunk).2.2

/-! ### Keys that are read back as they were -/

/-- The text of a value comes back from the trip through the boundary. -/
structure Survives (db : Database α) (column : Nat) (cell : Cell α) : Prop where
  no_comma : ',' ∉ cell.text
  trimmed : Strings.trimSpace cell.text = cell.text
  literal : db.literal column (formatSQLLiteral cell.text) = cell.key
  argument : db.argument column cell.text = cell.key

/-- The key of a row that comes back as it was. -/
def KeySurvives (db : Database α) (r : Row α) : Prop :=
  ∀ column cell, r[column]? = some (some cell) → Survives db column cell

omit [LinearOrder α] in
theorem mapIdx_cells {cells : List (Cell α)}
    (h : ∀ i cell, cells[i]? = some cell → value i (text cell) = cell.key) :
    (cells.map text).mapIdx value = cells.map Cell.key := by
  apply ext_getElem?
  intro i
  rw [getElem?_mapIdx, getElem?_map, getElem?_map]
  cases hi : cells[i]? with
  | none => rfl
  | some cell => exact congrArg some (h i cell hi)

omit [LinearOrder α] in
theorem readBack_of_survives (hr : none ∉ r) (hne : r ≠ []) (hs : KeySurvives db r)
    (hb : keyText dialect r = some b) :
    readBack db r.length b = r.key ∧
      boundKey db.argument r.length (walkValues dialect b) = r.key := by
  rw [keyText_of_not_null hr hne] at hb
  cases hb
  obtain ⟨cells, rfl⟩ := exists_cells hr
  have hcell : ∀ i cell, cells[i]? = some cell → Survives db i cell := by
    intro i cell hi
    exact hs i cell (by rw [getElem?_map, hi]; rfl)
  have hcomma : ∀ text ∈ cells.map Cell.text, ',' ∉ text := by
    intro text htext
    obtain ⟨cell, hmem, rfl⟩ := mem_map.1 htext
    obtain ⟨i, hi⟩ := mem_iff_getElem?.1 hmem
    exact (hcell i cell hi).no_comma
  have htrim : (cells.map Cell.text).map Strings.trimSpace = cells.map Cell.text := by
    rw [map_map]
    apply map_congr_left
    intro cell hmem
    obtain ⟨i, hi⟩ := mem_iff_getElem?.1 hmem
    exact (hcell i cell hi).trimmed
  have hsplit : ([','].intercalate (Row.texts (cells.map some)) : Text).splitOn ',' =
      cells.map Cell.text := by
    rw [texts_map_some]
    exact splitOn_intercalate ',' hcomma (by simpa using hne)
  have hwalk : walkValues dialect ([','].intercalate (Row.texts (cells.map some))) =
      cells.map Cell.text := by
    cases dialect with
    | mysql => exact hsplit
    | mssql => rw [walkValues, hsplit, htrim]
  rw [key_map_some]
  constructor
  · have hvals : readValues db.literal (((cells.map Cell.text)).map formatSQLLiteral) =
        cells.map Cell.key := by
      rw [readValues, map_map]
      exact mapIdx_cells (fun i cell hi => (hcell i cell hi).literal)
    rw [readBack, splitBoundaryValues, hsplit, htrim, boundKey, hvals]
    exact take_of_length_le (by simp)
  · have hvals : readValues db.argument (cells.map Cell.text) = cells.map Cell.key :=
      mapIdx_cells (fun i cell hi => (hcell i cell hi).argument)
    rw [hwalk, boundKey, hvals]
    exact take_of_length_le (by simp)

/-- Boundaries that come back as they were ascend. -/
theorem readBack_lt_of_follows (hnull : ∀ r ∈ t.rows, none ∉ r)
    (hs : ∀ r ∈ t.rows, KeySurvives db r) (hb : ∃ r ∈ t.rows, keyText dialect r = some b)
    (h : Follows db dialect t b b') : readBack db t.columns b < readBack db t.columns b' := by
  have hne : ∀ r ∈ t.rows, r ≠ [] := by
    intro r hr
    exact ne_nil_of_length_pos (by rw [t.row_length r hr]; exact t.columns_pos)
  obtain ⟨r, hr, hrb⟩ := hb
  obtain ⟨hlen, r', hbehind, hrb'⟩ := h
  obtain ⟨hr', htrue⟩ := mem_filter.1 hbehind
  obtain ⟨hread, hwalk⟩ := readBack_of_survives (hnull r hr) (hne r hr) (hs r hr) hrb
  obtain ⟨hread', -⟩ := readBack_of_survives (hnull r' hr') (hne r' hr') (hs r' hr') hrb'
  rw [t.row_length r hr] at hread hwalk
  rw [t.row_length r' hr'] at hread'
  rw [hread, hread', ← hwalk]
  have hkey : r'.key.length = t.columns := (length_key (hnull r' hr')).trans (t.row_length r' hr')
  have htrue := of_decide_eq_true htrue
  rw [keys_of_not_null (hnull r' hr'), ← hkey] at htrue
  rw [← hkey] at hlen ⊢
  exact holds_beyond hlen htrue

theorem inOrderAt_of_survives (h : splitViaPrimaryKey db dialect t chunkSize fuel = some boundaries)
    (hnull : ∀ r ∈ t.rows, none ∉ r) (hs : ∀ r ∈ t.rows, KeySurvives db r) (r : Row α) :
    InOrderAt db t.columns boundaries r := by
  rcases split_cases h with ⟨-, rfl⟩ | ⟨-, -, hchain⟩
  · exact isChain_nil
  · apply hchain.imp_of_mem_imp
    intro b b' hb _ hfollows habove
    exact (readBack_lt_of_follows hnull hs (boundary_row h hb) hfollows).le.trans habove

/-- The conditions of the chunks share out the rows of the table exactly when no row is
NULL and the boundaries, as the conditions read them, are in order at every row.  That
is so if the keys are texts that come back as they were. -/
theorem rows_in_one_chunk_iff (db : Database α) (dialect : Dialect) (t : Table α)
    (chunkSize fuel : Nat) (boundaries : List Text)
    (h : splitViaPrimaryKey db dialect t chunkSize fuel = some boundaries) :
    ((∀ r ∈ t.rows, ∃! chunk, chunk ∈ chunks boundaries ∧ Satisfies db t.columns r chunk) ↔
      (∀ r ∈ t.rows, none ∉ r) ∧ ∀ r ∈ t.rows, InOrderAt db t.columns boundaries r) ∧
    ((∀ r ∈ t.rows, none ∉ r) → (∀ r ∈ t.rows, KeySurvives db r) →
      ∀ r ∈ t.rows, ∃! chunk, chunk ∈ chunks boundaries ∧ Satisfies db t.columns r chunk) := by
  have hiff : (∀ r ∈ t.rows, ∃! chunk, chunk ∈ chunks boundaries ∧ Satisfies db t.columns r chunk) ↔
      (∀ r ∈ t.rows, none ∉ r) ∧ ∀ r ∈ t.rows, InOrderAt db t.columns boundaries r := by
    by_cases hrows : t.rows = []
    · simp [hrows]
    constructor
    · intro hone
      have hnull : ∀ r ∈ t.rows, none ∉ r := by
        intro r hr hnone
        obtain ⟨chunk, ⟨hchunk, hsat⟩, -⟩ := hone r hr
        exact not_satisfies_of_mem_null hr hnone hchunk hsat
      refine ⟨hnull, fun r hr => ?_⟩
      refine (existsUnique_chunk_iff h ?_ hr (hnull r hr)).1 (hone r hr)
      rintro rfl
      obtain ⟨chunk, ⟨hchunk, -⟩, -⟩ := hone r hr
      cases hchunk
    · rintro ⟨hnull, hin⟩ r hr
      exact (existsUnique_chunk_iff h (boundaries_ne_nil h hrows hnull) hr (hnull r hr)).2
        (hin r hr)
  exact ⟨hiff, fun hnull hs => hiff.2 ⟨hnull, fun r _ => inOrderAt_of_survives h hnull hs r⟩⟩

end Partition

/-! ### Tables with a binary collation -/

def unquote (literal : Text) : Text :=
  let rec undouble : Text → Text
    | c :: d :: rest => if c = singleQuote ∧ d = singleQuote then c :: undouble rest
        else c :: undouble (d :: rest)
    | t => t
  undouble (literal.drop 1).dropLast

/-- Texts are compared character by character. -/
def binaryCollation : Database Text where
  literal _ l := unquote l
  argument _ t := t

/-- The table of these keys, two columns each. -/
def keyRow (first second : String) : Row Text :=
  [some ⟨first.toList, first.toList⟩, some ⟨second.toList, second.toList⟩]

def ordersByCode : Table Text where
  columns := 2
  columns_pos := by decide
  rows := [keyRow "a" "1", keyRow "a" "2", keyRow "b" "1", keyRow "c" "1"]
  row_length := by decide
  not_null := by decide
  ordered := by decide +kernel

theorem rows_in_one_chunk_codes :
    splitViaPrimaryKey binaryCollation .mysql ordersByCode 1 3 =
        some ["a,1".toList, "b,1".toList] ∧
      ∀ r ∈ ordersByCode.rows, ∃! chunk, chunk ∈ chunks ["a,1".toList, "b,1".toList] ∧
        Satisfies binaryCollation ordersByCode.columns r chunk :=
  have h : splitViaPrimaryKey binaryCollation .mysql ordersByCode 1 3 =
      some ["a,1".toList, "b,1".toList] := by decide +kernel
  ⟨h, (rows_in_one_chunk_iff binaryCollation .mysql ordersByCode 1 3 _ h).1.2
    ⟨by decide, by decide +kernel⟩⟩

/-- The smallest code begins with a space. -/
def ordersBySpacedCode : Table Text where
  columns := 2
  columns_pos := by decide
  rows := [keyRow " z" "1", keyRow "a" "1", keyRow "b" "1"]
  row_length := by decide
  not_null := by decide
  ordered := by decide +kernel

/-- The conditions compare with "z", so the last row is below the first boundary and
above the last one. -/
theorem row_in_two_chunks :
    splitViaPrimaryKey binaryCollation .mysql ordersBySpacedCode 1 3 =
        some [" z,1".toList, "b,1".toList] ∧
      (none, some " z,1".toList) ∈ chunks [" z,1".toList, "b,1".toList] ∧
      Satisfies binaryCollation 2 (keyRow "b" "1") (none, some " z,1".toList) ∧
      (some "b,1".toList, none) ∈ chunks [" z,1".toList, "b,1".toList] ∧
      Satisfies binaryCollation 2 (keyRow "b" "1") (some "b,1".toList, none) := by
  decide +kernel

end Olake.PrimaryKey
