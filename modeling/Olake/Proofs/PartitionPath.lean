/-
Where the files of a record can end up.

The pattern is followed element by element from the path of the table.  A value is not
escaped, so it can have elements of its own, and with enough `..` in it the files end up in
another table, or in any other directory.  Nothing keeps the elements out of the staging area
of the table either.  A pattern that has one placeholder per directory is contained as soon as
every text that takes the place of one names a directory.
-/
import Olake.Model.PartitionPath

namespace Olake.PartitionPath

open Parquet Path Strings List

variable (go : GoLib) (stream : Stream) (values : Text → Option (Option go.Value)) (olakeTimestamp : go.Time)

/-- The path is below that of the table and nowhere on the way above it, and it is neither in the
staging area nor that of the metadata. -/
structure Contained : Prop where
  way : ∀ pre, pre <+: segments (fill go stream values olakeTimestamp) →
    segments stream.basePath <+: clean (segments stream.basePath ++ pre)
  below : segments stream.basePath <+: segments (getPartitionedFilePath go stream values olakeTimestamp)
  staging : ¬ segments stream.basePath ++ [parquet2PCDir] <+:
    segments (getPartitionedFilePath go stream values olakeTimestamp)
  metadata : segments (getPartitionedFilePath go stream values olakeTimestamp) ≠
    segments stream.basePath ++ [parquet2PCMetadataFile]

variable {go stream values olakeTimestamp}

theorem clean_concat_nil (segs : List Text) : clean (segs ++ [[]]) = clean segs := by
  simp [clean, push]

theorem clean_trimSuffix (dir : List Text) (result : Text) :
    clean (dir ++ segments (if result.getLast? = some '/' then result.dropLast else result)) =
      clean (dir ++ segments result) := by
  split
  · next h =>
    have hsplit : segments result = segments result.dropLast ++ [[]] := by
      conv_lhs => rw [← dropLast_append_getLast? '/' h]
      exact segments_append _ _
    rw [hsplit, ← append_assoc, clean_concat_nil]
  · rfl

theorem segments_path
    (h : follow [] (segments (fill go stream values olakeTimestamp)) = some below) :
    segments (getPartitionedFilePath go stream values olakeTimestamp) =
      segments stream.basePath ++ below.reverse := by
  have hclean := clean_of_follow stream.normal h
  have hne : segments stream.basePath ++ below.reverse ≠ [] := by simp [segments]
  have hempty : fill go stream values olakeTimestamp = [] → below = [] := by
    intro hfill
    rw [hfill] at h
    exact (Option.some_inj.1 h).symm
  unfold getPartitionedFilePath
  split
  · next hpattern => simp [hempty (by rw [fill, hpattern, replaceAll])]
  · dsimp only
    split
    · next hfill => simp [hempty hfill]
    · rw [segments_join_of_ne_nil, clean_trimSuffix, hclean]
      rwa [clean_trimSuffix, hclean]

theorem contained_iff_of_follow
    (hfollow : follow [] (segments (fill go stream values olakeTimestamp)) = some below) :
    Contained go stream values olakeTimestamp ↔
      below.getLast? ≠ some parquet2PCDir ∧ below ≠ [parquet2PCMetadataFile] := by
  have hpath := segments_path hfollow
  have hway : ∀ pre, pre <+: segments (fill go stream values olakeTimestamp) →
      segments stream.basePath <+: clean (segments stream.basePath ++ pre) := by
    rintro pre ⟨rest, hrest⟩
    rw [← hrest, follow_append] at hfollow
    obtain ⟨out, hout, -⟩ := Option.bind_eq_some_iff.1 hfollow
    rw [clean_of_follow stream.normal hout]
    exact prefix_append _ _
  have hstaging : segments stream.basePath ++ [parquet2PCDir] <+: segments stream.basePath ++ below.reverse ↔
      below.getLast? = some parquet2PCDir := by
    rw [prefix_append_right_inj, ← head?_reverse]
    cases below.reverse <;> simp [eq_comm]
  constructor
  · intro h
    refine ⟨fun hlast => h.staging ?_, fun hmeta => h.metadata ?_⟩
    · rw [hpath]
      exact hstaging.2 hlast
    · rw [hpath, hmeta]
      rfl
  · rintro ⟨hlast, hmeta⟩
    refine ⟨hway, ?_, ?_, ?_⟩
    · rw [hpath]
      exact prefix_append _ _
    · rw [hpath]
      exact fun h => hlast (hstaging.1 h)
    · rw [hpath]
      intro heq
      exact hmeta (reverse_injective (by simpa using append_cancel_left heq))

/-- The files of a record stay in the table's data area if and only if the filled-in pattern
never goes above its start, and what remains of it neither begins with the name of the staging
directory nor is the name of the metadata file. -/
theorem partition_path_contained_iff (go : GoLib) (stream : Stream)
    (values : Text → Option (Option go.Value)) (olakeTimestamp : go.Time) :
    Contained go stream values olakeTimestamp ↔
      ∃ below, follow [] (segments (fill go stream values olakeTimestamp)) = some below ∧
        below.getLast? ≠ some parquet2PCDir ∧ below ≠ [parquet2PCMetadataFile] := by
  cases hfollow : follow [] (segments (fill go stream values olakeTimestamp)) with
  | none =>
    refine iff_of_false (fun h => ?_) (by simp)
    obtain ⟨pre, hpre, hout⟩ := exists_leaves not_mem_nil hfollow stream.normal (splitOn_ne_nil _ _)
    have hway := h.way pre hpre
    rw [clean, foldl_append, foldl_push_normal [] stream.normal, append_nil] at hway
    exact hout hway
  | some below => simp [contained_iff_of_follow hfollow]

/-! ### The texts of the placeholders -/

/-- A placeholder: a column, a text for records without a value and a part of a time, as they
stand between its commas. -/
structure Placeholder where
  column : Text
  default : Text
  granularity : Text
  plain : ∀ block ∈ [column, default, granularity], ∀ c ∈ ['{', '}', ','], c ∉ block

variable (p : Placeholder)

def Placeholder.body : Text :=
  [','].intercalate [p.column, p.default, p.granularity]

/-- The placeholder as it stands in a pattern. -/
def Placeholder.text : Text := '{' :: p.body ++ ['}']

variable (go stream values olakeTimestamp) in
/-- The text that takes its place. -/
def Placeholder.value : Text :=
  fillBlocks go stream values olakeTimestamp p.column p.default p.granularity

theorem Placeholder.mem_body {p : Placeholder} (h : c ∈ p.body) : c ≠ '{' ∧ c ≠ '}' := by
  obtain ⟨block, hblock, hc⟩ | rfl : (∃ block ∈ [p.column, p.default, p.granularity], c ∈ block) ∨ c = ',' := by
    simp [Placeholder.body, intercalate] at h ⊢
    tauto
  · have hplain := p.plain block hblock
    exact ⟨fun heq => hplain '{' (by decide) (heq ▸ hc), fun heq => hplain '}' (by decide) (heq ▸ hc)⟩
  · decide

theorem fillPlaceholder_text :
    fillPlaceholder go stream values olakeTimestamp p.text = p.value go stream values olakeTimestamp := by
  have hbraces : trimFunc (fun c => c == '{' || c == '}') p.text = p.body := by
    refine trimFunc_surrounded rfl rfl fun c hc => ?_
    simp [(p.mem_body hc).1, (p.mem_body hc).2]
  have hblocks : p.body.splitOn ',' = [p.column, p.default, p.granularity] :=
    splitOn_intercalate ',' (fun block hblock => p.plain block hblock ',' (by decide)) (by simp)
  rw [fillPlaceholder, hbraces, hblocks]
  rfl

/-- The scan behind an opening brace, up to the closing one. -/
theorem replaceAll_body (replace : Text → Text) (hbody : '}' ∉ body) (seen rest : Text)
    (hne : seen ++ body ≠ []) :
    replaceAll replace (some seen) (body ++ '}' :: rest) =
      replace ('{' :: (seen ++ body) ++ ['}']) ++ replaceAll replace none rest := by
  induction body generalizing seen with
  | nil =>
    rw [append_nil] at hne
    simp [replaceAll, hne]
  | cons c body ih =>
    obtain ⟨hc, hbody⟩ := not_or.1 (mem_cons.not.1 hbody)
    rw [cons_append, replaceAll, if_pos (Ne.symm hc), ih hbody _ (by simp)]
    simp

theorem replaceAll_placeholders (replace : Text → Text) (ps : List Placeholder) :
    replaceAll replace none (ps.flatMap fun p => '/' :: p.text) = ps.flatMap fun p => '/' :: replace p.text := by
  induction ps with
  | nil => rfl
  | cons p ps ih =>
    have hbody := replaceAll_body replace (fun h => (p.mem_body h).2 rfl) []
      (ps.flatMap fun p => '/' :: p.text) (by simp [Placeholder.body, intercalate])
    rw [ih] at hbody
    simp only [flatMap_cons, Placeholder.text, cons_append, append_assoc, nil_append] at hbody ⊢
    simp [replaceAll, hbody]

theorem segments_append_flatMap (start : Text) (texts : List Text) :
    segments (start ++ texts.flatMap fun text => '/' :: text) = segments start ++ texts.flatMap segments := by
  induction texts generalizing start with
  | nil => simp
  | cons text texts ih => rw [flatMap_cons, cons_append, segments_append, ih, flatMap_cons]

/-- A pattern of placeholders, one per directory, keeps the files of a record in the table's data
area if every text that takes the place of one is a name, unless the first is that of the staging
directory or the only one that of the metadata file. -/
theorem contained_placeholders_iff (ps : List Placeholder)
    (hpattern : stream.partitionRegex = ps.flatMap fun p => '/' :: p.text)
    (hnormal : ∀ p ∈ ps, Normal (p.value go stream values olakeTimestamp)) :
    let names := ps.map (Placeholder.value go stream values olakeTimestamp)
    Contained go stream values olakeTimestamp ↔
      names.head? ≠ some parquet2PCDir ∧ names ≠ [parquet2PCMetadataFile] := by
  intro names
  have hfill : fill go stream values olakeTimestamp = names.flatMap fun name => '/' :: name := by
    rw [fill, hpattern, replaceAll_placeholders, flatMap_map]
    simp only [fillPlaceholder_text]
  have hnames : ∀ name ∈ names, Normal name := by simpa [names] using hnormal
  have hsegments : segments (names.flatMap fun name => '/' :: name) = [] :: names := by
    have hname : names.flatMap segments = names.flatMap fun name => [name] :=
      flatMap_congr fun name hmem => segments_of_no_slash (hnames name hmem).2.2.2
    exact (segments_append_flatMap [] names).trans (by rw [hname, flatMap_singleton']; rfl)
  have hfollow : follow [] (segments (fill go stream values olakeTimestamp)) = some names.reverse := by
    rw [hfill, hsegments]
    simpa [follow, push] using follow_normal [] hnames
  rw [contained_iff_of_follow hfollow, getLast?_reverse, ne_eq (names.reverse), reverse_eq_cons_iff]
  simp

def texts : GoLib where
  Value := Text
  Time := Unit
  sprint s := s
  ofTime _ := []
  timestamp _ := none
  hour _ := 0
  day _ := 1
  isoWeek _ := 1
  month _ := 1
  year _ := 1970

def byCustomer : Stream where
  basePath := "shop/orders".toList
  normal := by
    unfold Path.Normal
    decide
  partitionRegex := "/\x7bcustomer,'',''\x7d".toList
  resolveColumnName := id

example : Contained texts byCustomer (fun _ => some (some "acme".toList)) () :=
  (contained_placeholders_iff [⟨"customer".toList, "''".toList, "''".toList, by simp⟩]
    rfl (by unfold Path.Normal; decide +kernel)).2 (by decide +kernel)

/-- A customer named `../users` has its orders written into another table, one named
`_olake_2pc` into the staging area. -/
theorem value_leaves_table :
    getPartitionedFilePath texts byCustomer (fun _ => some (some "../users".toList)) () = "shop/users".toList ∧
      ¬ Contained texts byCustomer (fun _ => some (some "../users".toList)) () ∧
      ¬ Contained texts byCustomer (fun _ => some (some parquet2PCDir)) () := by
  refine ⟨by decide +kernel, fun h => absurd h.below ?_, fun h => absurd ?_ h.staging⟩
  · decide +kernel
  · decide +kernel

end Olake.PartitionPath
