/-
Slash-separated paths as character lists: cleaning and joining them the way Go's
`path` package does, and the order of strings restricted to a common prefix.

A cleaned join keeps the last element of the path, and a directory put in front of the
second part always changes the result.
Sorted strings with a common prefix stand next to each other.
-/
import Mathlib.Data.Char
import Mathlib.Data.List.Lex
import Mathlib.Data.List.Sort

namespace Path

open List

/-! ### Clean and Join -/

def segments (s : List Char) : List (List Char) := s.splitOn '/'

/-- One element of the path, on the stack of those before it. -/
def push (stack : List (List Char)) (s : List Char) : List (List Char) :=
  if s = [] ∨ s = ['.'] then stack
  else if s = ['.', '.'] then
    match stack with
    | [] => [s]
    | top :: rest => if top = ['.', '.'] then s :: stack else rest
  else s :: stack

/-- The elements of the shortest equivalent relative path. -/
def clean (segs : List (List Char)) : List (List Char) := (segs.foldl push []).reverse

/-- `path.Join` of two parts of which the first is not rooted. -/
def join (a b : List Char) : List Char :=
  match clean (segments a ++ segments b) with
  | [] => ['.']
  | s :: segs => ['/'].intercalate (s :: segs)

def base (s : List Char) : List Char := (segments s).getLast (List.splitOn_ne_nil '/' s)

/-- An element that names something: not empty, not `.` and not `..`. -/
def Normal (s : List Char) : Prop := s ≠ [] ∧ s ≠ ['.'] ∧ s ≠ ['.', '.'] ∧ '/' ∉ s

/-! ### Segments -/

theorem segments_append (a b : List Char) :
    segments (a ++ '/' :: b) = segments a ++ segments b := by
  exact splitOnP_append_cons a b (by simp)

variable {s : List Char}

theorem segments_of_no_slash (h : '/' ∉ s) : segments s = [s] := splitOn_eq_singleton h

theorem no_slash_of_mem_segments (h : seg ∈ segments s) : '/' ∉ seg := by
  induction s generalizing seg with
  | nil =>
    simp only [segments, splitOn_nil, mem_singleton] at h
    rw [h]
    exact not_mem_nil
  | cons c cs ih =>
    unfold segments at h ih
    rw [splitOn_cons_eq_if_modifyHead] at h
    split at h
    · rcases mem_cons.1 h with rfl | h
      · exact not_mem_nil
      · exact ih h
    · next hc =>
      obtain ⟨first, rest, hsplit⟩ := exists_cons_of_ne_nil (splitOn_ne_nil '/' cs)
      rw [hsplit] at h ih
      rw [modifyHead_cons, mem_cons] at h
      rcases h with rfl | h
      · rw [mem_cons, not_or]
        exact ⟨fun heq => hc (beq_iff_eq.2 heq.symm), ih mem_cons_self⟩
      · exact ih (mem_cons_of_mem first h)

theorem base_append (a b : List Char) : base (a ++ '/' :: b) = base b := by
  unfold base
  simp only [segments_append]
  exact getLast_append_of_ne_nil _ (splitOn_ne_nil '/' b)

theorem segments_eq_append_base (s : List Char) : segments s = (segments s).dropLast ++ [base s] :=
  (dropLast_append_getLast _).symm

/-! ### What cleaning keeps -/

theorem push_normal (h : Normal s) (stack : List (List Char)) : push stack s = s :: stack := by
  obtain ⟨hnil, hdot, hup, _⟩ := h
  simp [push, hnil, hdot, hup]

theorem clean_append_normal (h : Normal s) (segs : List (List Char)) :
    clean (segs ++ [s]) = clean segs ++ [s] := by
  simp only [clean, foldl_append, foldl_cons, foldl_nil, push_normal h,
    reverse_cons]

variable {x : List Char}

theorem mem_push (h : x ∈ push stack s) : x = s ∨ x ∈ stack := by
  unfold push at h
  split at h
  · exact .inr h
  · split at h
    · split at h
      · exact .inl (mem_singleton.1 h)
      · split at h
        · exact mem_cons.1 h
        · exact .inr (mem_cons_of_mem _ h)
    · exact mem_cons.1 h

theorem mem_foldl_push {segs : List (List Char)} (h : x ∈ segs.foldl push stack) : x ∈ segs ∨ x ∈ stack := by
  induction segs generalizing stack with
  | nil => exact .inr h
  | cons s rest ih =>
    rcases ih h with hrest | hstack
    · exact .inl (mem_cons_of_mem s hrest)
    · rcases mem_push hstack with rfl | hold
      · exact .inl mem_cons_self
      · exact .inr hold

theorem mem_clean (h : x ∈ clean segs) : x ∈ segs := by
  rcases mem_foldl_push (mem_reverse.1 h) with hmem | hnil
  · exact hmem
  · exact absurd hnil not_mem_nil

variable {a b : List Char}

theorem segments_join_of_ne_nil (h : clean (segments a ++ segments b) ≠ []) :
    segments (join a b) = clean (segments a ++ segments b) := by
  have hslash : ∀ s ∈ clean (segments a ++ segments b), '/' ∉ s := by
    intro s hs
    rcases mem_append.1 (mem_clean hs) with hs | hs
    · exact no_slash_of_mem_segments hs
    · exact no_slash_of_mem_segments hs
  unfold join
  cases hsegs : clean (segments a ++ segments b) with
  | nil => exact absurd hsegs h
  | cons s segs =>
    rw [hsegs] at hslash
    exact splitOn_intercalate '/' hslash (cons_ne_nil s segs)

/-- A join whose second part ends in a name, by its elements. -/
theorem segments_join (h : Normal (base b)) :
    segments (join a b) = clean (segments a ++ (segments b).dropLast) ++ [base b] := by
  have hclean : clean (segments a ++ segments b) =
      clean (segments a ++ (segments b).dropLast) ++ [base b] := by
    rw [← clean_append_normal h, append_assoc, ← segments_eq_append_base]
  rw [segments_join_of_ne_nil, hclean]
  simp [hclean]

theorem base_join (h : Normal (base b)) : base (join a b) = base b := by
  unfold base at h ⊢
  simp only [segments_join h, getLast_append_singleton]
  rfl

/-! ### One directory more

Two stacks that differ by one element never become equal, whatever is pushed on
both: the elements above the difference are the same, and once `..` has removed
them it removes the difference or goes up one level further on one side. -/

inductive Off : List (List Char) → List (List Char) → Prop
  | one (above below : List (List Char)) (y : List Char) (ha : ['.', '.'] ∉ above)
      (hb : ['.', '.'] ∉ below) (hy : y ≠ ['.', '.']) : Off (above ++ below) (above ++ y :: below)
  | up (above : List (List Char)) (n : Nat) (ha : ['.', '.'] ∉ above) :
      Off (above ++ List.replicate (n + 1) ['.', '.']) (above ++ List.replicate n ['.', '.'])

theorem Off.length_ne {a b : List (List Char)} (h : Off a b) : a.length ≠ b.length := by
  cases h with
  | one above below y ha hb hy =>
    simp only [length_append, length_cons]
    omega
  | up above n ha =>
    simp only [length_append, length_replicate]
    omega

theorem push_up_cons (h : s ≠ ['.', '.']) (stack : List (List Char)) :
    push (s :: stack) ['.', '.'] = stack := by
  simp [push, h]

theorem push_up_replicate (n : Nat) :
    push (List.replicate n ['.', '.']) ['.', '.'] = List.replicate (n + 1) ['.', '.'] := by
  cases n with
  | zero => rfl
  | succ n => simp [push, replicate_succ]

theorem Off.push {a b : List (List Char)} (h : Off a b) (s : List Char) :
    Off (push a s) (push b s) := by
  by_cases hskip : s = [] ∨ s = ['.']
  · simp only [Path.push, if_pos hskip]
    exact h
  by_cases hup : s = ['.', '.']
  · subst hup
    cases h with
    | one above below y ha hb hy =>
      cases above with
      | nil =>
        simp only [nil_append]
        rw [push_up_cons hy]
        cases below with
        | nil => exact .up [] 0 not_mem_nil
        | cons t below =>
          have ht : t ≠ ['.', '.'] := fun heq => hb (heq ▸ mem_cons_self)
          rw [push_up_cons ht]
          exact .one [] below t not_mem_nil
            (fun hmem => hb (mem_cons_of_mem t hmem)) ht
      | cons p above =>
        have hp : p ≠ ['.', '.'] := fun heq => ha (heq ▸ mem_cons_self)
        simp only [cons_append]
        rw [push_up_cons hp, push_up_cons hp]
        exact .one above below y (fun hmem => ha (mem_cons_of_mem p hmem)) hb hy
    | up above n ha =>
      cases above with
      | nil =>
        simp only [nil_append]
        rw [push_up_replicate, push_up_replicate]
        exact .up [] (n + 1) not_mem_nil
      | cons p above =>
        have hp : p ≠ ['.', '.'] := fun heq => ha (heq ▸ mem_cons_self)
        simp only [cons_append]
        rw [push_up_cons hp, push_up_cons hp]
        exact .up above n (fun hmem => ha (mem_cons_of_mem p hmem))
  · -- a name goes on top of both
    have hpush : ∀ stack, Path.push stack s = s :: stack := fun stack => by
      simp only [Path.push, if_neg hskip, if_neg hup]
    rw [hpush, hpush]
    have hnot : ∀ {above : List (List Char)}, ['.', '.'] ∉ above → ['.', '.'] ∉ s :: above := by
      intro above ha hmem
      rcases mem_cons.1 hmem with heq | hmem
      · exact hup heq.symm
      · exact ha hmem
    cases h with
    | one above below y ha hb hy => exact .one (s :: above) below y (hnot ha) hb hy
    | up above n ha => exact .up (s :: above) n (hnot ha)

theorem Off.foldl {a b : List (List Char)} (h : Off a b) (segs : List (List Char)) :
    Off (segs.foldl Path.push a) (segs.foldl Path.push b) := by
  induction segs generalizing a b with
  | nil => exact h
  | cons s rest ih => exact ih (h.push s)

theorem foldl_push_normal {segs : List (List Char)} (stack : List (List Char))
    (h : ∀ s ∈ segs, Normal s) : segs.foldl push stack = segs.reverse ++ stack := by
  induction segs generalizing stack with
  | nil => rfl
  | cons s rest ih =>
    obtain ⟨hs, hrest⟩ := forall_mem_cons.1 h
    rw [foldl_cons, push_normal hs, ih _ hrest]
    simp

/-- A directory in front of the second part changes the join. -/
theorem join_cons_ne (ha : ∀ s ∈ segments a, Normal s) (hx : Normal x) (hb : Normal (base b))
    : join a (x ++ '/' :: b) ≠ join a b := by
  intro heq
  have hsegs : segments (x ++ '/' :: b) = x :: segments b := by
    rw [segments_append, segments_of_no_slash hx.2.2.2]
    rfl
  have hdrop : (segments (x ++ '/' :: b)).dropLast = x :: (segments b).dropLast := by
    rw [hsegs]
    exact dropLast_cons_of_ne_nil (splitOn_ne_nil '/' b)
  have hbase : Normal (base (x ++ '/' :: b)) := by
    rw [base_append]
    exact hb
  have hcong := congrArg segments heq
  rw [segments_join hbase, segments_join hb, base_append, hdrop] at hcong
  have hclean := append_cancel_right hcong
  have hlen := congrArg length hclean
  simp only [clean, foldl_append, foldl_cons, length_reverse,
    foldl_push_normal _ ha, append_nil, push_normal hx] at hlen
  have hnot : ['.', '.'] ∉ (segments a).reverse := by
    intro hmem
    exact (ha _ (mem_reverse.1 hmem)).2.2.1 rfl
  have hoff : Off (segments a).reverse (x :: (segments a).reverse) :=
    .one [] _ x not_mem_nil hnot hx.2.2.1
  exact (hoff.foldl (segments b).dropLast).length_ne hlen.symm

/-! ### Below a directory -/

/-- Where the elements lead from below a directory, unless they go above it. -/
def follow : List (List Char) → List (List Char) → Option (List (List Char))
  | below, [] => some below
  | below, s :: rest => if s = ['.', '.'] ∧ below = [] then none else follow (push below s) rest

variable {dir below segs : List (List Char)}

theorem follow_append (rest : List (List Char)) :
    follow below (segs ++ rest) = (follow below segs).bind (follow · rest) := by
  induction segs generalizing below with
  | nil => rfl
  | cons s segs ih =>
    by_cases hs : s = ['.', '.'] ∧ below = []
    · simp [follow, hs]
    · simp [follow, hs, ih]

theorem push_below (hbelow : ['.', '.'] ∉ below) (hs : ¬ (s = ['.', '.'] ∧ below = [])) :
    push (below ++ stack) s = push below s ++ stack ∧ ['.', '.'] ∉ push below s := by
  unfold push
  by_cases hskip : s = [] ∨ s = ['.']
  · simp [hskip, hbelow]
  by_cases hup : s = ['.', '.']
  · cases below with
    | nil => exact absurd ⟨hup, rfl⟩ hs
    | cons top rest =>
      obtain ⟨htop, hrest⟩ := not_or.1 (mem_cons.not.1 hbelow)
      simp [hup, Ne.symm htop, hrest]
  · simp [hskip, hup, hbelow, Ne.symm hup]

/-- Elements that can be followed do not touch what is below. -/
theorem foldl_push_follow (hbelow : ['.', '.'] ∉ below) (h : follow below segs = some out) :
    segs.foldl push (below ++ stack) = out ++ stack := by
  induction segs generalizing below with
  | nil =>
    cases h
    rfl
  | cons s rest ih =>
    rw [follow] at h
    split at h
    · cases h
    · next hs =>
      obtain ⟨hpush, hfree⟩ := push_below hbelow hs
      rw [foldl_cons, hpush, ih hfree h]

theorem clean_of_follow (hdir : ∀ s ∈ dir, Normal s) (h : follow [] segs = some out) :
    clean (dir ++ segs) = dir ++ out.reverse := by
  have hfold : segs.foldl push ([] ++ dir.reverse) = _ := foldl_push_follow not_mem_nil h
  rw [nil_append] at hfold
  rw [clean, foldl_append, foldl_push_normal [] hdir, append_nil, hfold, reverse_append,
    reverse_reverse]

theorem follow_normal (below : List (List Char)) (h : ∀ s ∈ segs, Normal s) :
    follow below segs = some (segs.reverse ++ below) := by
  induction segs generalizing below with
  | nil => rfl
  | cons s segs ih =>
    obtain ⟨hs, hsegs⟩ := forall_mem_cons.1 h
    rw [follow, if_neg (fun hup => hs.2.2.1 hup.1), push_normal hs, ih _ hsegs]
    simp

/-- Elements that cannot be followed leave the directory. -/
theorem exists_leaves (hbelow : ['.', '.'] ∉ below) (h : follow below segs = none)
    (hdir : ∀ s ∈ dir, Normal s) (hne : dir ≠ []) :
    ∃ pre, pre <+: segs ∧ ¬ dir <+: (pre.foldl push (below ++ dir.reverse)).reverse := by
  induction segs generalizing below with
  | nil => cases h
  | cons s rest ih =>
    rw [follow] at h
    split at h
    · next hs =>
      obtain ⟨rfl, rfl⟩ := hs
      refine ⟨[['.', '.']], by simp, fun hpre => ?_⟩
      obtain ⟨top, below, hrev⟩ := exists_cons_of_ne_nil (reverse_ne_nil_iff.2 hne)
      have htop : top ≠ ['.', '.'] := (hdir top (mem_reverse.1 (hrev ▸ mem_cons_self))).2.2.1
      have hdirlen : dir.length = below.length + 1 := by simpa using congrArg length hrev
      have hlen := hpre.length_le
      simp only [nil_append, foldl_cons, foldl_nil, hrev, push_up_cons htop, length_reverse] at hlen
      omega
    · next hs =>
      obtain ⟨hpush, hfree⟩ := push_below hbelow hs
      obtain ⟨pre, hpre, hout⟩ := ih hfree h
      exact ⟨s :: pre, by simpa using hpre, by rwa [foldl_cons, hpush]⟩

/-! ### Sorted strings with a common beginning -/

/-- What lies between two strings with a common beginning begins the same way. -/
theorem begins_between {a b c : List Char} (hab : a ≤ b) (hbc : b ≤ c) (ha : p <+: a) (hc : p <+: c) :
    p <+: b := by
  induction p generalizing a b c with
  | nil => exact nil_prefix
  | cons x p ih =>
    obtain ⟨a', rfl⟩ := ha
    obtain ⟨c', rfl⟩ := hc
    cases b with
    | nil => exact absurd hab (not_le.2 (nil_lt_cons x _))
    | cons y b' =>
      rw [cons_append, ← not_lt, cons_lt_cons_iff, not_or, not_lt] at hab hbc
      obtain rfl : x = y := le_antisymm hab.1 hbc.1
      have hab' : p ++ a' ≤ b' := not_lt.1 fun h => hab.2 ⟨rfl, h⟩
      have hbc' : b' ≤ p ++ c' := not_lt.1 fun h => hbc.2 ⟨rfl, h⟩
      exact cons_prefix_cons.2 ⟨rfl, ih hab' hbc' (prefix_append p a') (prefix_append p c')⟩

end Path
