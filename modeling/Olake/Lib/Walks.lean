/-
Walks from boundary to boundary.

A walk follows `next` until there is none.  One that ends has come to no boundary twice.
The boundaries cut a line into ranges, and the ranges of a walk up to a largest value tile
the values from its start on exactly when every step climbs (`tiles_iff_climbs`).  When the
steps are additions that may wrap around, they all climb if and only if some boundary beyond
the largest value is still a number (`tiles_iff_room`).
-/
import Mathlib.Tactic.Linarith
import Olake.Lib.Ranges

namespace Walks

open Ranges List Option

variable {B : Type} {next : B → Option B} {fuel : Nat} {b : B} {bs : List B}

/-- The boundaries behind `b`.  `none` when the walk has not ended. -/
def walk (next : B → Option B) : Nat → B → Option (List B)
  | 0, _ => none
  | fuel + 1, b =>
    match next b with
    | none => some []
    | some b' => (walk next fuel b').map (b' :: ·)

theorem walk_cases (h : walk next (fuel + 1) b = some bs) :
    next b = none ∧ bs = [] ∨
      ∃ b' rest, next b = some b' ∧ walk next fuel b' = some rest ∧ bs = b' :: rest := by
  unfold walk at h
  cases hnext : next b with
  | none =>
    rw [hnext] at h
    cases h
    exact .inl ⟨rfl, rfl⟩
  | some b' =>
    rw [hnext] at h
    obtain ⟨rest, hrest, rfl⟩ := map_eq_some_iff.1 h
    exact .inr ⟨b', rest, rfl, hrest, rfl⟩

theorem walk_isChain_of {P : B → Prop} (hR : ∀ b b', P b → next b = some b' → P b' ∧ R b b') (hb : P b)
    (h : walk next fuel b = some bs) : (b :: bs).IsChain R := by
  induction fuel generalizing b bs with
  | zero => cases h
  | succ fuel ih =>
    rcases walk_cases h with ⟨-, rfl⟩ | ⟨b', rest, hnext, hrest, rfl⟩
    · exact isChain_singleton b
    · exact isChain_cons_cons.2 ⟨(hR b b' hb hnext).2, ih (hR b b' hb hnext).1 hrest⟩

theorem walk_isChain (hR : ∀ b b', next b = some b' → R b b')
    (h : walk next fuel b = some bs) : (b :: bs).IsChain R :=
  walk_isChain_of (P := fun _ => True) (fun b b' _ hnext => ⟨trivial, hR b b' hnext⟩) trivial h

/-- The walk from a boundary does not depend on how it was reached. -/
theorem walk_unique (h : walk next m b = some bs) (h' : walk next n b = some bs') : bs = bs' := by
  induction m generalizing n b bs bs' with
  | zero => cases h
  | succ m ih =>
    cases n with
    | zero => cases h'
    | succ n =>
      rcases walk_cases h with ⟨hnext, rfl⟩ | ⟨c, rest, hnext, hrest, rfl⟩ <;>
        rw [walk, hnext] at h'
      · cases h'
        rfl
      · obtain ⟨rest', hrest', rfl⟩ := map_eq_some_iff.1 h'
        rw [ih hrest hrest']

theorem walk_of_mem (h : walk next fuel b = some bs) (hc : c ∈ bs) :
    ∃ m cs, walk next m c = some cs ∧ cs.length < bs.length := by
  induction fuel generalizing b bs with
  | zero => cases h
  | succ n ih =>
    rcases walk_cases h with ⟨-, rfl⟩ | ⟨b', rest, -, hrest, rfl⟩
    · cases hc
    · rcases mem_cons.1 hc with rfl | hc
      · exact ⟨n, rest, hrest, by simp⟩
      · obtain ⟨m, cs, hm, hlt⟩ := ih hrest hc
        exact ⟨m, cs, hm, by simp; omega⟩

/-- No boundary comes twice: the walk would go round for ever. -/
theorem walk_nodup (h : walk next fuel b = some bs) : (b :: bs).Nodup := by
  induction fuel generalizing b bs with
  | zero => cases h
  | succ n ih =>
    refine nodup_cons.2 ⟨fun hmem => ?_, ?_⟩
    · obtain ⟨m, cs, hm, hlt⟩ := walk_of_mem h hmem
      rw [walk_unique hm h] at hlt
      exact Nat.lt_irrefl _ hlt
    · rcases walk_cases h with ⟨-, rfl⟩ | ⟨b', rest, -, hrest, rfl⟩
      · exact nodup_nil
      · exact ih hrest

/-- A walk ends when each of its steps lowers a measure. -/
theorem walk_ends {P : B → Prop} (measure : B → Nat)
    (hstep : ∀ b b', P b → next b = some b' → P b' ∧ measure b' < measure b) (hb : P b)
    (hfuel : measure b < fuel) : ∃ bs, walk next fuel b = some bs := by
  induction fuel generalizing b with
  | zero => exact absurd hfuel (Nat.not_lt_zero _)
  | succ fuel ih =>
    rw [walk]
    cases hnext : next b with
    | none => exact ⟨[], rfl⟩
    | some b' =>
      obtain ⟨hb', hlt⟩ := hstep b b' hb hnext
      obtain ⟨rest, hrest⟩ := ih hb' (by omega)
      exact ⟨b' :: rest, by simp only [hrest, map_some]⟩

section UpTo

variable [LinearOrder B] {f : B → B} {lo hi : B}

/-- The steps of `f` up to `hi`. -/
def upTo (f : B → B) (hi : B) (b : B) : Option B := if f b ≤ hi then some (f b) else none

theorem upTo_eq_some (h : upTo f hi b = some b') : f b = b' ∧ b' ≤ hi := by
  unfold upTo at h
  split at h
  · cases h
    exact ⟨rfl, ‹_›⟩
  · cases h

/-- Ranges from `lo` on, such that every value up to `hi` is in exactly one of them. -/
structure Tiles (lo hi : B) (ranges : List (Option B × Option B)) : Prop where
  starts : ∀ range ∈ ranges, ∃ b, range.1 = some b ∧ lo ≤ b
  once : ∀ x, lo ≤ x → x ≤ hi → ∃! range, range ∈ ranges ∧ Within (· ≤ x) range

omit [LinearOrder B] in
theorem mem_rangesFrom_fst (hc : c ∈ b :: bs) : ∃ m, (some c, m) ∈ rangesFrom b bs := by
  induction bs generalizing b with
  | nil =>
    cases mem_singleton.1 hc
    exact ⟨none, mem_singleton.2 rfl⟩
  | cons b' rest ih =>
    rcases mem_cons.1 hc with rfl | hc
    · exact ⟨some b', mem_cons_self⟩
    · obtain ⟨m, hm⟩ := ih hc
      exact ⟨m, mem_cons_of_mem _ hm⟩

/-- **A walk tiles the values when it climbs.** -/
theorem tiles_iff_climbs (h : walk (upTo f hi) fuel lo = some bs) :
    Tiles lo hi (rangesFrom lo bs) ↔ (lo :: bs).IsChain (· < ·) := by
  have hnodup := walk_nodup h
  have honce : ∀ x, lo ≤ x → ((∃! range, range ∈ rangesFrom lo bs ∧ Within (· ≤ x) range) ↔
      (lo :: bs).IsChain (fun a a' => a' ≤ x → a ≤ x)) := fun x hx =>
    existsUnique_rangesFrom_iff hx hnodup
  constructor
  · intro ht
    have hhi : (lo :: bs).IsChain (fun _ b' => b' ≤ hi) :=
      walk_isChain (fun _ _ hnext => (upTo_eq_some hnext).2) h
    rw [isChain_iff_forall_rel_of_append_cons_cons] at hhi ⊢
    intro a c l₁ l₂ hsplit
    have hmem : c ∈ lo :: bs := by simp [hsplit]
    obtain ⟨m, hm⟩ := mem_rangesFrom_fst hmem
    obtain ⟨c', hc', hlo⟩ := ht.starts _ hm
    cases hc'
    -- the step to `c` does not fall behind `c`
    have hchain := (honce c hlo).1 (ht.once c hlo (hhi hsplit))
    have hle := (isChain_iff_forall_rel_of_append_cons_cons.1 hchain) hsplit le_rfl
    refine lt_of_le_of_ne hle fun heq => ?_
    rw [hsplit, heq] at hnodup
    simp [nodup_append] at hnodup
  · intro hclimb
    refine ⟨fun range hr => ?_, fun x hx _ => (honce x hx).2 (hclimb.imp fun a c hlt hc => ?_)⟩
    · obtain ⟨b, hb, hfst⟩ := fst_mem_of_mem_rangesFrom hr
      refine ⟨b, hfst, ?_⟩
      rcases mem_cons.1 hb with rfl | hb
      · exact le_rfl
      · exact le_of_lt (rel_of_pairwise_cons (isChain_iff_pairwise.1 hclimb) hb)
    · exact le_of_lt (lt_of_lt_of_le hlt hc)

/-! ### Loops over a range -/

/-- `for b; more b; b = f b`, with what each turn adds. -/
def loop {C : Type} (more : B → Bool) (f : B → B) (chunk : B → C) : Nat → B → Option (List C)
  | 0, _ => none
  | fuel + 1, b => if more b then (loop more f chunk fuel (f b)).map (chunk b :: ·) else some []

/-- The range, with `top` in place of a missing upper bound. -/
def close (top : B) (range : Option B × Option B) : Option B × Option B :=
  (range.1, some (range.2.getD top))

/-- A loop whose turns add the ranges between the starts. -/
theorem loop_eq_walk (hmore : ∀ b, more b = true ↔ b ≤ hi)
    (hchunk : ∀ b, b ≤ hi → chunk b = (some b, some (if f b ≤ hi then f b else top))) (fuel : Nat)
    (hb : b ≤ hi) : loop more f chunk (fuel + 1) b =
      (walk (upTo f hi) fuel b).map (fun bs => (rangesFrom b bs).map (close top)) := by
  induction fuel generalizing b with
  | zero => simp [loop, walk, (hmore b).2 hb]
  | succ fuel ih =>
    rw [loop, if_pos ((hmore b).2 hb), hchunk b hb, walk]
    by_cases hnext : f b ≤ hi
    · rw [ih hnext]
      simp [upTo, hnext, rangesFrom, close, Function.comp_def]
    · simp [loop, upTo, hnext, rangesFrom, close, show ¬ more (f b) from fun h => hnext ((hmore _).1 h)]

theorem le_of_mem_rangesFrom (h : (b :: bs).IsChain (fun _ b' => b' ≤ hi))
    {range : Option B × Option B} (hr : range ∈ rangesFrom b bs) : ∀ c ∈ range.2, c ≤ hi := by
  induction bs generalizing b with
  | nil =>
    rw [rangesFrom, mem_singleton] at hr
    simp [hr]
  | cons b' rest ih =>
    obtain ⟨hle, hrest⟩ := isChain_cons_cons.1 h
    rcases mem_cons.1 hr with rfl | hr
    · simpa using hle
    · exact ih hrest hr

/-- The missing upper bound may be any that lies beyond the values. -/
theorem tiles_close {ranges : List (Option B × Option B)} (htop : hi < top)
    (hle : ∀ range ∈ ranges, ∀ c ∈ range.2, c ≤ hi) :
    Tiles lo hi (ranges.map (close top)) ↔ Tiles lo hi ranges := by
  have hin : ∀ x ≤ hi, ∀ range, Within (· ≤ x) (close top range) ↔ Within (· ≤ x) range := by
    intro x hx range
    refine and_congr_right fun _ => ?_
    cases hmax : range.2 with
    | none => simpa [close, hmax] using lt_of_le_of_lt hx htop
    | some c => simp [close, hmax]
  have hinj : ∀ r ∈ ranges, ∀ r' ∈ ranges, close top r = close top r' → r = r' := by
    rintro ⟨a, m⟩ hr ⟨a', m'⟩ hr' heq
    obtain ⟨rfl, hm⟩ : a = a' ∧ m.getD top = m'.getD top := by simpa [close] using heq
    cases m with
    | none =>
      cases m' with
      | none => rfl
      | some c =>
        obtain rfl : top = c := hm
        exact absurd (hle _ hr' top rfl) htop.not_ge
    | some c =>
      cases m' with
      | none =>
        obtain rfl : c = top := hm
        exact absurd (hle _ hr c rfl) htop.not_ge
      | some c' => rw [show c = c' from hm]
  constructor
  · intro h
    refine ⟨fun range hr => h.starts (close top range) (mem_map_of_mem hr), fun x hlo hhi => ?_⟩
    obtain ⟨range, ⟨hmem, hw⟩, huniq⟩ := h.once x hlo hhi
    obtain ⟨r, hr, rfl⟩ := mem_map.1 hmem
    refine ⟨r, ⟨hr, (hin x hhi r).1 hw⟩, fun r' hr' => hinj r' hr'.1 r hr ?_⟩
    exact huniq _ ⟨mem_map_of_mem hr'.1, (hin x hhi r').2 hr'.2⟩
  · intro h
    refine ⟨fun range hr => ?_, fun x hlo hhi => ?_⟩
    · obtain ⟨r, hmem, rfl⟩ := mem_map.1 hr
      exact h.starts r hmem
    · obtain ⟨r, ⟨hr, hw⟩, huniq⟩ := h.once x hlo hhi
      refine ⟨close top r, ⟨mem_map_of_mem hr, (hin x hhi r).2 hw⟩, ?_⟩
      rintro _ ⟨hmem, hw'⟩
      obtain ⟨r', hr', rfl⟩ := mem_map.1 hmem
      rw [huniq r' ⟨hr', (hin x hhi r').1 hw'⟩]

theorem loop_tiles_iff (hmore : ∀ b, more b = true ↔ b ≤ hi)
    (hchunk : ∀ b, b ≤ hi → chunk b = (some b, some (if f b ≤ hi then f b else top)))
    (hle : lo ≤ hi) (htop : hi < top) :
    (∃ fuel chunks, loop more f chunk fuel lo = some chunks ∧ Tiles lo hi chunks) ↔
      ∃ fuel bs, walk (upTo f hi) fuel lo = some bs ∧ Tiles lo hi (rangesFrom lo bs) := by
  have hclose : ∀ {fuel bs}, walk (upTo f hi) fuel lo = some bs →
      (Tiles lo hi ((rangesFrom lo bs).map (close top)) ↔ Tiles lo hi (rangesFrom lo bs)) :=
    fun h => tiles_close htop fun _ =>
      le_of_mem_rangesFrom (walk_isChain (fun _ _ hnext => (upTo_eq_some hnext).2) h)
  constructor
  · rintro ⟨fuel, chunks, hloop, ht⟩
    cases fuel with
    | zero => cases hloop
    | succ fuel =>
      rw [loop_eq_walk hmore hchunk fuel hle, map_eq_some_iff] at hloop
      obtain ⟨bs, hwalk, rfl⟩ := hloop
      exact ⟨fuel, bs, hwalk, (hclose hwalk).1 ht⟩
  · rintro ⟨fuel, bs, hwalk, ht⟩
    refine ⟨fuel + 1, _, ?_, (hclose hwalk).2 ht⟩
    rw [loop_eq_walk hmore hchunk fuel hle, hwalk, map_some]

/-- Addition of `size`, in numbers up to `top` that wrap around. -/
structure Wraps (value : B → Int) (top size : Int) (f : B → B) : Prop where
  le_iff : ∀ {a b}, value a ≤ value b ↔ a ≤ b
  add : ∀ {b}, value b + size ≤ top → value (f b) = value b + size
  wrap : ∀ {b}, top < value b + size → f b < b

/-- **When repeated addition tiles the values**: some sum beyond the largest value is a number. -/
theorem tiles_iff_room (hf : Wraps value top size f) (hsize : 0 < size) (hle : lo ≤ hi) :
    (∃ fuel bs, walk (upTo f hi) fuel lo = some bs ∧ Tiles lo hi (rangesFrom lo bs)) ↔
      ∃ k : Nat, value hi < value lo + (k + 1) * size ∧ value lo + (k + 1) * size ≤ top := by
  constructor
  · rintro ⟨fuel, bs, hwalk, ht⟩
    have hclimb := (tiles_iff_climbs hwalk).1 ht
    clear ht
    induction fuel generalizing lo bs with
    | zero => cases hwalk
    | succ fuel ih =>
      rcases walk_cases hwalk with ⟨hnext, -⟩ | ⟨b', rest, hnext, hrest, rfl⟩
      · have hnot : ¬ f lo ≤ hi := fun h => by simp [upTo, h] at hnext
        have hroom : value lo + size ≤ top := by
          by_contra hwrap
          exact hnot (le_of_lt (lt_of_lt_of_le (hf.wrap (not_le.1 hwrap)) hle))
        have hbeyond : value hi < value (f lo) := not_le.1 (fun h => hnot (hf.le_iff.1 h))
        rw [hf.add hroom] at hbeyond
        exact ⟨0, by simpa using hbeyond, by simpa using hroom⟩
      · obtain ⟨rfl, hle'⟩ := upTo_eq_some hnext
        obtain ⟨hlt, hclimb'⟩ := isChain_cons_cons.1 hclimb
        have hroom : value lo + size ≤ top := by
          by_contra hwrap
          exact lt_asymm hlt (hf.wrap (not_le.1 hwrap))
        obtain ⟨k, hbeyond, htop⟩ := ih hle' rest hrest hclimb'
        rw [hf.add hroom] at hbeyond htop
        exact ⟨k + 1, by push_cast; linarith, by push_cast; linarith⟩
  · rintro ⟨k, hbeyond, htop⟩
    suffices ∃ fuel bs, walk (upTo f hi) fuel lo = some bs ∧ (lo :: bs).IsChain (· < ·) by
      obtain ⟨fuel, bs, hwalk, hclimb⟩ := this
      exact ⟨fuel, bs, hwalk, (tiles_iff_climbs hwalk).2 hclimb⟩
    have hstop : ∀ {lo}, ¬ f lo ≤ hi →
        ∃ fuel bs, walk (upTo f hi) fuel lo = some bs ∧ (lo :: bs).IsChain (· < ·) := fun h =>
      ⟨1, [], by simp [walk, upTo, h], isChain_singleton _⟩
    induction k generalizing lo with
    | zero =>
      refine hstop fun h => ?_
      have hvalue := hf.le_iff.2 h
      rw [hf.add (by simpa using htop)] at hvalue
      omega
    | succ k ih =>
      by_cases h : f lo ≤ hi
      · push_cast at hbeyond htop
        have hmore : 0 ≤ (k + 1 : Int) * size := mul_nonneg (by omega) hsize.le
        have hadd := hf.add (b := lo) (by linarith)
        obtain ⟨fuel, bs, hwalk, hclimb⟩ := ih h (by rw [hadd]; linarith) (by rw [hadd]; linarith)
        have hlt : lo < f lo := not_le.1 fun hle => by
          have hvalue := hf.le_iff.2 hle
          omega
        refine ⟨fuel + 1, f lo :: bs, ?_, isChain_cons_cons.2 ⟨hlt, hclimb⟩⟩
        simp only [walk, upTo, if_pos h, map_eq_some_iff]
        exact ⟨bs, hwalk, rfl⟩
      · exact hstop h

end UpTo

end Walks
