/-
Backfill thread IDs across a restart.

The ID of a chunk is the text of its bounds.  A chunk taken from a loaded state has
the same bounds in other Go types, so its ID is the same only where the two types
print alike: a string does when it is UTF-8, an integer when it has at most six
digits, since a float64 is printed in exponent form from there on.
-/
import Olake.Model.Backfill
import Olake.Proofs.State

namespace Olake

open Binary64 Utf8 List

/-! ### One bound -/

/-- The bound is printed alike before and after a reload. -/
def Bound.Stable : Bound → Prop
  | .value (.str s) => Valid s
  | .value (.int64 n) => n.toInt.natAbs < 10 ^ 6
  | .value _ => True
  | .strings keys => ∀ k ∈ keys, Valid k
  | .anys keys => ∀ k ∈ keys, Valid k

instance (b : Bound) : Decidable b.Stable := by
  unfold Bound.Stable
  split <;> infer_instance

theorem Float64.ofInt_natAbs (n : Int) : (ofInt n).val.natAbs = round n.natAbs := by
  rw [ofInt_val]
  rcases lt_trichotomy n 0 with h | rfl | h
  · simp [Int.sign_eq_neg_one_of_neg h]
  · rfl
  · simp [Int.sign_eq_one_of_pos h]

theorem Float64.ofInt_neg (n : Int) : (ofInt n).val < 0 ↔ n < 0 := by
  rw [ofInt_val]
  rcases lt_trichotomy n 0 with h | rfl | h
  · have hpos : round n.natAbs ≠ 0 := by
      intro h0
      have := round_eq_of_round_lt (n := n.natAbs) (by rw [h0]; norm_num)
      omega
    rw [Int.sign_eq_neg_one_of_neg h]
    omega
  · simp
  · rw [Int.sign_eq_one_of_pos h]
    omega

theorem Float64.print_ofInt (n : Int) :
    (ofInt n).print = if n < 0 then 45 :: general (round n.natAbs) else general (round n.natAbs) := by
  unfold print
  simp only [ofInt_neg, ofInt_natAbs]

theorem print_ofInt_of_lt (h : n.natAbs < 10 ^ 6) : (Float64.ofInt n).print = printInt n := by
  rw [Float64.print_ofInt, round_of_lt (h.trans (by norm_num)), general_of_lt h]
  rfl

/-- An integer and its float64, both printed before the same separator, agree only
up to six digits. -/
theorem lt_of_print_ofInt_append
    (h : (Float64.ofInt n).print ++ s :: v = printInt n ++ s :: u) : n.natAbs < 10 ^ 6 := by
  rw [Float64.print_ofInt] at h
  unfold printInt at h
  split at h
  · exact general_round_append (tail_eq_of_cons_eq h)
  · exact general_round_append h

theorem valid_of_joinBlank_append (hc : c < 0x80)
    (h : joinBlank (l.map toValid) ++ c :: y = joinBlank l ++ c :: x) : ∀ k ∈ l, Valid k := by
  induction l using joinBlank.induct with
  | case1 => simp
  | case2 k => simpa using valid_of_toValid_append hc h
  | case3 k rest hrest ih =>
    have hsplit : ∀ l : List Bytes, ∀ k, l ≠ [] → joinBlank (k :: l) = k ++ 32 :: joinBlank l := by
      intro l k hl
      cases l with
      | nil => exact absurd rfl hl
      | cons a l => rfl
    rw [map_cons, hsplit _ _ (by simpa using hrest), hsplit _ _ hrest,
      append_assoc, append_assoc] at h
    have hk : Valid k := valid_of_toValid_append (by decide) h
    rw [toValid_of_valid hk] at h
    have hrec := ih (tail_eq_of_cons_eq (append_cancel_left h))
    simpa using ⟨hk, hrec⟩

theorem Bound.print_reload {b : Bound} (h : b.Stable) : b.reload.print = b.print := by
  match b, h with
  | .value .null, _ => rfl
  | .value (.str s), h => exact toValid_of_valid h
  | .value (.int64 n), h => exact print_ofInt_of_lt h
  | .value (.float64 x), _ => rw [Bound.reload_value, Value.reload_float64]
  | .strings l, h => simp [Bound.print, map_toValid_eq_self.2 h]
  | .anys l, h => simp [map_toValid_eq_self.2 h]

/-- A bound printed before the bracket that closes it tells whether it is stable. -/
theorem Bound.stable_of_print_append {b : Bound}
    (h : b.reload.print ++ 93 :: y = b.print ++ 93 :: x) : b.Stable := by
  match b, h with
  | .value .null, _ => trivial
  | .value (.str s), h => exact valid_of_toValid_append (by decide) h
  | .value (.int64 n), h => exact lt_of_print_ofInt_append h
  | .value (.float64 _), _ => trivial
  | .strings l, h =>
    simp only [Bound.reload_strings, Bound.print, cons_append, append_assoc] at h
    exact valid_of_joinBlank_append (by decide) (tail_eq_of_cons_eq h)
  | .anys l, h =>
    simp only [Bound.reload_anys, Bound.print, cons_append, append_assoc] at h
    exact valid_of_joinBlank_append (by decide) (tail_eq_of_cons_eq h)

/-! ### One chunk -/

theorem Chunk.print_eq (c : Chunk) : c.print =
    ascii "min[" ++ (c.min.print ++ 93 :: (ascii "-max[" ++ (c.max.print ++ 93 :: []))) := by
  unfold print
  simp only [List.append_assoc]
  rfl

theorem Chunk.threadID_inj {c d : Chunk} :
    c.threadID ulid streamID = d.threadID ulid streamID ↔ c.print = d.print := by
  have hne : ∀ c : Chunk, c.print ≠ [] := fun c => by exact cons_ne_nil _ _
  unfold threadID generateThreadID
  rw [if_pos (hne c), if_pos (hne d), append_cancel_left_eq]

/-- The ID of a chunk is the ID of the reloaded chunk exactly when both bounds are
stable. -/
theorem Chunk.threadID_reload {c : Chunk} :
    c.reload.threadID ulid streamID = c.threadID ulid streamID ↔ c.min.Stable ∧ c.max.Stable := by
  rw [threadID_inj, print_eq, print_eq]
  simp only [reload, Bound.reload_reload, append_cancel_left_eq]
  constructor
  · intro h
    have hmin := Bound.stable_of_print_append h
    rw [Bound.print_reload hmin, append_cancel_left_eq] at h
    have hmax := append_cancel_left (tail_eq_of_cons_eq h)
    exact ⟨hmin, Bound.stable_of_print_append hmax⟩
  · rintro ⟨hmin, hmax⟩
    rw [Bound.print_reload hmin, Bound.print_reload hmax]

/-! ### The chunks of a stream -/

section Stream

variable {H : Type} [DecidableEq H] (hash : Chunk → H)

/-- Every chunk of the stream is found in the loaded state under the ID it had. -/
def IDsStable (ulid streamID : Bytes) (st : State) (id : StreamID) : Prop :=
  ∀ set, st.GetChunks id = some set → ∃ set', (st.reload hash).GetChunks id = some set' ∧
    ∀ c ∈ set, c.reload ∈ set' ∧ c.reload.threadID ulid streamID = c.threadID ulid streamID

/-- The IDs of a stream's chunks survive saving and loading exactly when all their
bounds are stable. -/
theorem threadID_stable_iff (ulid streamID : Bytes) (st : State) (id : StreamID)
    (hcol : ∀ set, st.GetChunks id = some set → NoCollision hash set) :
    IDsStable hash ulid streamID st id ↔
      ∀ set, st.GetChunks id = some set → ∀ c ∈ set, c.min.Stable ∧ c.max.Stable := by
  refine forall₂_congr fun set hset => ?_
  rw [st.GetChunks_reload, hset]
  constructor
  · rintro ⟨set', -, h⟩ c hc
    exact Chunk.threadID_reload.1 (h c hc).2
  · intro h
    refine ⟨_, rfl, fun c hc => ⟨?_, Chunk.threadID_reload.2 (h c hc)⟩⟩
    exact (mem_NewSet_reload hash (hcol set hset) _).2 ⟨c, hc, rfl⟩

end Stream

/-- A stream whose only chunk is the rows from the given id on. -/
def rowsFromState (n : Int64) : State :=
  State.empty.SetChunks ⟨"public", "orders"⟩ false
    [{ min := .value (.int64 n), max := .value .null }]

theorem threadID_stable_small :
    IDsStable id [] (ascii "public.orders") (rowsFromState 42) ⟨"public", "orders"⟩ ↔
      ∀ set, (rowsFromState 42).GetChunks ⟨"public", "orders"⟩ = some set →
        ∀ c ∈ set, c.min.Stable ∧ c.max.Stable :=
  threadID_stable_iff id [] (ascii "public.orders") (rowsFromState 42) ⟨"public", "orders"⟩
    fun _ _ _ _ _ _ h => h

/-- A chunk that starts at one million is `min[1000000]` when split and
`min[1e+06]` when loaded. -/
theorem threadID_changes_at_million :
    ¬ IDsStable id [] (ascii "public.orders") (rowsFromState 1000000) ⟨"public", "orders"⟩ := by
  intro h
  obtain ⟨_, -, hids⟩ := h _ rfl
  have hid := (hids _ (mem_singleton.2 rfl)).2
  revert hid
  decide

end Olake
