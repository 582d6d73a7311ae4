/-
Every text key is in one chunk.

The places that `condenseStrings` rounds to are at least one apart, since there are more
candidates than chunks (`condensedIndex_strictMono`).  So a list that ascends in the collation is
thinned to one that ascends, whatever attempt it comes from.
-/
import Mathlib.Data.List.OfFn
import Mathlib.Data.String.Basic
import Olake.Model.StringSplits

namespace Olake.StringSplits

open List

/-! ### Texts as numbers -/

theorem charset_nodup : charset.Nodup := by decide +kernel

theorem charToIndex_eq_some (h : charToIndex ch = some i) :
    i = charset.idxOf ch + 1 ∧ i ≤ 95 ∧ indexToChar i = ch := by
  unfold charToIndex at h
  split at h
  · next hmem =>
    cases h
    have hlt := idxOf_lt_length_of_mem hmem
    have hbase : charset.length = 95 := charsetBase_eq
    refine ⟨rfl, by omega, ?_⟩
    simp [indexToChar, hlt]
  · cases h

theorem charToIndex_indexToChar (hpos : 1 ≤ i) (hle : i ≤ 95) : charToIndex (indexToChar i) = some i := by
  have hlt : i - 1 < charset.length := by
    have hbase : charset.length = 95 := charsetBase_eq
    omega
  have hchar : indexToChar i = charset[i - 1] := by
    obtain ⟨i, rfl⟩ := Nat.exists_eq_add_of_le' hpos
    simp only [Nat.add_sub_cancel] at hlt ⊢
    simp [indexToChar, hlt]
  rw [charToIndex, hchar, if_pos (getElem_mem hlt), charset_nodup.idxOf_getElem]
  simp only [Option.some.injEq]
  omega

/-- The last character of a text is taken off its number. -/
theorem decodeLoop_mul_add (hpos : 1 ≤ i) (hle : i ≤ 95) (v : Nat) :
    decodeLoop (v * 95 + i) = indexToChar i :: decodeLoop v := by
  rw [decodeLoop, if_neg (by omega), charsetBase_eq]
  by_cases hi : i = 95
  · rw [if_pos (by omega), hi]
    congr 2
    omega
  · rw [if_neg (by omega)]
    congr 2 <;> omega

theorem encode_concat : encodeCharsetStringToBigInt (s ++ [ch]) = .ok n ↔
    ∃ v i, encodeCharsetStringToBigInt s = .ok v ∧ charToIndex ch = some i ∧ n = v * 95 + i := by
  unfold encodeCharsetStringToBigInt
  rw [foldlM_append, charsetBase_eq]
  cases List.foldlM (m := Except String) _ 0 s with
  | error text => simp [bind, Except.bind]
  | ok v => cases hch : charToIndex ch <;> simp [bind, Except.bind, pure, Except.pure, hch, eq_comm]

theorem decode_encode (h : encodeCharsetStringToBigInt s = .ok n) :
    decodeBigIntToCharsetString n = s := by
  induction s using reverseRecOn generalizing n with
  | nil =>
    cases h
    rw [decodeBigIntToCharsetString, decodeLoop, if_pos rfl, reverse_nil]
  | append_singleton s ch ih =>
    obtain ⟨v, i, hs, hch, rfl⟩ := encode_concat.1 h
    obtain ⟨hindex, hle, hchar⟩ := charToIndex_eq_some hch
    rw [decodeBigIntToCharsetString, decodeLoop_mul_add (by omega) hle, reverse_cons, hchar]
    exact congrArg (· ++ [ch]) (ih hs)

theorem encode_decode (n : Nat) :
    encodeCharsetStringToBigInt (decodeBigIntToCharsetString n) = .ok n := by
  induction n using Nat.strong_induction_on with
  | _ n ih =>
    by_cases hzero : n = 0
    · subst hzero
      rw [decodeBigIntToCharsetString, decodeLoop]
      rfl
    · obtain ⟨v, i, hpos, hle, rfl⟩ : ∃ v i, 1 ≤ i ∧ i ≤ 95 ∧ n = v * 95 + i :=
        ⟨(n - 1) / 95, (n - 1) % 95 + 1, by omega, by omega, by omega⟩
      rw [decodeBigIntToCharsetString, decodeLoop_mul_add hpos hle, reverse_cons, encode_concat]
      exact ⟨v, i, ih v (by omega), charToIndex_indexToChar hpos hle, rfl⟩

theorem encode_ok (h : ∀ ch ∈ s, ch ∈ charset) : ∃ n, encodeCharsetStringToBigInt s = .ok n := by
  induction s using reverseRecOn with
  | nil => exact ⟨0, rfl⟩
  | append_singleton s ch ih =>
    obtain ⟨v, hv⟩ := ih fun c hc => h c (by simp [hc])
    exact ⟨_, encode_concat.2 ⟨v, _, hv, if_pos (h ch (by simp)), rfl⟩⟩

theorem lt_concat_iff {a b : List Nat} (h : a.length = b.length) :
    a ++ [x] < b ++ [y] ↔ a < b ∨ a = b ∧ x < y := by
  induction a generalizing b with
  | nil => simp [eq_nil_of_length_eq_zero h.symm, cons_lt_cons_iff]
  | cons c a ih =>
    obtain ⟨d, b, rfl⟩ := exists_cons_of_length_eq_add_one h.symm
    simp only [cons_append, cons_lt_cons_iff]
    grind

theorem encode_mono (hlength : s.length = t.length) (hs : encodeCharsetStringToBigInt s = .ok m)
    (ht : encodeCharsetStringToBigInt t = .ok n) :
    (s.map charset.idxOf < t.map charset.idxOf → m < n) ∧
      (s.map charset.idxOf = t.map charset.idxOf → m = n) := by
  induction s using reverseRecOn generalizing t m n with
  | nil =>
    cases eq_nil_of_length_eq_zero hlength.symm
    cases hs.symm.trans ht
    simp
  | append_singleton s ch ih =>
    obtain rfl | ⟨t, ch', rfl⟩ := t.eq_nil_or_concat'
    · simp at hlength
    obtain ⟨v, i, hv, hch, rfl⟩ := encode_concat.1 hs
    obtain ⟨v', i', hv', hch', rfl⟩ := encode_concat.1 ht
    have hlengths : s.length = t.length := by simpa using hlength
    obtain ⟨hlt, heq⟩ := ih hlengths hv hv'
    have hi := charToIndex_eq_some hch
    have hi' := charToIndex_eq_some hch'
    simp only [map_append, map_singleton]
    rw [lt_concat_iff (by simpa using hlengths)]
    refine ⟨by grind, fun h => ?_⟩
    have := append_inj' h rfl
    grind

/-- **Bijective numeration.**  Texts over the characters stand for the natural numbers, and among
texts of one length the order of the characters is the order of the numbers. -/
theorem charset_bijection :
    (∀ s : List Char, (∀ ch ∈ s, ch ∈ charset) →
        ∃ n, encodeCharsetStringToBigInt s = .ok n ∧ decodeBigIntToCharsetString n = s) ∧
      (∀ n, encodeCharsetStringToBigInt (decodeBigIntToCharsetString n) = .ok n) ∧
      ∀ s t m n, s.length = t.length → encodeCharsetStringToBigInt s = .ok m →
        encodeCharsetStringToBigInt t = .ok n → s.map charset.idxOf < t.map charset.idxOf → m < n := by
  refine ⟨fun s hs => ?_, encode_decode, fun s t m n hlength hs ht => (encode_mono hlength hs ht).1⟩
  obtain ⟨n, hn⟩ := encode_ok hs
  exact ⟨n, hn, decode_encode hn⟩

/-! ### Chunks -/

theorem condensedIndex_strictMono (h : E < n) (hE : 2 ≤ E) (hij : i < j) :
    condensedIndex n E i < condensedIndex n E j := by
  have hstep : i * (n - 1) + (n - 1) ≤ j * (n - 1) := by
    rw [← Nat.succ_mul]
    exact Nat.mul_le_mul_right _ hij
  calc condensedIndex n E i
      < (i * (n - 1) + (E - 1) / 2 + (E - 1)) / (E - 1) := by
        rw [Nat.add_div_right _ (by omega)]
        exact Nat.lt_succ_self _
    _ ≤ condensedIndex n E j := Nat.div_le_div_right (by omega)

theorem condensedIndex_ends (hE : 2 ≤ E) :
    condensedIndex n E 0 = 0 ∧ condensedIndex n E (E - 1) = n - 1 := by
  have hhalf : (E - 1) / 2 < E - 1 := Nat.div_lt_self (by omega) (by decide)
  refine ⟨?_, ?_⟩
  · rw [condensedIndex, Nat.zero_mul, Nat.zero_add, Nat.div_eq_of_lt hhalf]
  · rw [condensedIndex, Nat.mul_add_div (by omega), Nat.div_eq_of_lt hhalf, Nat.add_zero]

variable {α : Type} {l : List α}

theorem condenseStrings_pairwise (h : l.Pairwise R) (hE : 0 < E) :
    (condenseStrings l E).Pairwise R := by
  unfold condenseStrings
  split_ifs with hle hone
  · exact h
  · exact h.sublist (take_sublist 1 l)
  · rw [pairwise_ofFn]
    intro i j hij
    exact pairwise_iff_get.1 h _ _ (condensedIndex_strictMono (Nat.lt_of_not_le hle) (by omega) hij)

theorem condenseStrings_ne_nil (h : l ≠ []) (hE : 0 < E) : condenseStrings l E ≠ [] := by
  unfold condenseStrings
  split_ifs with hle hone
  · exact h
  · simpa using h
  · exact ne_nil_of_length_pos (by rwa [length_ofFn])

theorem condenseStrings_ends (l : List α) (hE : 2 ≤ E) :
    (condenseStrings l E).head? = l.head? ∧ (condenseStrings l E).getLast? = l.getLast? := by
  unfold condenseStrings
  split_ifs with hle hone
  · exact ⟨rfl, rfl⟩
  · omega
  · obtain ⟨hfirst, hlast⟩ := condensedIndex_ends (n := l.length) hE
    refine ⟨?_, ?_⟩
    · rw [head?_eq_getElem?, head?_eq_getElem?, getElem?_eq_getElem (by rw [length_ofFn]; omega)]
      simp [hfirst]
    · rw [getLast?_eq_getElem?, getLast?_eq_getElem?, getElem?_eq_getElem (by rw [length_ofFn]; omega)]
      simp [hlast]

variable {env : Env} {bounds : StringChunkBounds}

/-- The boundaries are those of some answer, if there are any. -/
theorem attempts_keep {Q : List String → Prop} (hquery : ∀ c values, env.query c = .rows values → Q values)
    (h : attempts env bounds step E factors best = .ok (boundaries, err)) (hbest : Q best) : Q boundaries := by
  induction factors generalizing best with
  | nil =>
    cases h
    exact hbest
  | cons factor rest ih =>
    rw [attempts] at h
    split at h
    · cases h
      exact hbest
    · cases h
    · cases h
    · next values hvalues =>
      have hlonger : Q (if best.length < values.length then values else best) := by
        split
        · exact hquery _ _ hvalues
        · exact hbest
      dsimp only at h
      split at h
      · cases h
        exact hlonger
      · exact ih h hlonger

/-- **The chunks of text keys.**  If the keys that the database answers with ascend in the
collation, which orders texts by their weights, the chunks lie between ascending boundaries and
every key is in one of them.  Thinning keeps the first and the last boundary. -/
theorem string_chunks_partition {K : Type} [LinearOrder K] (weight : String → K) (env : Env)
    (bounds : StringChunkBounds) (size : Int)
    (hquery : ∀ c values, env.query c = .rows values → values.Pairwise (weight · < weight ·))
    (hsplit : splitEvenlyForString env bounds size = .ok chunks) :
    (∃ boundaries, chunks = Ranges.ranges boundaries ∧ boundaries.Pairwise (weight · < weight ·)) ∧
      (∀ key, ∃! chunk, chunk ∈ chunks ∧ Ranges.Within (weight · ≤ weight key) chunk) ∧
      ∀ (boundaries : List String) (expectedChunks : Nat), 2 ≤ expectedChunks →
        (condenseStrings boundaries expectedChunks).head? = boundaries.head? ∧
          (condenseStrings boundaries expectedChunks).getLast? = boundaries.getLast? := by
  have hE : 0 < if env.expected size ≤ 0 then 1 else (env.expected size).toNat := by split <;> omega
  unfold splitEvenlyForString at hsplit
  dsimp only at hsplit
  generalize (if env.expected size ≤ 0 then 1 else (env.expected size).toNat) = E at hE hsplit
  split at hsplit
  · cases hsplit
  · next boundaries err hattempts =>
    split at hsplit
    · cases hsplit
    · next henough =>
      cases hsplit
      have hne : boundaries ≠ [] := by
        rintro rfl
        exact henough (env.accepted_pos E hE)
      have hsorted := condenseStrings_pairwise (attempts_keep hquery hattempts Pairwise.nil) hE
      refine ⟨⟨_, rfl, hsorted⟩, fun key => ?_, fun l E => condenseStrings_ends l⟩
      refine (Ranges.existsUnique_range_iff (condenseStrings_ne_nil hne hE) ?_).2 ?_
      · exact hsorted.imp fun hlt => ne_of_apply_ne weight hlt.ne
      · exact hsorted.isChain.imp fun a b hlt hle => hlt.le.trans hle

/-- A table with four keys, of which two chunks are expected.  The database answers with the
first key at or after each candidate. -/
def fourKeys : Env where
  streamID := "shop.codes"
  expected _ := 2
  accepted n := n
  accepted_pos _ h := h
  query candidates := .rows (["aa", "ai", "ar", "az"].filter fun key =>
    candidates.any fun candidate => ["aa", "ai", "ar", "az"].find? (candidate ≤ ·) = some key)

theorem fourKeys_sorted (h : fourKeys.query c = .rows values) : values.Pairwise (· < ·) := by
  cases h
  exact (by decide +kernel : ["aa", "ai", "ar", "az"].Pairwise (· < ·)).filter _

def fourKeysBounds : StringChunkBounds := ⟨"az", 3552, 3577, by decide⟩

theorem candidates_fourKeys : candidates fourKeysBounds 7 4 3552 = ["aa", "ah", "ao", "av"] := by
  have haa : decodeBigIntToCharsetString 3552 = "aa".toList := decode_encode rfl
  have hah : decodeBigIntToCharsetString 3559 = "ah".toList := decode_encode rfl
  have hao : decodeBigIntToCharsetString 3566 = "ao".toList := decode_encode rfl
  have hav : decodeBigIntToCharsetString 3573 = "av".toList := decode_encode rfl
  simp only [candidates, fourKeysBounds, haa, hah, hao, hav, Nat.reduceAdd, Nat.reduceLT, if_true]
  rfl

theorem string_chunks_of_four :
    isStringSupportedPK "aa" "az" (some 2) "varchar" = some fourKeysBounds ∧
    splitEvenlyForString fourKeys fourKeysBounds 0 =
        .ok [(none, some "aa"), (some "aa", some "az"), (some "az", none)] ∧
      ∀ key : String, ∃! chunk, chunk ∈ [(none, some "aa"), (some "aa", some "az"), (some "az", none)] ∧
        Ranges.Within (· ≤ key) chunk := by
  have hattempt : attempt fourKeys fourKeysBounds 13 2 1 = .rows ["aa", "ai", "ar", "az"] := by
    change fourKeys.query (candidates fourKeysBounds 7 4 3552 ++ ["az"]) = _
    rw [candidates_fourKeys]
    exact congrArg Answer.rows (by decide +kernel)
  have hsplit : splitEvenlyForString fourKeys fourKeysBounds 0 =
      .ok [(none, some "aa"), (some "aa", some "az"), (some "az", none)] := by
    have hattempts : attempts fourKeys fourKeysBounds 13 2 stepShrinkFactors [] =
        .ok (["aa", "ai", "ar", "az"], none) := by
      change attempts fourKeys fourKeysBounds 13 2 (1 :: _) [] = _
      rw [attempts, hattempt]
      rfl
    dsimp only [splitEvenlyForString]
    erw [hattempts]
    rfl
  exact ⟨rfl, hsplit, (string_chunks_partition id fourKeys _ 0 (fun _ _ => fourKeys_sorted) hsplit).2.1⟩

end Olake.StringSplits
