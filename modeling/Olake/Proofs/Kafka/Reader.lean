/-
What a reader of the Kafka driver has done when its loop ends: of each partition it
has processed the messages from the committed offset on without a gap, and the last
message it remembers is the last of them.
-/
import Olake.Model.Kafka

namespace Olake.Kafka

open List Option

variable {S K R Row : Type} [DecidableEq K]

/-! ### Go maps as lists -/

theorem lookup_cons_ite (q p : K) (o : Nat) (l : List (K × Nat)) :
    ((p, o) :: l).lookup q = if q = p then some o else l.lookup q := by
  rw [lookup_cons]
  by_cases hq : q = p
  · rw [if_pos hq, beq_iff_eq.2 hq]
  · rw [if_neg hq, beq_eq_false_iff_ne.2 hq]

theorem lookup_setLast (p : K) (offset : Nat) (l : List (K × Nat)) (q : K) :
    (setLast p offset l).lookup q = if q = p then some offset else l.lookup q := by
  fun_induction setLast p offset l <;> grind

theorem setLast_ne_nil (p : K) (offset : Nat) (l : List (K × Nat)) : setLast p offset l ≠ [] := by
  fun_cases setLast p offset l <;> simp

theorem lookup_next (p : K) (l : List (K × Nat)) :
    (l.map (fun m => (m.1, m.2 + 1))).lookup p = (l.lookup p).map (· + 1) := by
  induction l with
  | nil => rfl
  | cons m rest ih => grind

/-! ### What a reader has read

Of each partition the messages from where consumption began up to the client's
position, without a gap; the last message is the one before the position. -/

structure ReadFrom (w : World S K R) (start : K → Nat) (s : Progress S K Row) : Prop where
  position : ∀ p, start p ≤ s.position p
  last : ∀ p o, s.lastMessages.lookup p = some o → s.position p = o + 1
  messages : ∀ p k, (p, k) ∈ s.messages ↔ start p ≤ k ∧ k < s.position p
  known : ∀ p k, (p, k) ∈ s.messages → ∃ pm, w.partitionMeta p = some pm

variable {w : World S K R}

theorem ReadFrom.record (h : ReadFrom w start s)
    (assigned : List K) (hpm : w.partitionMeta p = some pm)
    (rows : List Row) : ReadFrom w start (processRecord w assigned pm p rows s).1 := by
  have hpos : ∀ q, (processRecord w assigned pm p rows s).1.position q =
      if q = p then s.position p + 1 else s.position q := by
    intro q
    simp only [processRecord, Function.update_apply]
  refine ⟨fun q => ?_, fun q o hlast => ?_, fun q k => ?_, fun q k hk => ?_⟩
  · have hq := h.position q
    grind
  · simp only [processRecord, lookup_setLast] at hlast
    have hq := h.last q o
    grind
  · have hq := h.position q
    simp only [processRecord, mem_cons, h.messages q k]
    grind
  · simp only [processRecord, mem_cons] at hk
    rcases hk with ⟨rfl, _⟩ | hk
    · exact ⟨pm, hpm⟩
    · exact h.known q k hk

/-- What every processed message keeps holds when the loop ends. -/
theorem processKafkaMessages_keeps {P : Progress S K Row → Prop} (assigned : List K)
    (hrec : ∀ s p pm rows, w.partitionMeta p = some pm → P s →
      P (processRecord w assigned pm p rows s).1) (ticks : List (Tick K Row)) (s : Progress S K Row)
    (h : P s) : P (processKafkaMessages w assigned ticks s).1 := by
  fun_induction processKafkaMessages w assigned ticks s with
  | case8 p rows ticks s pm hpm s' heq =>
    have hs' := hrec s p pm rows hpm h
    rwa [heq] at hs'
  | case9 p rows ticks s pm hpm s' stop heq hgo ih =>
    have hs' := hrec s p pm rows hpm h
    rw [heq] at hs'
    exact ih hs'
  | _ => exact h

/-- Where consumption of a partition begins. -/
def startOf (w : World S K R) (p : K) : Nat := (w.committed p).getD 0

theorem consume_read (i : Input K R Row) (w : World S K R) (assigned : List K) :
    ReadFrom w (startOf w) (consume i w assigned).1 := by
  refine processKafkaMessages_keeps assigned (fun s p pm rows hpm h => h.record assigned hpm rows) _ _ ?_
  refine ⟨fun p => Nat.le_refl _, ?_, ?_, ?_⟩
  · nofun
  · intro p k
    simp only [startOf, not_mem_nil, false_iff]
    omega
  · nofun

/-- A reader that ends well without a message saw an empty poll or was asked to
stop at once. -/
theorem consume_idle (hok : (consume i w assigned).2 = .ok)
    (hnone : (consume i w assigned).1.lastMessages = []) :
    i.ticks.head? = some .pollTimeout ∨ i.ticks.head? = some (.exit false) := by
  unfold consume at hok hnone
  generalize i.ticks = ticks at hok hnone ⊢
  generalize Progress.mk _ _ _ _ _ = s at hok hnone
  revert hok hnone
  fun_cases processKafkaMessages w assigned ticks s with
  | case3 err => cases err <;> simp
  | case8 =>
    rename_i p rows ticks pm hpm s' heq
    intro _ hnone
    have hset : (processRecord w assigned pm p rows s).1.lastMessages ≠ [] := setLast_ne_nil _ _ _
    rw [heq] at hset
    exact absurd hnone hset
  | case9 =>
    rename_i p rows ticks pm hpm s' stop hgo heq
    intro _ hnone
    have hset : (processRecord w assigned pm p rows s).1.lastMessages ≠ [] := setLast_ne_nil _ _ _
    rw [heq] at hset
    exact absurd hnone (processKafkaMessages_keeps (P := fun s => s.lastMessages ≠ []) assigned
      (fun _ _ _ _ _ _ => setLast_ne_nil _ _ _) ticks _ hset)
  | _ => simp

/-! ### Committed records -/

/-- Recovery commits offsets that stand in the metadata of the partition's stream. -/
theorem recordsToCommit_lookup (w : World S K R) (states : S → Option (Meta K)) (assigned : List K)
    (records : List (K × Nat)) (p : K) (o : Nat)
    (hr : recordsToCommit w states assigned = some records) (hp : records.lookup p = some o) :
    ∃ pm m, w.partitionMeta p = some pm ∧ states pm.stream = some m ∧ m.offsets p = some o := by
  fun_induction recordsToCommit w states assigned generalizing records with
  | case1 =>
    cases hr
    cases hp
  | case7 q rest pm hpm m hm hgroup next hnext hend hc ih
  | case9 q rest pm hpm m hm hgroup next hnext hend c hc hle hlt ih =>
    -- one more record, for `q`, in front of those of the rest
    obtain ⟨records', hr', rfl⟩ := map_eq_some_iff.1 hr
    rw [lookup_cons_ite] at hp
    split at hp
    · next hpq =>
      subst hpq
      exact ⟨pm, m, hpm, hm, hnext.trans hp⟩
    · exact ih records' hr' hp
  | _ => grind

theorem startOf_commitRecords (w : World S K R) (c : Commit K) (records : List (K × Nat))
    (p : K) : startOf { w with committed := commitRecords w.committed c records } p = startOf w p ∨
      ∃ o, records.lookup p = some o ∧
        startOf { w with committed := commitRecords w.committed c records } p = o := by
  unfold startOf commitRecords
  cases hl : records.lookup p with
  | none => left; simp only [hl]
  | some o =>
    by_cases hc : (c.ok || c.applied p) = true
    · right
      exact ⟨o, rfl, by simp only [hl, if_pos hc, getD_some]⟩
    · left
      simp only [hl, if_neg hc]

end Olake.Kafka
