/-
One finished commit at a time.

At most one commit attempt whose `finish.json` is durable is still on its way: it is
`Sealed`, and each of its files is staged, at its final key, or both.  All other
attempts are `Settled`: the files of a finished one are at their final keys, and those
of an unfinished one at most in the staging area.  While no attempt is sealed, the
table is `Idle`, and whatever is staged is left over from unfinished attempts.
-/
import Olake.Proofs.CommitMetadata
import Olake.Proofs.Parquet.Entries

namespace Olake.Parquet

open CommitMetadata (addCommittedID_idem union_self)
open Faulty Faulty.Prog List

variable (p : Config)

/-! ### Metadata -/

/-- What a finished attempt adds to the metadata. -/
def Attempt.commitTo (a : Attempt) (m : MetadataState) : MetadataState :=
  match a.writer with
  | .backfill threadID => addCommittedID m threadID
  | .stream => mergeStreamMetadataState m (a.finalMetadataState.getD {})

/-- The metadata after these attempts have been committed in this order. -/
def metadataAfter (finished : List Attempt) : Option MetadataState :=
  finished.foldl (fun m a => some (a.commitTo (m.getD {}))) none

theorem metadataAfter_append (finished : List Attempt) (a : Attempt) :
    metadataAfter (finished ++ [a]) = some (a.commitTo ((metadataAfter finished).getD {})) := by
  simp [metadataAfter]

theorem mergeState_idem (current : Option State) (next : State) :
    CommitMetadata.mergeState State.jsonText
        (some (CommitMetadata.mergeState State.jsonText current next)) next =
      CommitMetadata.mergeState State.jsonText current next := by
  cases next with
  | other raw => rcases current with _ | old | raw <;> rfl
  | object fields =>
    rcases current with _ | old | raw
    · exact congrArg State.object (union_self fields)
    · refine congrArg State.object ?_
      rw [← Finmap.union_assoc, union_self]
    · exact congrArg State.object (union_self fields)

theorem mergeStreamMetadataState_idem (m next : MetadataState) :
    mergeStreamMetadataState (mergeStreamMetadataState m next) next =
      mergeStreamMetadataState m next := by
  obtain ⟨id, state, ids, flag⟩ := next
  cases state with
  | none => cases id <;> cases flag <;> rfl
  | some s =>
    have hstate := congrArg some (mergeState_idem m.state s)
    cases id <;> cases flag <;> simp_all [CommitMetadata.mergeStreamMetadataState]

theorem commitTo_idem (a : Attempt) (m : MetadataState) :
    a.commitTo (a.commitTo m) = a.commitTo m := by
  unfold Attempt.commitTo
  cases a.writer with
  | backfill t => exact addCommittedID_idem t m
  | stream => exact mergeStreamMetadataState_idem m _

/-! ### Where an attempt stands -/

def Attempt.finishState (a : Attempt) : FinishState :=
  match a.writer with
  | .backfill threadID => .backfill threadID
  | .stream => .stream a.finalMetadataState

def Attempt.object (a : Attempt) (f : DataPath) : Object := .data a.writer f

/-- A finished attempt has each of its files at its final key and nowhere else; a file
of an attempt that was not finished is at most staged. -/
def Settled (a : Attempt) (w : World) : Prop :=
  (a ∈ w.finished → ∀ f ∈ a.files, ∀ k, w.at k = some (a.object f) ↔ k = finalKey p f.path) ∧
    (a ∉ w.finished → ∀ f ∈ a.files, ∀ k, w.at k = some (a.object f) →
      k = stagingObjectKey p a.writer f)

variable (made : List Attempt)

/-- The attempts of a run: no file name is used twice, no final key lies in the
staging area, and threads have names. -/
structure WellFormed : Prop where
  nodup : made.Nodup
  finals : ((made.flatMap Attempt.files).map (fun f => finalKey p f.path)).Nodup
  outside : ∀ a ∈ made, ∀ f ∈ a.files, ¬ InStaging p (finalKey p f.path)
  named : ∀ a ∈ made, a.writer ≠ .backfill []

/-- The metadata in the bucket. -/
def MetadataIs (m : Option MetadataState) (w : World) : Prop :=
  w.at (metadataObjectKey p) = m.map .metadata

/-- What is staged at `k` is left over from an attempt that was not finished. -/
def Leftover (w : World) (k : Key) : Prop :=
  ∃ b ∈ made, b ∉ w.finished ∧ ∃ f ∈ b.files, k = stagingObjectKey p b.writer f ∧
    w.at k = some (b.object f)

/-- No finished attempt is on its way. -/
structure Idle (w : World) : Prop where
  settled : ∀ a ∈ made, Settled p a w
  staged : ∀ k, InStaging p k → w.at k ≠ none → Leftover p made w k
  metadata : MetadataIs p (metadataAfter w.finished) w

/-- `finish.json` is durable, and each file is staged, at its final key, or both.
Beside a backfill attempt there may be leftovers outside of the thread directories. -/
structure Sealed (a : Attempt) (w : World) : Prop where
  mem : a ∈ made
  finished : ∃ before, w.finished = before ++ [a] ∧
    (MetadataIs p (metadataAfter before) w ∨ MetadataIs p (metadataAfter (before ++ [a])) w)
  marker : w.at (finishObjectKey p a.writer) = some (.finish a.finishState)
  state : a.writer = .stream → a.finalMetadataState ≠ none
  others : ∀ b ∈ made, b ≠ a → Settled p b w
  staged : ∀ k, InStaging p k → w.at k ≠ none → k = finishObjectKey p a.writer ∨
    (∃ f ∈ a.files, k = stagingObjectKey p a.writer f ∧ w.at k = some (a.object f)) ∨
    (a.writer.isBackfill = true ∧ threadDir (stagingRootPrefix p) k = none ∧ Leftover p made w k)
  only : ∀ f ∈ a.files, ∀ k, w.at k = some (a.object f) →
    k = stagingObjectKey p a.writer f ∨ k = finalKey p f.path
  present : ∀ f ∈ a.files, w.at (stagingObjectKey p a.writer f) = some (a.object f) ∨
    w.at (finalKey p f.path) = some (a.object f)

/-- Only the marker is left of what the attempt staged. -/
def Promoted (p : Config) (a : Attempt) (w : World) : Prop :=
  ∀ k, currentStagingPrefix p a.writer <+: k → w.at k ≠ none → k = finishObjectKey p a.writer

/-- Nothing is staged, or for a backfill writer nothing in a thread directory. -/
def Bare (p : Config) (backfill : Bool) (w : World) : Prop :=
  ∀ k, InStaging p k → w.at k ≠ none →
    backfill = true ∧ threadDir (stagingRootPrefix p) k = none

variable {p} {made : List Attempt} {w : World}

/-- Beside the staged files of `a` there is nothing, or for a backfill attempt nothing
in a thread directory. -/
def Alone (a : Attempt) (w : World) : Prop :=
  ∀ k, InStaging p k → w.at k ≠ none →
    (∃ f ∈ a.files, k = stagingObjectKey p a.writer f ∧ w.at k = some (a.object f)) ∨
      (a.writer.isBackfill = true ∧ threadDir (stagingRootPrefix p) k = none)

/-! ### What a change of one key leaves alone -/

/-- A settled attempt does not notice a change at a key that is not one of its own. -/
theorem Settled.frame (h : Settled p a w) (k₀ : Key)
    (hfin : a ∈ w'.finished ↔ a ∈ w.finished) (hsame : ∀ k, k ≠ k₀ → w'.at k = w.at k)
    (hkey : ∀ f ∈ a.files, k₀ ≠ finalKey p f.path)
    (hnew : ∀ f ∈ a.files, w'.at k₀ ≠ some (a.object f)) : Settled p a w' := by
  constructor
  · intro hmem f hf k
    by_cases hk : k = k₀
    · subst hk
      constructor
      · intro hat
        exact absurd hat (hnew f hf)
      · intro heq
        exact absurd heq (hkey f hf)
    · rw [hsame k hk]
      exact h.1 (hfin.1 hmem) f hf k
  · intro hmem f hf k hat
    by_cases hk : k = k₀
    · subst hk
      exact absurd hat (hnew f hf)
    · rw [hsame k hk] at hat
      exact h.2 (fun hm => hmem (hfin.2 hm)) f hf k hat

theorem Settled.put (h : Settled p a w)
    (hkey : ∀ f ∈ a.files, k ≠ finalKey p f.path) (hnew : ∀ f ∈ a.files, o ≠ a.object f) :
    Settled p a (w.put k o) := by
  refine h.frame k Iff.rfl (fun k' hne => at_put_ne w o hne) hkey (fun f hf => ?_)
  rw [at_put_self]
  exact fun heq => hnew f hf (Option.some.inj heq)

theorem Leftover.congr (h : Leftover p made w k) (hat : w'.at k = w.at k)
    (hfin : w'.finished = w.finished) : Leftover p made w' k := by
  obtain ⟨b, hb, hbfin, f, hf, hk, hobj⟩ := h
  exact ⟨b, hb, by rw [hfin]; exact hbfin, f, hf, hk, hat.trans hobj⟩

theorem MetadataIs.put (h : MetadataIs p m w)
    (hk : metadataObjectKey p ≠ k) : MetadataIs p m (w.put k o) := by
  unfold MetadataIs
  rw [at_put_ne w o hk]
  exact h

theorem MetadataIs.del (h : MetadataIs p m w)
    (hk : metadataObjectKey p ≠ k) : MetadataIs p m (w.del k) := by
  unfold MetadataIs
  rw [at_del_ne w hk]
  exact h

/-- The staging area of a sealed attempt, after a change that spares its keys. -/
theorem Sealed.staged_of_same (h : Sealed p made a w)
    (hk : InStaging p k) (hat : w'.at k ≠ none) (hsame : w'.at k = w.at k)
    (hfin : w'.finished = w.finished) : k = finishObjectKey p a.writer ∨
    (∃ f ∈ a.files, k = stagingObjectKey p a.writer f ∧ w'.at k = some (a.object f)) ∨
    (a.writer.isBackfill = true ∧ threadDir (stagingRootPrefix p) k = none ∧
      Leftover p made w' k) := by
  rw [hsame] at hat ⊢
  rcases h.staged k hk hat with hm | hf | ⟨hback, hdir, hleft⟩
  · exact .inl hm
  · exact .inr (.inl hf)
  · exact .inr (.inr ⟨hback, hdir, hleft.congr hsame hfin⟩)

/-- A sealed attempt does not notice a change at `k₀` that adds nothing to the staging area and keeps its
marker, its files and the files of the others. -/
theorem Sealed.frame (h : Sealed p made a w) (k₀ : Key) (hfin : w'.finished = w.finished)
    (hsame : ∀ k, k ≠ k₀ → w'.at k = w.at k) (hmarker : finishObjectKey p a.writer ≠ k₀)
    (hroot : InStaging p k₀ → w'.at k₀ = none)
    (hmeta : metadataObjectKey p = k₀ → MetadataIs p (metadataAfter w.finished) w')
    (hothers : ∀ b ∈ made, b ≠ a → ∀ f ∈ b.files, k₀ ≠ finalKey p f.path ∧ w'.at k₀ ≠ some (b.object f))
    (honly : ∀ f ∈ a.files, w'.at k₀ = some (a.object f) → k₀ = finalKey p f.path)
    (hpresent : ∀ f ∈ a.files, k₀ = stagingObjectKey p a.writer f ∨ k₀ = finalKey p f.path →
      w'.at (finalKey p f.path) = some (a.object f)) : Sealed p made a w' := by
  obtain ⟨before, hbefore, hm⟩ := h.finished
  refine ⟨h.mem, ⟨before, hfin.trans hbefore, ?_⟩, (hsame _ hmarker).trans h.marker, h.state, ?_, ?_, ?_, ?_⟩
  · by_cases heq : metadataObjectKey p = k₀
    · exact .inr (hbefore ▸ hmeta heq)
    · unfold MetadataIs at hm ⊢
      rwa [hsame _ heq]
  · intro b hb hne
    exact (h.others b hb hne).frame k₀ (by rw [hfin]) hsame (fun f hf => (hothers b hb hne f hf).1)
      (fun f hf => (hothers b hb hne f hf).2)
  · intro k hk hat
    by_cases heq : k = k₀
    · subst heq
      exact absurd (hroot hk) hat
    · exact h.staged_of_same hk hat (hsame k heq) hfin
  · intro f hf k hat
    by_cases heq : k = k₀
    · subst heq
      exact .inr (honly f hf hat)
    · exact h.only f hf k (hsame k heq ▸ hat)
  · intro f hf
    by_cases heq : k₀ = stagingObjectKey p a.writer f ∨ k₀ = finalKey p f.path
    · exact .inr (hpresent f hf heq)
    · rw [not_or] at heq
      rw [hsame _ (Ne.symm heq.1), hsame _ (Ne.symm heq.2)]
      exact h.present f hf

/-- The metadata document with the attempt in it. -/
theorem Sealed.putMetadata (h : Sealed p made a w) (hm : metadataAfter w.finished = some m) :
    Sealed p made a (w.put (metadataObjectKey p) (.metadata m)) := by
  have hfinal : ∀ f : DataPath, metadataObjectKey p ≠ finalKey p f.path :=
    fun f heq => finalKey_ne_metadataKey p f heq.symm
  have hroot : ∀ {k : Key}, InStaging p k → k ≠ metadataObjectKey p :=
    fun hk heq => metadataKey_ne_of_root p hk heq.symm
  have hat := at_put_self w (metadataObjectKey p) (.metadata m)
  refine h.frame _ rfl (fun k hk => at_put_ne w _ hk) (hroot (root_finishKey p a.writer))
    (fun hk => absurd rfl (hroot hk)) (fun _ => ?_) (fun b _ _ f _ => ⟨hfinal f, ?_⟩) (fun f _ heq => ?_) ?_
  · unfold MetadataIs
    rw [hat, hm]
    rfl
  · rw [hat]
    exact fun heq => Object.noConfusion (Option.some.inj heq)
  · rw [hat] at heq
    exact Object.noConfusion (Option.some.inj heq)
  · rintro f _ (heq | heq)
    · exact absurd heq.symm (hroot (root_stagingKey p a.writer f))
    · exact absurd heq (hfinal f)

/-! ### Distinct files -/

variable (hwf : WellFormed p made)

include hwf

/-- A final key belongs to one file of one attempt. -/
theorem WellFormed.eq_of_finalKey (ha : a ∈ made) (hb : b ∈ made)
    (hf : f ∈ a.files) (hg : g ∈ b.files) (h : finalKey p f.path = finalKey p g.path) :
    a = b ∧ f = g := by
  have hnodup := hwf.finals
  rw [map_flatMap, nodup_flatMap] at hnodup
  by_cases hab : a = b
  · subst hab
    refine ⟨rfl, ?_⟩
    exact inj_on_of_nodup_map (hnodup.1 a ha) hf hg h
  · have : Std.Symm (Function.onFun List.Disjoint
        (fun x : Attempt => x.files.map (fun f => finalKey p f.path))) :=
      ⟨fun _ _ hd _ h₁ h₂ => hd h₂ h₁⟩
    have hpair := hnodup.2.forall ha hb hab
    exact absurd (mem_map.2 ⟨g, hg, h.symm⟩) (hpair (mem_map.2 ⟨f, hf, rfl⟩))

theorem WellFormed.object_ne (ha : a ∈ made) (hb : b ∈ made) (hab : b ≠ a)
    (hf : f ∈ a.files) (hg : g ∈ b.files) : a.object f ≠ b.object g := by
  intro h
  have hfg : f = g := by injection h
  subst hfg
  exact hab (hwf.eq_of_finalKey ha hb hf hg rfl).1.symm

theorem WellFormed.finalKey_ne_of_root (ha : a ∈ made)
    (hf : f ∈ a.files) (hk : InStaging p k) : k ≠ finalKey p f.path := by
  rintro rfl
  exact hwf.outside a ha f hf hk

/-! ### While no attempt is sealed -/

theorem Settled.del (h : Settled p a w) (ha : a ∈ made)
    (hk : InStaging p k) : Settled p a (w.del k) := by
  refine h.frame k Iff.rfl (fun k' hne => at_del_ne w hne)
    (fun f hf => hwf.finalKey_ne_of_root ha hf hk) (fun f _ => ?_)
  rw [at_del_self]
  simp

theorem Idle.del (h : Idle p made w) (hk : InStaging p k) : Idle p made (w.del k) := by
  refine ⟨fun b hb => (h.settled b hb).del hwf hb hk, ?_,
    h.metadata.del (metadataKey_ne_of_root p hk)⟩
  intro k' hk' hat
  by_cases heq : k' = k
  · subst heq
    exact absurd (at_del_self w k') hat
  · rw [at_del_ne w heq] at hat
    exact (h.staged k' hk' hat).congr (at_del_ne w heq) rfl

/-- A file of an attempt that is not finished is staged. -/
theorem Idle.put (h : Idle p made w) (ha : a ∈ made) (hu : a ∉ w.finished)
    (hf : f ∈ a.files) : Idle p made (w.put (stagingObjectKey p a.writer f) (a.object f)) := by
  have hroot := root_stagingKey p a.writer f
  refine ⟨?_, ?_, h.metadata.put (metadataKey_ne_of_root p hroot)⟩
  · intro b hb
    by_cases hba : b = a
    · subst hba
      refine ⟨fun hmem => absurd hmem hu, fun _ g hg k hat => ?_⟩
      by_cases heq : k = stagingObjectKey p b.writer f
      · subst heq
        rw [at_put_self] at hat
        have hfg : f = g := by
          have hobj := Option.some.inj hat
          injection hobj
        rw [hfg]
      · rw [at_put_ne w _ heq] at hat
        exact (h.settled b hb).2 hu g hg k hat
    · exact (h.settled b hb).put (fun g hg => hwf.finalKey_ne_of_root hb hg hroot)
        (fun g hg => hwf.object_ne ha hb hba hf hg)
  · intro k hk hat
    by_cases heq : k = stagingObjectKey p a.writer f
    · subst heq
      exact ⟨a, ha, hu, f, hf, rfl, at_put_self w _ _⟩
    · rw [at_put_ne w _ heq] at hat
      exact (h.staged k hk hat).congr (at_put_ne w _ heq) rfl

/-- `finish.json` seals an attempt whose files are all staged. -/
theorem Idle.finish (h : Idle p made w) (ha : a ∈ made) (hu : a ∉ w.finished)
    (halone : Alone (p := p) a w)
    (hall : ∀ f ∈ a.files, w.at (stagingObjectKey p a.writer f) = some (a.object f))
    (hstate : a.writer = .stream → a.finalMetadataState ≠ none)
    (hfin : w'.finished = w.finished ++ [a])
    (hmarker : w'.at (finishObjectKey p a.writer) = some (.finish a.finishState))
    (hsame : ∀ k, k ≠ finishObjectKey p a.writer → w'.at k = w.at k) : Sealed p made a w' := by
  have hroot := root_finishKey p a.writer
  have hmeta : MetadataIs p (metadataAfter w.finished) w' :=
    (hsame _ (metadataKey_ne_of_root p hroot)).trans h.metadata
  refine ⟨ha, ⟨w.finished, hfin, .inl hmeta⟩, hmarker, hstate, ?_, ?_, ?_, ?_⟩
  · intro b hb hne
    refine (h.settled b hb).frame _ ?_ hsame (fun f hf => hwf.finalKey_ne_of_root hb hf hroot) ?_
    · simp [hfin, hne]
    · intro f _
      rw [hmarker]
      exact fun heq => Object.noConfusion (Option.some.inj heq)
  · intro k hk hne
    by_cases heq : k = finishObjectKey p a.writer
    · exact .inl heq
    right
    rw [hsame k heq] at hne
    rcases halone k hk hne with ⟨f, hf, hkf, hobj⟩ | ⟨hback, hdir⟩
    · exact .inl ⟨f, hf, hkf, (hsame k heq).trans hobj⟩
    · obtain ⟨b, hb, hbfin, g, hg, hkg, hobj⟩ := h.staged k hk hne
      rw [← hsame k heq] at hobj
      by_cases hba : b = a
      · subst hba
        exact .inl ⟨g, hg, hkg, hobj⟩
      · refine .inr ⟨hback, hdir, b, hb, ?_, g, hg, hkg, hobj⟩
        simp [hfin, hbfin, hba]
  · intro f hf k hk
    left
    by_cases heq : k = finishObjectKey p a.writer
    · rw [heq, hmarker] at hk
      exact Object.noConfusion (Option.some.inj hk)
    · exact (h.settled a ha).2 hu f hf k (hsame k heq ▸ hk)
  · intro f hf
    left
    rw [hsame _ (stagingKey_ne_finishKey p a.writer a.writer f)]
    exact hall f hf

/-! ### A sealed attempt -/

theorem Sealed.copy (h : Sealed p made a w) (hf : f ∈ a.files) :
    Sealed p made a (w.put (finalKey p f.path) (a.object f)) := by
  have hout : ∀ {k : Key}, InStaging p k → k ≠ finalKey p f.path :=
    fun hk => hwf.finalKey_ne_of_root h.mem hf hk
  refine h.frame _ rfl (fun k hk => at_put_ne w _ hk) (hout (root_finishKey p a.writer))
    (fun hk => absurd rfl (hout hk)) (fun heq => absurd heq.symm (finalKey_ne_metadataKey p f)) ?_ ?_ ?_
  · intro b hb hne g hg
    refine ⟨fun heq => hne (hwf.eq_of_finalKey h.mem hb hf hg heq).1.symm, ?_⟩
    rw [at_put_self]
    exact fun heq => hwf.object_ne h.mem hb hne hf hg (Option.some.inj heq)
  · intro g hg hat
    rw [at_put_self] at hat
    injection hat with hat
    injection hat with _ hfg
    rw [hfg]
  · rintro g hg (heq | heq)
    · exact absurd heq.symm (hout (root_stagingKey p a.writer g))
    · rw [(hwf.eq_of_finalKey h.mem h.mem hf hg heq).2]
      exact at_put_self w _ _

/-- What goes from the staging area is at its final key, or was not there. -/
theorem Sealed.del (h : Sealed p made a w) (hroot : InStaging p k)
    (hmarker : finishObjectKey p a.writer ≠ k)
    (hfinal : ∀ f ∈ a.files, k = stagingObjectKey p a.writer f →
      w.at (finalKey p f.path) = some (a.object f)) : Sealed p made a (w.del k) := by
  have hout : ∀ {b : Attempt} {f : DataPath}, b ∈ made → f ∈ b.files → k ≠ finalKey p f.path :=
    fun hb hf => hwf.finalKey_ne_of_root hb hf hroot
  have hnone := at_del_self w k
  refine h.frame k rfl (fun k' hk' => at_del_ne w hk') hmarker (fun _ => hnone)
    (fun heq => absurd heq (metadataKey_ne_of_root p hroot)) (fun b hb _ f hf => ⟨hout hb hf, by simp [hnone]⟩)
    (fun f _ hat => by simp [hnone] at hat) ?_
  rintro f hf (heq | heq)
  · rw [at_del_ne w (hout h.mem hf).symm]
    exact hfinal f hf heq
  · exact absurd heq (hout h.mem hf)

/-- With every file promoted and the metadata written, removing the marker settles
the attempt. -/
theorem Sealed.resolve (h : Sealed p made a w) (hpromoted : Promoted p a w)
    (hmeta : MetadataIs p (metadataAfter w.finished) w) :
    Idle p made (w.del (finishObjectKey p a.writer)) ∧
      Bare p a.writer.isBackfill (w.del (finishObjectKey p a.writer)) := by
  have hroot := root_finishKey p a.writer
  have hgone : ∀ f ∈ a.files, w.at (stagingObjectKey p a.writer f) = none := by
    intro f _
    by_contra hne
    exact stagingKey_ne_finishKey p a.writer a.writer f (hpromoted _ (prefix_append _ _) hne)
  -- what is left in the staging area lies outside of the thread directories
  have hleft : ∀ k, InStaging p k →
      (w.del (finishObjectKey p a.writer)).at k ≠ none →
      a.writer.isBackfill = true ∧ threadDir (stagingRootPrefix p) k = none ∧
        Leftover p made (w.del (finishObjectKey p a.writer)) k := by
    intro k hk hat
    by_cases heq : k = finishObjectKey p a.writer
    · subst heq
      exact absurd (at_del_self w _) hat
    · rcases h.staged_of_same hk hat (at_del_ne w heq) rfl with hm | ⟨f, hf, rfl, _⟩ | hl
      · exact absurd hm heq
      · rw [at_del_ne w heq] at hat
        exact absurd (hgone f hf) hat
      · exact hl
  refine ⟨⟨?_, fun k hk hat => (hleft k hk hat).2.2, hmeta.del (metadataKey_ne_of_root p hroot)⟩,
    fun k hk hat => ⟨(hleft k hk hat).1, (hleft k hk hat).2.1⟩⟩
  intro b hb
  by_cases hba : b = a
  · subst hba
    have hsettled : Settled p b w := by
      refine ⟨fun _ f hf k => ⟨fun hat => ?_, ?_⟩, fun hmem => ?_⟩
      · rcases h.only f hf k hat with hk | hk
        · subst hk
          rw [hgone f hf] at hat
          cases hat
        · exact hk
      · rintro rfl
        rcases h.present f hf with hst | hfin
        · rw [hgone f hf] at hst
          cases hst
        · exact hfin
      · obtain ⟨before, hbefore, _⟩ := h.finished
        exact absurd (by rw [hbefore]; simp) hmem
    exact hsettled.del hwf hb hroot
  · exact (h.others b hb hba).del hwf hb hroot

end Olake.Parquet
