/-
Mirroring a keyed table by upserts and removals under another key.

A table holds rows under their key and changes by inserts, updates and deletes.  A
mirror holds an image of some of the rows, those that are kept, under an identity of
their own, and only hears of the changes: the row after an insert or an update, if it
is kept, and the identity of a deleted row.

The set of rows a mirror shows is all that matters (`Shows`), and each of the four
things a mirror can be told or not told keeps it exact under a condition that is
necessary too.  From them, `shows_apply_iff` says for every operation exactly when
the mirror stays exact, and `shows_run_iff` says so for whole histories.
-/
import Mathlib.Order.BooleanAlgebra.Set
import Olake.Lib.Run

namespace Mirror

open List Function Option

variable {Row Key Id Image : Type}

/-! ### The two sides -/

/-- A change of one row. -/
inductive Op (Row : Type) where
  | insert (new : Row)
  | update (old new : Row)
  | delete (old : Row)

def Op.apply [DecidableEq Key] (key : Row → Key) (t : Key → Option Row) : Op Row → Key → Option Row
  | .insert new => Function.update t (key new) (some new)
  | .update old new => Function.update (Function.update t (key old) none) (key new) (some new)
  | .delete old => Function.update t (key old) none

/-- An operation that the table accepts: keys stay unique, and what is changed is there. -/
def Op.Valid (key : Row → Key) (t : Key → Option Row) : Op Row → Prop
  | .insert new => t (key new) = none
  | .update old new => t (key old) = some old ∧ (key new = key old ∨ t (key new) = none)
  | .delete old => t (key old) = some old

/-- What a mirror is told. -/
inductive Change (Id Image : Type) where
  | upsert (id : Id) (image : Image)
  | remove (id : Id)

def Change.apply [DecidableEq Id] (m : Id → Option Image) : Change Id Image → Id → Option Image
  | .upsert id image => Function.update m id (some image)
  | .remove id => Function.update m id none

def applyAll [DecidableEq Id] (m : Id → Option Image) (changes : List (Change Id Image)) :
    Id → Option Image :=
  changes.foldl Change.apply m

def runAll [DecidableEq Key] (key : Row → Key) (t : Key → Option Row) (ops : List (Op Row)) :
    Key → Option Row :=
  ops.foldl (Op.apply key) t

def Op.changes (keep : Row → Bool) (id : Row → Id) (image : Row → Image) :
    Op Row → List (Change Id Image)
  | .insert new => if keep new then [.upsert (id new) (image new)] else []
  | .update _ new => if keep new then [.upsert (id new) (image new)] else []
  | .delete old => [.remove (id old)]

/-! ### What a mirror shows -/

section Shows

variable (id : Row → Id) (image : Row → Image)

/-- The mirror holds the images of the rows in `A` and nothing else, each under an
identity of its own. -/
structure Shows (m : Id → Option Image) (A : Set Row) : Prop where
  image_iff : ∀ i x, m i = some x ↔ ∃ r ∈ A, id r = i ∧ image r = x
  apart : ∀ r ∈ A, ∀ r' ∈ A, id r = id r' → r = r'

/-- No row in `A` has the identity `i`. -/
def Fresh (A : Set Row) (i : Id) : Prop := ∀ r ∈ A, id r ≠ i

variable {id image} {m : Id → Option Image} {A : Set Row} {old new : Row} (h : Shows id image m A)
include h

theorem Shows.get (hr : r ∈ A) : m (id r) = some (image r) := (h.image_iff _ _).2 ⟨r, hr, rfl, rfl⟩

variable [DecidableEq Id]

theorem Shows.add_iff (hnew : new ∉ A) :
    Shows id image (Function.update m (id new) (some (image new))) (insert new A) ↔
      Fresh id A (id new) := by
  constructor
  · intro h' r hr hid
    have heq := h'.apart r (Set.mem_insert_of_mem _ hr) new (Set.mem_insert _ _) hid
    exact hnew (heq ▸ hr)
  · intro hfresh
    refine ⟨fun i x => ?_, ?_⟩
    · by_cases hi : i = id new
      · subst hi
        rw [update_self]
        constructor
        · intro hx
          exact ⟨new, Set.mem_insert _ _, rfl, some.inj hx⟩
        · rintro ⟨r, hr, hid, rfl⟩
          rcases Set.mem_insert_iff.1 hr with rfl | hr
          · rfl
          · exact absurd hid (hfresh r hr)
      · rw [update_of_ne hi, h.image_iff]
        constructor
        · rintro ⟨r, hr, hx⟩
          exact ⟨r, Set.mem_insert_of_mem _ hr, hx⟩
        · rintro ⟨r, hr, rfl, hx⟩
          rcases Set.mem_insert_iff.1 hr with rfl | hr
          · exact absurd rfl hi
          · exact ⟨r, hr, rfl, hx⟩
    · intro r hr r' hr' hid
      rcases Set.mem_insert_iff.1 hr with heq | hrA
      · rcases Set.mem_insert_iff.1 hr' with heq' | hrA'
        · exact heq.trans heq'.symm
        · exact absurd (hid.symm.trans (congrArg id heq)) (hfresh r' hrA')
      · rcases Set.mem_insert_iff.1 hr' with heq' | hrA'
        · exact absurd (hid.trans (congrArg id heq')) (hfresh r hrA)
        · exact h.apart r hrA r' hrA' hid

theorem Shows.remove (hold : old ∈ A) :
    Shows id image (Function.update m (id old) none) (A \ {old}) := by
  refine ⟨fun i x => ?_, fun r hr r' hr' => h.apart r hr.1 r' hr'.1⟩
  by_cases hi : i = id old
  · subst hi
    rw [update_self]
    constructor
    · nofun
    · rintro ⟨r, hr, hid, -⟩
      exact absurd (h.apart r hr.1 old hold hid) hr.2
  · rw [update_of_ne hi, h.image_iff]
    constructor
    · rintro ⟨r, hr, rfl, hx⟩
      exact ⟨r, ⟨hr, fun heq => hi (congrArg id heq)⟩, rfl, hx⟩
    · rintro ⟨r, hr, hx⟩
      exact ⟨r, hr.1, hx⟩

/-- An identity is removed that stands for no row. -/
theorem Shows.remove_iff (i : Id) : Shows id image (Function.update m i none) A ↔ Fresh id A i := by
  constructor
  · intro h' r hr hid
    have hget := h'.get hr
    rw [hid, update_self] at hget
    cases hget
  · intro hfresh
    have hnone : m i = none := by
      rw [eq_none_iff_forall_ne_some]
      intro x hx
      obtain ⟨r, hr, hid, -⟩ := (h.image_iff i x).1 hx
      exact hfresh r hr hid
    rw [update_eq_self_iff.2 hnone.symm]
    exact h

/-- A row is replaced, and the mirror hears of the new one only. -/
theorem Shows.replace_iff (hold : old ∈ A) (hnew : new ∉ A \ {old}) :
    Shows id image (Function.update m (id new) (some (image new))) (insert new (A \ {old})) ↔
      id old = id new := by
  constructor
  · intro h'
    by_contra hid
    -- the old image is still there
    have hstill : update m (id new) (some (image new)) (id old) = some (image old) := by
      rw [update_of_ne hid]
      exact h.get hold
    obtain ⟨r, hr, hr', -⟩ := (h'.image_iff _ _).1 hstill
    rcases Set.mem_insert_iff.1 hr with rfl | hr
    · exact hid hr'.symm
    · exact hr.2 (h.apart r hr.1 old hold hr')
  · intro hid
    have hremoved := (h.remove hold).add_iff hnew
    rw [hid, update_idem] at hremoved
    refine hremoved.2 (fun r hr hr' => hr.2 (h.apart r hr.1 old hold ?_))
    rw [hr', hid]

omit [DecidableEq Id] in
theorem Shows.unheard (hold : old ∈ A) : ¬ Shows id image m (A \ {old}) := by
  intro h'
  obtain ⟨r, hr, hid, -⟩ := (h'.image_iff _ _).1 (h.get hold)
  exact hr.2 (h.apart r hr.1 old hold hid)

end Shows

/-! ### Operations -/

section Ops

variable [DecidableEq Key] [DecidableEq Id] (key : Row → Key) (keep : Row → Bool) (id : Row → Id)
  (image : Row → Image)

def Live (t : Key → Option Row) : Set Row := {r | t (key r) = some r}

/-- The rows of a table that are kept. -/
def Kept (t : Key → Option Row) : Set Row := {r | r ∈ Live key t ∧ keep r = true}

/-- The operations a mirror can follow.  A new row, or one that is kept only from now
on, has an identity of its own; a row that is kept before and after has the same one
and none stops being kept; and a row that is deleted without having been kept does
not share its identity with one that is. -/
def Op.Followed (t : Key → Option Row) : Op Row → Prop
  | .insert new => keep new = true → Fresh id (Kept key keep t) (id new)
  | .update old new =>
    if keep new then
      if keep old then id old = id new else Fresh id (Kept key keep t) (id new)
    else keep old = false
  | .delete old => keep old = true ∨ Fresh id (Kept key keep t) (id old)

variable {key keep id image} {t : Key → Option Row} {m : Id → Option Image} {new : Row}

theorem live_insert (h : t (key new) = none) :
    Live key (Op.apply key t (.insert new)) = insert new (Live key t) := by
  ext r
  simp only [Live, Op.apply, Set.mem_ofPred_eq, Set.mem_insert_iff, update_apply]
  by_cases hk : key r = key new
  · rw [if_pos hk, hk, h]
    constructor
    · intro hr
      exact .inl (some.inj hr).symm
    · rintro (rfl | hr)
      · rfl
      · cases hr
  · rw [if_neg hk]
    constructor
    · exact .inr
    · rintro (rfl | hr)
      · exact absurd rfl hk
      · exact hr

variable {old : Row}

theorem live_delete (h : t (key old) = some old) :
    Live key (Op.apply key t (.delete old)) = Live key t \ {old} := by
  ext r
  simp only [Live, Op.apply, Set.mem_ofPred_eq, Set.mem_sdiff, update_apply]
  by_cases hk : key r = key old
  · rw [if_pos hk, hk, h]
    constructor
    · nofun
    · rintro ⟨hr, hne⟩
      exact absurd (some.inj hr).symm hne
  · rw [if_neg hk]
    constructor
    · intro hr
      exact ⟨hr, fun heq => hk (congrArg key heq)⟩
    · exact And.left

theorem live_update (h : Op.Valid key t (.update old new)) :
    Live key (Op.apply key t (.update old new)) = insert new (Live key t \ {old}) := by
  obtain ⟨hold, hnew⟩ := h
  have hnone : Op.apply key t (.delete old) (key new) = none := by
    simp only [Op.apply, update_apply]
    rcases hnew with heq | hnone
    · rw [if_pos heq]
    · split
      · rfl
      · exact hnone
  -- an update is a delete and an insert
  show Live key (Op.apply key (Op.apply key t (.delete old)) (.insert new)) = _
  rw [live_insert hnone, live_delete hold]

omit [DecidableEq Key] in
theorem notMem_live_of_update (h : Op.Valid key t (.update old new)) :
    new ∉ Live key t \ {old} := by
  rintro ⟨hlive, hne⟩
  have hget : t (key new) = some new := hlive
  rcases h.2 with heq | hnone
  · rw [heq, h.1] at hget
    exact hne (some.inj hget).symm
  · rw [hnone] at hget
    cases hget

/-! The rows that are kept, after each operation. -/

omit [DecidableEq Key] in
theorem kept_eq (h : Live key t' = B) : Kept key keep t' = {r ∈ B | keep r = true} := by
  rw [← h]
  rfl

theorem sep_insert_of_keep {B : Set Row} (h : keep new = true) : {r ∈ insert new B | keep r = true}
    = insert new {r ∈ B | keep r = true} :=
  Set.insert_inter_of_mem h

theorem sep_insert_of_not_keep {B : Set Row} (h : keep new = false) :
    {r ∈ insert new B | keep r = true} = {r ∈ B | keep r = true} :=
  Set.insert_inter_of_notMem fun hk => Bool.false_ne_true (h.symm.trans hk)

theorem sep_diff (B : Set Row) (old : Row) :
    {r ∈ B \ {old} | keep r = true} = {r ∈ B | keep r = true} \ {old} :=
  Set.sdiff_inter_right_comm B {old} _

theorem sep_diff_of_not_keep (B : Set Row) (h : keep old = false) : {r ∈ B \ {old} | keep r = true}
    = {r ∈ B | keep r = true} := by
  rw [sep_diff]
  apply Set.sdiff_singleton_eq_self
  rintro ⟨-, hk⟩
  rw [h] at hk
  cases hk

variable (h : Shows id image m (Kept key keep t))
include h

theorem shows_insert_iff (hv : Op.Valid key t (.insert new)) :
    Shows id image (applyAll m (Op.changes keep id image (.insert new)))
        (Kept key keep (Op.apply key t (.insert new))) ↔
      Op.Followed key keep id t (.insert new) := by
  have hnew : new ∉ Kept key keep t := by
    rintro ⟨hlive, -⟩
    have hget : t (key new) = some new := hlive
    rw [show t (key new) = none from hv] at hget
    cases hget
  rw [kept_eq (live_insert hv)]
  cases hk : keep new with
  | true =>
    simp only [Op.changes, Op.Followed, hk, forall_const, sep_insert_of_keep hk]
    exact h.add_iff hnew
  | false =>
    simp only [Op.changes, Op.Followed, hk, Bool.false_eq_true, false_implies, iff_true,
      sep_insert_of_not_keep hk]
    exact h

theorem shows_delete_iff (hv : Op.Valid key t (.delete old)) :
    Shows id image (applyAll m (Op.changes keep id image (.delete old)))
        (Kept key keep (Op.apply key t (.delete old))) ↔
      Op.Followed key keep id t (.delete old) := by
  rw [kept_eq (live_delete hv)]
  cases hk : keep old with
  | true =>
    simp only [Op.Followed, hk, true_or, iff_true, sep_diff]
    exact h.remove ⟨hv, hk⟩
  | false =>
    simp only [Op.Followed, hk, Bool.false_eq_true, false_or, sep_diff_of_not_keep _ hk]
    exact h.remove_iff (id old)

theorem shows_update_iff (hv : Op.Valid key t (.update old new)) :
    Shows id image (applyAll m (Op.changes keep id image (.update old new)))
        (Kept key keep (Op.apply key t (.update old new))) ↔
      Op.Followed key keep id t (.update old new) := by
  have hnew := notMem_live_of_update hv
  rw [kept_eq (live_update hv)]
  cases hk : keep new with
  | true =>
    simp only [Op.changes, Op.Followed, hk, sep_insert_of_keep hk]
    cases hko : keep old with
    | true =>
      rw [sep_diff]
      exact h.replace_iff ⟨hv.1, hko⟩ (fun hmem => hnew ⟨hmem.1.1, hmem.2⟩)
    | false =>
      rw [sep_diff_of_not_keep _ hko]
      refine h.add_iff (fun hmem => hnew ⟨hmem.1, ?_⟩)
      rintro rfl
      rw [hk] at hko
      cases hko
  | false =>
    simp only [Op.changes, Op.Followed, hk, Bool.false_eq_true, if_false,
      sep_insert_of_not_keep hk]
    cases hko : keep old with
    | true =>
      simp only [Bool.true_eq_false, iff_false, sep_diff]
      exact h.unheard ⟨hv.1, hko⟩
    | false =>
      rw [sep_diff_of_not_keep _ hko]
      simp only [iff_true]
      exact h

/-- **When a mirror stays exact over one operation.** -/
theorem shows_apply_iff {op : Op Row} (hv : op.Valid key t) :
    Shows id image (applyAll m (op.changes keep id image)) (Kept key keep (op.apply key t)) ↔
      op.Followed key keep id t := by
  cases op with
  | insert new => exact shows_insert_iff h hv
  | update old new => exact shows_update_iff h hv
  | delete old => exact shows_delete_iff h hv

omit h

/-! ### Histories -/

variable (key) in
/-- Each operation meets the condition in the table it happens in. -/
abbrev Throughout (ok : (Key → Option Row) → Op Row → Prop) (t : Key → Option Row)
    (ops : List (Op Row)) : Prop :=
  Machine.Along (fun op t => op.apply key t) (fun op t => ok t op) ops t

variable (key) in
/-- The table accepts the operations one after the other. -/
abbrev ValidRun : (Key → Option Row) → List (Op Row) → Prop := Throughout key (Op.Valid key)

/-- **When a mirror stays exact over a history**: it shows the rows that are kept after
any number of operations, exactly when it can follow each of them. -/
theorem shows_run_iff (ops : List (Op Row)) (h : Shows id image m (Kept key keep t))
    (hv : ValidRun key t ops) :
    (∀ n, Shows id image (applyAll m ((ops.take n).flatMap (Op.changes keep id image)))
        (Kept key keep (runAll key t (ops.take n)))) ↔
      Throughout key (Op.Followed key keep id) t ops := by
  induction ops generalizing t m with
  | nil =>
    simp only [take_nil, Machine.Along, iff_true]
    exact fun _ => h
  | cons op ops ih =>
    have hstep := shows_apply_iff h hv.1
    -- what the mirror shows after `n + 1` operations, seen from after the first
    have hnext : ∀ n, applyAll m (((op :: ops).take (n + 1)).flatMap (Op.changes keep id image))
        = applyAll (applyAll m (op.changes keep id image))
            ((ops.take n).flatMap (Op.changes keep id image)) := by
      intro n
      exact foldl_append
    constructor
    · intro hall
      have hfirst : Shows id image (applyAll m (op.changes keep id image))
          (Kept key keep (op.apply key t)) := by
        have hone := hall 1
        rw [hnext 0] at hone
        exact hone
      refine ⟨hstep.1 hfirst, (ih hfirst hv.2).1 (fun n => ?_)⟩
      rw [← hnext n]
      exact hall (n + 1)
    · rintro ⟨hop, hops⟩ n
      cases n with
      | zero => exact h
      | succ n =>
        rw [hnext n]
        exact (ih (hstep.2 hop) hv.2).2 hops n

/-! ### Mirrors of the whole table -/

variable (key id) in
/-- The operations that a mirror of all rows can follow: a new row has an identity of
its own, and an update keeps it. -/
def Op.SameIdentity (t : Key → Option Row) : Op Row → Prop
  | .insert new => Fresh id (Live key t) (id new)
  | .update old new => id old = id new
  | .delete _ => True

variable (key id) in
abbrev SameIdentityRun : (Key → Option Row) → List (Op Row) → Prop :=
  Throughout key (Op.SameIdentity key id)

omit [DecidableEq Key] [DecidableEq Id] in
theorem kept_all (t : Key → Option Row) : Kept key (fun _ => true) t = Live key t := by
  ext r
  simp [Kept]

omit [DecidableEq Key] [DecidableEq Id] in
theorem followed_all (t : Key → Option Row) (op : Op Row) :
    op.Followed key (fun _ => true) id t ↔ op.SameIdentity key id t := by
  cases op with
  | insert new => simp [Op.Followed, Op.SameIdentity, kept_all]
  | update | delete => simp [Op.Followed, Op.SameIdentity]

omit [DecidableEq Id] in
theorem followedRun_all (ops : List (Op Row)) (t : Key → Option Row) :
    Throughout key (Op.Followed key (fun _ => true) id) t ops ↔ SameIdentityRun key id t ops :=
  Machine.along_congr fun op _ t => followed_all t op

/-! ### Keys that stay

With an identity that depends on the key only, and keys that stay, an update never
moves an identity.  What is left is that a row stops being kept. -/

def Op.KeyFixed (key : Row → Key) : Op Row → Prop
  | .update old new => key new = key old
  | _ => True

variable (key keep id) in
/-- No row stops being kept, and none that is outside shares its identity with one that
is kept when it enters or is deleted. -/
def Op.StaysKept (t : Key → Option Row) : Op Row → Prop
  | .insert new => keep new = true → Fresh id (Kept key keep t) (id new)
  | .update old new =>
    (keep old = true → keep new = true) ∧
      (keep old = false → keep new = true → Fresh id (Kept key keep t) (id new))
  | .delete old => keep old = false → Fresh id (Kept key keep t) (id old)

variable (key keep id) in
abbrev StaysKeptRun : (Key → Option Row) → List (Op Row) → Prop :=
  Throughout key (Op.StaysKept key keep id)

omit [DecidableEq Key] [DecidableEq Id] in
theorem followed_iff_staysKept (hid : ∀ r r', key r = key r' → id r = id r')
    (t : Key → Option Row) {op : Op Row} (hop : op.KeyFixed key) :
    op.Followed key keep id t ↔ op.StaysKept key keep id t := by
  cases op with
  | insert new => exact Iff.rfl
  | update old new =>
    have hsame : id old = id new := hid old new (Eq.symm hop)
    cases hold : keep old with
    | true => cases hnew : keep new <;> simp [Op.Followed, Op.StaysKept, hold, hnew, hsame]
    | false => cases hnew : keep new <;> simp [Op.Followed, Op.StaysKept, hold, hnew]
  | delete old => cases hold : keep old <;> simp [Op.Followed, Op.StaysKept, hold]

omit [DecidableEq Id] in
theorem followedRun_iff_staysKept (hid : ∀ r r', key r = key r' → id r = id r')
    (ops : List (Op Row)) (hops : ∀ op ∈ ops, op.KeyFixed key) (t : Key → Option Row) :
    Throughout key (Op.Followed key keep id) t ops ↔ StaysKeptRun key keep id t ops :=
  Machine.along_congr fun op hop t => followed_iff_staysKept hid t (hops op hop)

end Ops

end Mirror
