/-
Where the rows of the writers are.

A writer tells where a row lands before the row is in a file.  `Recorded` says that the
rows which were told are in the files of the table, at their places, and that the index
names rows of its ids; a commit keeps that (`Recorded.commit`).  A writer puts the rows of
a file into the index in their order, so the index names the last row of an id in one of
the files (`Tops`).
-/
import Olake.Lib.Staging
import Olake.Model.Iceberg.TableIndex

namespace Olake.TableIndex

open Iceberg IcebergWriter Rolling Staging List

variable {P Id K V D : Type}

/-! ### The changes of a thread -/

/-- The rows of the files come in their order. -/
abbrev Ordered (e e' : Entry P Id) : Prop :=
  e.1.path = e'.1.path → e.1.position < e'.1.position

/-- The changes name a row of every id that was written, and no other row of the id comes
after it in the same file. -/
structure Tops (changes : StreamIndex P Id) (told : List (Entry P Id)) : Prop where
  missing : ∀ id, changes id = none → ∀ e ∈ told, e.2 ≠ id
  named : ∀ id loc, changes id = some loc → (loc, id) ∈ told ∧
    ∀ e ∈ told, e.2 = id → e.1.path = loc.path → e.1.position ≤ loc.position

section Tops

variable {changes : StreamIndex P Id} {told : List (Entry P Id)}

theorem Tops.nil : Tops (fun _ => none) ([] : List (Entry P Id)) := ⟨by simp, by simp⟩

theorem Tops.congr (h : Tops changes told) (hmem : ∀ e, e ∈ told' ↔ e ∈ told) :
    Tops changes told' where
  missing id hid e he := h.missing id hid e ((hmem e).1 he)
  named id loc hid := by
    obtain ⟨hin, hmax⟩ := h.named id loc hid
    exact ⟨(hmem _).2 hin, fun e he => hmax e ((hmem e).1 he)⟩

variable [DecidableEq Id]

theorem Tops.put (h : Tops changes told) (he : ∀ e' ∈ told, Ordered e' e) :
    Tops (Function.update changes e.2 (some e.1)) (told ++ [e]) where
  missing id hid e' he' := by
    rw [Function.update_apply] at hid
    split at hid
    · cases hid
    · next hne =>
      rcases mem_append.1 he' with he' | he'
      · exact h.missing id hid e' he'
      · rw [mem_singleton.1 he']
        exact Ne.symm hne
  named id loc hid := by
    rw [Function.update_apply] at hid
    split at hid
    · next heq =>
      cases hid
      subst heq
      refine ⟨mem_append_right _ (mem_singleton_self e), fun e' he' _ hpath => ?_⟩
      rcases mem_append.1 he' with he' | he'
      · exact (he e' he' hpath).le
      · rw [mem_singleton.1 he']
    · next hne =>
      obtain ⟨hin, hmax⟩ := h.named id loc hid
      refine ⟨mem_append_left _ hin, fun e' he' hid' => ?_⟩
      rcases mem_append.1 he' with he' | he'
      · exact hmax e' he' hid'
      · rw [mem_singleton.1 he'] at hid'
        exact absurd hid'.symm hne

theorem Tops.puts {b : StreamIndexThread P Id} (es : List (Entry P Id)) (h : Tops b.changes told)
    (hes : (told ++ es).Pairwise Ordered) :
    Tops (es.foldl (fun b e => b.Put e.2 e.1) b).changes (told ++ es) := by
  induction es generalizing b told with
  | nil => rwa [append_nil]
  | cons e rest ih =>
    have he : ∀ e' ∈ told, Ordered e' e := fun e' he' =>
      (pairwise_append.1 hes).2.2 e' he' e mem_cons_self
    rw [append_cons] at hes ⊢
    exact ih (b := b.Put e.2 e.1) (h.put he) hes

end Tops

/-! ### The rows of the table -/

/-- The rows that were written, as they are put into the index. -/
abbrev toldOf (written : Landings P Id K V D) : List (Entry P Id) :=
  written.map (fun e => (e.1, e.2.id))

/-- The rows that were written are in the files, and the index names such rows. -/
structure Recorded (alloc : Nat → P) (n : Nat) (t : IdTable P Id K V D) (index : StreamIndex P Id)
    (written : Landings P Id K V D) : Prop extends Filed alloc n t where
  held : ∀ e ∈ written, t.Holds e.1 e.2
  index : ∀ id loc, index id = some loc → (loc, id) ∈ toldOf written

variable {N : Type} {alloc : Nat → P} {base n : Nat} {t : IdTable P Id K V D}
  {index index' changes : StreamIndex P Id} {l : Lane N P V (Record Id K V D)}
  {deleted : RowLocation P → Prop} {δ : IdDelta P Id K V D}
  {old new : Landings P Id K V D} {id : Id} {loc : RowLocation P}

theorem Recorded.empty : Recorded alloc n (Table.empty : IdTable P Id K V D) (fun _ => none) [] :=
  ⟨Filed.empty, fun _ he => absurd he not_mem_nil, nofun⟩

theorem Recorded.mono (h : Recorded alloc base t index old) (hle : base ≤ n) :
    Recorded alloc n t index old :=
  ⟨h.toFiled.mono hle, h.held, h.index⟩

theorem Recorded.told (h : Recorded alloc base t index old) (htops : Tops changes (toldOf new))
    (hid : (changes id).or (index id) = some loc) : (loc, id) ∈ toldOf (old ++ new) := by
  rw [toldOf, map_append, mem_append]
  rcases Option.or_eq_some_iff.1 hid with hid | ⟨-, hid⟩
  · exact .inr (htops.named id loc hid).1
  · exact .inl (h.index id loc hid)

theorem Recorded.stored (h : Recorded alloc base t index old)
    (hrows : ∀ path i y, l.HasRow path i y ↔ (⟨path, i⟩, y) ∈ new)
    (htold : (loc, id) ∈ toldOf (old ++ new)) : ∃ y, y.id = id ∧ Stored t l loc y := by
  obtain ⟨⟨_, y⟩, he, heq⟩ := mem_map.1 htold
  obtain ⟨rfl, rfl⟩ := Prod.mk.inj heq
  rcases mem_append.1 he with he | he
  · exact ⟨y, rfl, .inl (h.held _ he)⟩
  · exact ⟨y, rfl, .inr ((hrows _ _ _).2 he)⟩

theorem eq_nil_of_commits (hδ : Commits l deleted δ)
    (hrows : ∀ path i y, l.HasRow path i y ↔ (⟨path, i⟩, y) ∈ new) (hdata : δ.data = []) : new = [] := by
  refine eq_nil_iff_forall_not_mem.2 fun e he => ?_
  obtain ⟨f, hf, -⟩ := (hδ.holds e.1 e.2).2 ((hrows _ _ _).2 he)
  rw [hdata] at hf
  cases hf

theorem Recorded.commit [DecidableEq P] (halloc : Function.Injective alloc)
    (h : Recorded alloc base t index old) (hle : base ≤ n) (hnamed : l.Named alloc base n)
    (hδ : Commits l deleted δ) (hrows : ∀ path i y, l.HasRow path i y ↔ (⟨path, i⟩, y) ∈ new)
    (hdel : ∀ loc, deleted loc → ∃ id, (loc, id) ∈ toldOf (old ++ new))
    (hindex : ∀ id loc, index' id = some loc → (loc, id) ∈ toldOf (old ++ new))
    (rd : Reader P V (Record Id K V D) (List Id)) :
    Recorded alloc n (t.commit rd δ) index' (old ++ new) where
  toFiled := by
    refine Apart.commit halloc ⟨h.toFiled, hle, hnamed⟩ hδ (fun loc hloc => ?_) rd
    obtain ⟨id, hid⟩ := hdel loc hloc
    obtain ⟨y, -, hy⟩ := h.stored hrows hid
    exact ⟨y, hy⟩
  held e he := by
    rw [Table.holds_commit, hδ.holds, hrows]
    exact (mem_append.1 he).imp_left (h.held e)
  index := hindex

end Olake.TableIndex
