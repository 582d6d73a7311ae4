/-
Data files that are about to be committed to a table.

The files of a lane have names that no file of the table has, and no delete of the table
mentions (`Apart`).  So a place belongs to one row, of the table or of the lane
(`Apart.unique`), and that stays so with a commit (`Apart.unmentioned_commit`).
-/
import Olake.Lib.Iceberg
import Olake.Lib.RollingFiles

namespace Staging

open Iceberg Rolling

variable {N P K R E : Type}

/-- The row is in a file of the table or of the lane. -/
def Stored (t : Table P K R E) (l : Lane N P K R) (loc : RowLocation P) (row : R) : Prop :=
  (∃ f ∈ t.data, f.path = loc.path ∧ f.rows[loc.position]? = some row) ∨
    l.HasRow loc.path loc.position row

/-- The table's files are those of its commits, and names from the n-th on are still to
come. -/
structure Filed (alloc : Nat → P) (n : Nat) (t : Table P K R E) : Prop where
  ordered : t.Ordered
  fresh : ∀ m, n ≤ m → t.Unmentioned (alloc m)

/-- The names of the table's files come before those of the lane. -/
structure Apart (alloc : Nat → P) (base n : Nat) (t : Table P K R E) (l : Lane N P K R) : Prop
    extends Filed alloc base t where
  le : base ≤ n
  named : l.Named alloc base n

/-- The commit has the rows of the lane, and the positions that are to be deleted. -/
structure Commits (l : Lane N P K R) (deleted : RowLocation P → Prop) (δ : Delta P K R E) : Prop where
  files : ∀ f ∈ δ.data, ∃ g, l.HasFile g ∧ g.filePath = f.1
  paths : (δ.data.map Prod.fst).Nodup
  holds : ∀ loc row, δ.Holds loc row ↔ l.HasRow loc.path loc.position row
  position : ∀ loc, δ.Position loc ↔ deleted loc

variable {alloc : Nat → P} {base n : Nat} {t : Table P K R E} {l : Lane N P K R}

theorem Filed.empty : Filed alloc n (Table.empty : Table P K R E) := by
  constructor
  · constructor <;> simp [Table.empty]
  · intro m _
    constructor <;> simp [Table.empty]

theorem Filed.mono (h : Filed alloc base t) (hle : base ≤ n) : Filed alloc n t :=
  ⟨h.ordered, fun m hm => h.fresh m (Nat.le_trans hle hm)⟩

theorem Apart.unmentioned (h : Apart alloc base n t l) (hg : l.HasFile g) :
    t.Unmentioned g.filePath := by
  obtain ⟨m, hm, -, hpath⟩ := h.named.path_of_hasFile hg
  rw [hpath]
  exact h.fresh m hm

theorem Apart.unique (h : Apart alloc base n t l)
    (hrow : Stored t l loc row) (hrow' : Stored t l loc row') : row = row' := by
  rcases hrow with ⟨f, hf, hpath, hrow⟩ | hrow <;> rcases hrow' with ⟨f', hf', hpath', hrow'⟩ | hrow'
  · have hfile : f = f' := List.inj_on_of_nodup_map h.ordered.paths hf hf' (hpath.trans hpath'.symm)
    rw [hfile] at hrow
    exact Option.some.inj (hrow.symm.trans hrow')
  · obtain ⟨g, hg, hgpath, -⟩ := hrow'
    exact absurd (hpath.trans hgpath.symm) ((h.unmentioned hg).data f hf)
  · obtain ⟨g, hg, hgpath, -⟩ := hrow
    exact absurd (hpath'.trans hgpath.symm) ((h.unmentioned hg).data f' hf')
  · exact h.named.hasRow_unique hrow hrow'

theorem Apart.not_stored (h : Apart alloc base n t l)
    (hends : l.Ends loc.path loc.position) (hpath : ∃ m, base ≤ m ∧ loc.path = alloc m)
    (row : R) : ¬ Stored t l loc row := by
  obtain ⟨m, hm, hpath⟩ := hpath
  rintro (⟨f, hf, hfpath, -⟩ | hrow)
  · exact (h.fresh m hm).data f hf (hfpath.trans hpath)
  · exact absurd (hends _ row hrow) (Nat.lt_irrefl _)

section Commit

variable {deleted : RowLocation P → Prop} {δ : Delta P K R E}

theorem Apart.fresh_files (h : Apart alloc base n t l) (hδ : Commits l deleted δ) :
    ∀ f ∈ δ.data, t.Unmentioned f.1 := by
  intro f hf
  obtain ⟨g, hg, hpath⟩ := hδ.files f hf
  rw [← hpath]
  exact h.unmentioned hg

/-- Names that are still to come stay unmentioned, if only stored rows are deleted. -/
theorem Apart.commit [DecidableEq P] (halloc : Function.Injective alloc) (h : Apart alloc base n t l)
    (hδ : Commits l deleted δ) (hdel : ∀ loc, deleted loc → ∃ row, Stored t l loc row)
    (rd : Reader P K R E) : Filed alloc n (t.commit rd δ) where
  ordered := Table.ordered_commit h.ordered hδ.paths fun g hg => (h.fresh_files hδ g hg).data
  fresh m hm := by
    have hold := h.fresh m (Nat.le_trans h.le hm)
    refine Table.unmentioned_commit hold (fun f hf => ?_) (fun loc hpos => ?_)
    · obtain ⟨g, hg, hpath⟩ := hδ.files f hf
      rw [← hpath]
      exact h.named.ne_later halloc hg hm
    · obtain ⟨row, ⟨f, hf, hpath, -⟩ | ⟨g, hg, hpath, -⟩⟩ := hdel loc ((hδ.position loc).1 hpos)
      · rw [← hpath]
        exact hold.data f hf
      · rw [← hpath]
        exact h.named.ne_later halloc hg hm

end Commit

end Staging
