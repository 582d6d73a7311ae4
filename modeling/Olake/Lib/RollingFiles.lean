/-
Files that are written one row after the other, at most one open file per key, and
finished from time to time.

The rows of a writer do not move when a file is finished or a new one is started (`Rolled`): only
`push` adds a row, at the end of an open file (`Pushed`).  Paths come from a sequence of names that
is never used twice, so a path tells the file (`Named`).
-/
import Mathlib.Data.List.Nodup

namespace Rolling

open List Function Option

structure File (P V α : Type) where
  filePath : P
  rows : List α
  partitionValues : V

/-- Finished files, and the open file of each key. -/
structure Lane (K P V α : Type) where
  created : List (File P V α)
  opened : K → Option (File P V α)

variable {K P V α : Type}

def keep (f : File P V α) (files : List (File P V α)) : List (File P V α) :=
  if f.rows.isEmpty then files else files ++ [f]

theorem mem_keep : g ∈ keep f files ↔ g ∈ files ∨ f.rows ≠ [] ∧ g = f := by
  unfold keep
  split
  · next h => simp [isEmpty_iff.1 h]
  · next h => simp [mt List.isEmpty_iff.2 h]

namespace Lane

def HasFile (l : Lane K P V α) (f : File P V α) : Prop :=
  f ∈ l.created ∨ ∃ k, l.opened k = some f

def HasRow (l : Lane K P V α) (path : P) (i : Nat) (x : α) : Prop :=
  ∃ f, l.HasFile f ∧ f.filePath = path ∧ f.rows[i]? = some x

/-- The place is behind all rows of the file. -/
def Ends (l : Lane K P V α) (path : P) (i : Nat) : Prop := ∀ j x, l.HasRow path j x → j < i

def HasItem (l : Lane K P V α) (values : V) (x : α) : Prop :=
  ∃ f, l.HasFile f ∧ f.partitionValues = values ∧ x ∈ f.rows

/-! ### Names -/

/-- The paths of the lane are names `alloc m` for `base ≤ m < n`, and a path belongs to
one file. -/
structure Named (alloc : Nat → P) (base n : Nat) (l : Lane K P V α) : Prop where
  created : ∀ f ∈ l.created, ∃ m, base ≤ m ∧ m < n ∧ f.filePath = alloc m
  opened : ∀ k f, l.opened k = some f → ∃ m, base ≤ m ∧ m < n ∧ f.filePath = alloc m
  nodup : (l.created.map File.filePath).Nodup
  disjoint : ∀ k f, l.opened k = some f → ∀ g ∈ l.created, g.filePath ≠ f.filePath
  distinct : ∀ k k' f f', l.opened k = some f → l.opened k' = some f' → f.filePath = f'.filePath → k = k'

variable {alloc : Nat → P} {base n : Nat} {l l₁ l₂ l₃ : Lane K P V α} {k k' : K} {f g : File P V α} {x : α}

/-- A file is finished, or it is the open one of the key, or that of another key. -/
theorem hasFile_iff (hk : l.opened k = some g) :
    l.HasFile f ↔ f ∈ l.created ∨ f = g ∨ ∃ k' ≠ k, l.opened k' = some f := by
  unfold HasFile
  grind

theorem Named.mono (h : Named alloc base n l) (hn : n ≤ n') : Named alloc base n' l where
  created f hf := by
    obtain ⟨m, hbase, hm, hpath⟩ := h.created f hf
    exact ⟨m, hbase, by omega, hpath⟩
  opened k f hf := by
    obtain ⟨m, hbase, hm, hpath⟩ := h.opened k f hf
    exact ⟨m, hbase, by omega, hpath⟩
  nodup := h.nodup
  disjoint := h.disjoint
  distinct := h.distinct

theorem Named.path_of_hasFile (h : Named alloc base n l) (hf : l.HasFile f) :
    ∃ m, base ≤ m ∧ m < n ∧ f.filePath = alloc m := by
  rcases hf with hf | ⟨k, hf⟩
  · exact h.created f hf
  · exact h.opened k f hf

theorem Named.ne_later (halloc : Function.Injective alloc) (h : Named alloc base n l)
    (hf : l.HasFile f) (hn : n ≤ n') : f.filePath ≠ alloc n' := by
  obtain ⟨m, -, hm, hpath⟩ := h.path_of_hasFile hf
  rw [hpath]
  intro heq
  have hmn := halloc heq
  omega

theorem Named.eq_of_filePath (h : Named alloc base n l) (hf : l.HasFile f)
    (hg : l.HasFile g) (hpath : f.filePath = g.filePath) : f = g := by
  rcases hf with hf | ⟨k, hf⟩ <;> rcases hg with hg | ⟨k', hg⟩
  · exact inj_on_of_nodup_map h.nodup hf hg hpath
  · exact absurd hpath (h.disjoint k' g hg f hf)
  · exact absurd hpath.symm (h.disjoint k f hf g hg)
  · have hk := h.distinct k k' f g hf hg hpath
    rw [hk, hg] at hf
    exact (some.inj hf).symm

theorem Named.hasRow_unique (h : Named alloc base n l)
    (hx : l.HasRow p i x) (hy : l.HasRow p i y) : x = y := by
  obtain ⟨f, hf, hp, hx⟩ := hx
  obtain ⟨g, hg, hp', hy⟩ := hy
  rw [h.eq_of_filePath hf hg (hp.trans hp'.symm)] at hx
  exact some.inj (hx.symm.trans hy)

theorem Named.ends (h : Named alloc base n l)
    (hk : l.opened k = some g) : l.Ends g.filePath g.rows.length := by
  rintro j x ⟨f, hf, hp, hx⟩
  rw [h.eq_of_filePath hf (.inr ⟨k, hk⟩) hp] at hx
  exact (List.getElem?_eq_some_iff.1 hx).1

/-! ### What writing keeps -/

/-- The second lane, after names up to `n'` were given out, has the rows of the first one. -/
structure Rolled (alloc : Nat → P) (l : Lane K P V α) (n : Nat) (l' : Lane K P V α) (n' : Nat) : Prop where
  rows : ∀ path i x, l'.HasRow path i x ↔ l.HasRow path i x
  items : ∀ values x, l'.HasItem values x ↔ l.HasItem values x
  allocated : n ≤ n'
  named : ∀ base, base ≤ n → l.Named alloc base n → l'.Named alloc base n'

/-- The second lane has one more row, at the end of a file. -/
structure Pushed (alloc : Nat → P) (l : Lane K P V α) (n : Nat) (l' : Lane K P V α) (n' : Nat)
    (path : P) (position : Nat) (x : α) : Prop where
  rows : ∀ p i y, l'.HasRow p i y ↔ l.HasRow p i y ∨ p = path ∧ i = position ∧ y = x
  allocated : n ≤ n'
  named : ∀ base, base ≤ n → l.Named alloc base n →
    l'.Named alloc base n' ∧ l.Ends path position ∧ ∃ m, base ≤ m ∧ path = alloc m

theorem Rolled.refl (l : Lane K P V α) (hn : n ≤ n') : Rolled alloc l n l n' :=
  ⟨fun _ _ _ => Iff.rfl, fun _ _ => Iff.rfl, hn, fun _ _ h => h.mono hn⟩

theorem Rolled.trans (h : Rolled alloc l₁ n₁ l₂ n₂) (h' : Rolled alloc l₂ n₂ l₃ n₃) :
    Rolled alloc l₁ n₁ l₃ n₃ where
  rows path i x := (h'.rows path i x).trans (h.rows path i x)
  items values x := (h'.items values x).trans (h.items values x)
  allocated := Nat.le_trans h.allocated h'.allocated
  named base hbase hn := h'.named base (Nat.le_trans hbase h.allocated) (h.named base hbase hn)

theorem Rolled.pushed (h : Rolled alloc l₁ n₁ l₂ n₂) (h' : Pushed alloc l₂ n₂ l₃ n₃ path position x) :
    Pushed alloc l₁ n₁ l₃ n₃ path position x where
  rows p i y := by rw [h'.rows, h.rows]
  allocated := Nat.le_trans h.allocated h'.allocated
  named base hbase hn := by
    obtain ⟨hn', hends, hm⟩ := h'.named base (Nat.le_trans hbase h.allocated) (h.named base hbase hn)
    exact ⟨hn', fun i y hy => hends i y ((h.rows _ _ _).2 hy), hm⟩

theorem Pushed.rolled (h : Pushed alloc l₁ n₁ l₂ n₂ path position x) (h' : Rolled alloc l₂ n₂ l₃ n₃) :
    Pushed alloc l₁ n₁ l₃ n₃ path position x where
  rows p i y := (h'.rows p i y).trans (h.rows p i y)
  allocated := Nat.le_trans h.allocated h'.allocated
  named base hbase hn := by
    obtain ⟨hn', hends⟩ := h.named base hbase hn
    exact ⟨h'.named base (Nat.le_trans hbase h.allocated) hn', hends⟩

/-! ### Operations -/

variable [DecidableEq K]

def start (l : Lane K P V α) (k : K) (path : P) (values : V) : Lane K P V α :=
  { l with opened := Function.update l.opened k (some ⟨path, [], values⟩) }

def push (l : Lane K P V α) (k : K) (xs : List α) : Lane K P V α where
  created := l.created
  opened := Function.update l.opened k
    ((l.opened k).map (fun f => ⟨f.filePath, f.rows ++ xs, f.partitionValues⟩))

def finish (l : Lane K P V α) (k : K) : Lane K P V α where
  created := match l.opened k with
    | some f => keep f l.created
    | none => l.created
  opened := Function.update l.opened k none

/-- The finished files and the open file of the key are replaced. -/
abbrev set (l : Lane K P V α) (files : List (File P V α)) (k : K) (f : Option (File P V α)) :
    Lane K P V α :=
  ⟨files, Function.update l.opened k f⟩

theorem opened_start :
    (l.start k path values).opened k' = if k' = k then some ⟨path, [], values⟩ else l.opened k' := by
  simp [start, update_apply]

theorem opened_push :
    (l.push k xs).opened k' =
      if k' = k then (l.opened k).map (fun f => ⟨f.filePath, f.rows ++ xs, f.partitionValues⟩)
      else l.opened k' := by
  simp [push, update_apply]

theorem push_nil : l.push k [] = l := by
  simp only [push, append_nil, Option.map_id_fun', id_eq, update_eq_self]

theorem opened_finish : (l.finish k).opened k' = if k' = k then none else l.opened k' := by
  simp [finish, update_apply]

theorem mem_created_finish :
    f ∈ (l.finish k).created ↔ f ∈ l.created ∨ l.opened k = some f ∧ f.rows ≠ [] := by
  cases hk : l.opened k with
  | none => simp [finish, hk]
  | some g =>
    simp only [finish, hk, mem_keep, some.injEq]
    refine or_congr Iff.rfl ⟨?_, ?_⟩
    · rintro ⟨hne, rfl⟩
      exact ⟨rfl, hne⟩
    · rintro ⟨rfl, hne⟩
      exact ⟨hne, rfl⟩

theorem Named.start (halloc : Function.Injective alloc) (h : Named alloc base n l) (hbase : base ≤ n)
    (values : V) : Named alloc base (n + 1) (l.start k (alloc n) values) where
  created := (h.mono (Nat.le_succ n)).created
  opened k' f hf := by
    rw [opened_start] at hf
    split at hf
    · cases hf
      exact ⟨n, hbase, Nat.lt_succ_self n, rfl⟩
    · exact (h.mono (Nat.le_succ n)).opened k' f hf
  nodup := h.nodup
  disjoint k' f hf g hg := by
    replace hg : g ∈ l.created := hg
    grind [opened_start, h.disjoint, h.ne_later halloc, Lane.HasFile]
  distinct := by grind [opened_start, h.distinct, h.ne_later halloc, Lane.HasFile]

theorem exists_opened_of_push (h : (l.push k xs).opened k' = some f)
    : ∃ g, l.opened k' = some g ∧ g.filePath = f.filePath := by
  rw [opened_push] at h
  split at h
  · next heq =>
    obtain ⟨g, hg, rfl⟩ := map_eq_some_iff.1 h
    exact ⟨g, by rw [heq]; exact hg, rfl⟩
  · exact ⟨f, h, rfl⟩

theorem Named.push (h : Named alloc base n l) (xs : List α) : Named alloc base n (l.push k xs) where
  created := h.created
  opened k' f hf := by
    obtain ⟨g, hg, hpath⟩ := exists_opened_of_push hf
    rw [← hpath]
    exact h.opened k' g hg
  nodup := h.nodup
  disjoint k' f hf := by
    obtain ⟨g, hg, hpath⟩ := exists_opened_of_push hf
    rw [← hpath]
    exact h.disjoint k' g hg
  distinct k₁ k₂ f₁ f₂ h₁ h₂ hpath := by
    obtain ⟨g₁, hg₁, hpath₁⟩ := exists_opened_of_push h₁
    obtain ⟨g₂, hg₂, hpath₂⟩ := exists_opened_of_push h₂
    exact h.distinct k₁ k₂ g₁ g₂ hg₁ hg₂ (by rw [hpath₁, hpath₂, hpath])

theorem Named.finish (h : Named alloc base n l) : Named alloc base n (l.finish k) where
  created f hf := by
    rcases mem_created_finish.1 hf with hf | ⟨hf, -⟩
    · exact h.created f hf
    · exact h.opened k f hf
  opened := by grind [opened_finish, h.opened]
  nodup := by
    cases hk : l.opened k with
    | none =>
      simp only [Lane.finish, hk]
      exact h.nodup
    | some g =>
      simp only [Lane.finish, hk, keep]
      split
      · exact h.nodup
      · rw [map_append, nodup_append]
        refine ⟨h.nodup, by simp, fun p hp q hq => ?_⟩
        obtain ⟨f, hf, rfl⟩ := mem_map.1 hp
        rw [map_singleton, mem_singleton] at hq
        rw [hq]
        exact h.disjoint k g hk f hf
  disjoint := by grind [opened_finish, mem_created_finish, h.disjoint, h.distinct]
  distinct := by grind [opened_finish, h.distinct]

/-! ### Rows and items -/

theorem hasFile_start (hk : l.opened k = none)
    (hf : f.rows ≠ []) : (l.start k path values).HasFile f ↔ l.HasFile f := by
  refine or_congr Iff.rfl (exists_congr fun k' => ?_)
  rw [opened_start]
  split
  · next heq =>
    rw [heq, hk]
    constructor
    · intro h
      cases h
      exact absurd rfl hf
    · intro h
      cases h
  · exact Iff.rfl

theorem hasFile_finish (hf : f.rows ≠ []) : (l.finish k).HasFile f ↔ l.HasFile f := by
  constructor
  · rintro (hmem | ⟨k', hk'⟩)
    · rcases mem_created_finish.1 hmem with hmem | ⟨hmem, -⟩
      · exact .inl hmem
      · exact .inr ⟨k, hmem⟩
    · rw [opened_finish] at hk'
      split at hk'
      · cases hk'
      · exact .inr ⟨k', hk'⟩
  · rintro (hmem | ⟨k', hk'⟩)
    · exact .inl (mem_created_finish.2 (.inl hmem))
    · by_cases heq : k' = k
      · rw [heq] at hk'
        exact .inl (mem_created_finish.2 (.inr ⟨hk', hf⟩))
      · refine .inr ⟨k', ?_⟩
        rw [opened_finish, if_neg heq]
        exact hk'

theorem hasRow_start (hk : l.opened k = none) :
    (l.start k path values).HasRow p i x ↔ l.HasRow p i x := by
  refine exists_congr fun f => and_congr_left fun ⟨_, hx⟩ => hasFile_start hk ?_
  intro hnil
  simp [hnil] at hx

theorem hasRow_finish : (l.finish k).HasRow p i x ↔ l.HasRow p i x := by
  refine exists_congr fun f => and_congr_left fun ⟨_, hx⟩ => hasFile_finish ?_
  intro hnil
  simp [hnil] at hx

theorem hasItem_start (hk : l.opened k = none) :
    (l.start k path values).HasItem v x ↔ l.HasItem v x :=
  exists_congr fun _ => and_congr_left fun ⟨_, hx⟩ => hasFile_start hk (ne_nil_of_mem hx)

theorem hasItem_finish : (l.finish k).HasItem v x ↔ l.HasItem v x :=
  exists_congr fun _ => and_congr_left fun ⟨_, hx⟩ => hasFile_finish (ne_nil_of_mem hx)

/-- What is true of some file after a push is true of one before, or it is new of the open file. -/
theorem exists_hasFile_push {p : File P V α → Prop} {new : Prop} (hk : l.opened k = some g)
    (hnew : p ⟨g.filePath, g.rows ++ xs, g.partitionValues⟩ ↔ p g ∨ new) :
    (∃ f, (l.push k xs).HasFile f ∧ p f) ↔ (∃ f, l.HasFile f ∧ p f) ∨ new := by
  have hpush : (l.push k xs).opened k = some ⟨g.filePath, g.rows ++ xs, g.partitionValues⟩ := by
    rw [opened_push, if_pos rfl, hk]
    rfl
  have hothers : ∀ k' ≠ k, (l.push k xs).opened k' = l.opened k' := fun _ hne => update_of_ne hne _ _
  simp only [hasFile_iff hk, hasFile_iff hpush, or_and_right, exists_or, exists_eq_left, hnew]
  grind [Lane.push]

theorem hasItem_push (hk : l.opened k = some g) :
    (l.push k xs).HasItem v x ↔ l.HasItem v x ∨ g.partitionValues = v ∧ x ∈ xs :=
  exists_hasFile_push hk (by rw [mem_append, and_or_left])

/-- A row that is pushed stands at the end of the open file; the others stay where they
are. -/
theorem hasRow_push (hk : l.opened k = some g) :
    (l.push k [x]).HasRow p i y ↔ l.HasRow p i y ∨ p = g.filePath ∧ i = g.rows.length ∧ y = x :=
  exists_hasFile_push hk (by grind)

theorem Rolled.start (halloc : Function.Injective alloc) (hk : l.opened k = none) (n : Nat) (values : V) :
    Rolled alloc l n (l.start k (alloc n) values) (n + 1) :=
  ⟨fun _ _ _ => hasRow_start hk, fun _ _ => hasItem_start hk, Nat.le_succ n,
    fun _ hbase hn => hn.start halloc hbase values⟩

theorem Rolled.finish : Rolled alloc l n (l.finish k) n :=
  ⟨fun _ _ _ => hasRow_finish, fun _ _ => hasItem_finish, Nat.le_refl n, fun _ _ hn => hn.finish⟩

theorem Pushed.push (hk : l.opened k = some g) (x : α) :
    Pushed alloc l n (l.push k [x]) n g.filePath g.rows.length x where
  rows _ _ _ := hasRow_push hk
  allocated := Nat.le_refl n
  named base _ hn := by
    obtain ⟨m, hm, -, hpath⟩ := hn.opened _ _ hk
    exact ⟨hn.push _, hn.ends hk, m, hm, hpath⟩

end Lane

end Rolling
