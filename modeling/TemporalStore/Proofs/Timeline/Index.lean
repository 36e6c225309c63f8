import TemporalStore.Proofs.Ordered
import TemporalStore.Proofs.Path
import TemporalStore.Proofs.Timeline.Tiling
import TemporalStore.Timeline.Index

/-!
This module contains the validity of an index of rows, and the changes that keep it: the current
row of a branch is locked or unlocked, a branch is begun, or its current row is closed and
followed by another.
-/

namespace TemporalStore

open Timeline (Tiles)

/--
A row of the branch `path`, stored by the time `now`.
-/
structure BranchRow.Fits (row : BranchRow) (path : String) (now : Timepoint) : Prop where
  path : row.path = path
  head : row.head = row.start
  base_nonneg : 0 ≤ row.base
  base_le : row.base ≤ row.start
  start_le : row.start ≤ now

theorem BranchRow.Fits.mono {row : BranchRow} {path : String} {now later : Timepoint}
    (h : row.Fits path now) (hl : now ≤ later) : row.Fits path later where
  path := h.path
  head := h.head
  base_nonneg := h.base_nonneg
  base_le := h.base_le
  start_le := Int.le_trans h.start_le hl

theorem BranchRow.Fits.setLocked {row : BranchRow} {path : String} {now : Timepoint}
    (h : row.Fits path now) (locked : Bool) : BranchRow.Fits { row with locked } path now :=
  ⟨h.path, h.head, h.base_nonneg, h.base_le, h.start_le⟩

theorem BranchRow.Fits.close {row : BranchRow} {path : String} {now : Timepoint}
    (h : row.Fits path now) (t : Timepoint) : (row.close t).Fits path now :=
  ⟨h.path, h.head, h.base_nonneg, h.base_le, h.start_le⟩

namespace RowIndex

def first? (index : RowIndex) (path : String) : Option BranchRow := (index.timeline path).head?

def last? (index : RowIndex) (path : String) : Option BranchRow := (index.timeline path).getLast?

def put (index : RowIndex) (path : String) (rows : List BranchRow) : RowIndex :=
  ⟨index.rows.insert (Path.flatten path) rows⟩

/--
What holds of every index that branches are kept in, where `now` is the timepoint issued last.
-/
structure Valid (index : RowIndex) (now : Timepoint) : Prop where
  keys : ∀ key rows, index.rows.get? key = some rows →
    rows ≠ [] ∧ ∃ path, Path.Valid path ∧ Path.flatten path = key
  tiles : ∀ path, Tiles (index.timeline path)
  fits : ∀ path, Path.Valid path → ∀ row ∈ index.timeline path, row.Fits path now
  parents : ∀ path parent, Path.Valid path → Path.parent? path = some parent →
    ∀ row ∈ index.timeline path, ∃ first, index.first? parent = some first ∧
      first.start ≤ row.base ∧ first.start < row.start

theorem valid_empty (now : Timepoint) : Valid {} now where
  keys := by
    intro key rows h
    simp at h
  tiles _ := trivial
  fits := by
    intro path _ row hrow
    simp [timeline] at hrow
  parents := by
    intro path parent _ _ row hrow
    simp [timeline] at hrow

/-! ## Replacing the rows of one branch -/

theorem timeline_put (index : RowIndex) (path q : String) (rows : List BranchRow) :
    (index.put path rows).timeline q =
      if Path.flatten q = Path.flatten path then rows else index.timeline q := by
  unfold timeline put
  simp only [OrderedMap.get?_insert, Std.LawfulEqCmp.compare_eq_iff_eq]
  split <;> rfl

@[simp]
theorem timeline_put_self (index : RowIndex) (path : String) (rows : List BranchRow) :
    (index.put path rows).timeline path = rows := by
  rw [timeline_put, if_pos rfl]

theorem timeline_put_of_ne (index : RowIndex) {path q : String} (rows : List BranchRow)
    (hp : Path.Valid path) (hq : Path.Valid q) (h : q ≠ path) :
    (index.put path rows).timeline q = index.timeline q := by
  rw [timeline_put, if_neg]
  rw [Path.flatten_inj hq hp]
  exact h

theorem put_put (index : RowIndex) (path : String) (rows rows' : List BranchRow) :
    (index.put path rows).put path rows' = index.put path rows' := by
  unfold put
  rw [OrderedMap.insert_insert]

theorem put_timeline {index : RowIndex} {path : String} (h : index.timeline path ≠ []) :
    index.put path (index.timeline path) = index := by
  unfold timeline at h
  unfold put timeline
  cases hr : index.rows.get? (Path.flatten path) with
  | none => simp [hr] at h
  | some rows =>
    rw [Option.getD_some, OrderedMap.insert_of_get?_eq_some hr]

theorem Valid.put {index : RowIndex} {now later : Timepoint} {path : String}
    {rows : List BranchRow} (h : index.Valid now) (hp : Path.Valid path) (hl : now ≤ later)
    (nonempty : rows ≠ []) (tiles : Tiles rows) (fits : ∀ row ∈ rows, row.Fits path later)
    (first : ∀ f, index.first? path = some f → ∃ f', rows.head? = some f' ∧ f'.start = f.start)
    (parents : ∀ parent, Path.parent? path = some parent → ∀ row ∈ rows,
      ∃ f, index.first? parent = some f ∧ f.start ≤ row.base ∧ f.start < row.start) :
    (index.put path rows).Valid later where
  keys := by
    intro key rows' hk
    unfold RowIndex.put at hk
    rw [OrderedMap.get?_insert] at hk
    split at hk
    · rename_i he
      have he : key = Path.flatten path := Std.LawfulEqOrd.eq_of_compare he
      simp only [Option.some.injEq] at hk
      rw [← hk]
      exact ⟨nonempty, path, hp, he.symm⟩
    · exact h.keys key rows' hk
  tiles := by
    intro q
    rw [timeline_put]
    split
    · exact tiles
    · exact h.tiles q
  fits := by
    intro q hq row hrow
    by_cases hqp : q = path
    · subst hqp
      rw [timeline_put_self] at hrow
      exact fits row hrow
    · rw [timeline_put_of_ne index rows hp hq hqp] at hrow
      exact (h.fits q hq row hrow).mono hl
  parents := by
    intro q parent hq hparent row hrow
    have valid := Path.valid_of_parent? hq hparent
    obtain ⟨f, hf, hbase, hstart⟩ : ∃ f, index.first? parent = some f ∧
        f.start ≤ row.base ∧ f.start < row.start := by
      by_cases hqp : q = path
      · subst hqp
        rw [timeline_put_self] at hrow
        exact parents parent hparent row hrow
      · rw [timeline_put_of_ne index rows hp hq hqp] at hrow
        exact h.parents q parent hq hparent row hrow
    by_cases hpp : parent = path
    · subst hpp
      obtain ⟨f', hf', hs⟩ := first f hf
      refine ⟨f', ?_, ?_, ?_⟩
      · unfold first?
        rw [timeline_put_self]
        exact hf'
      · rw [hs]
        exact hbase
      · rw [hs]
        exact hstart
    · refine ⟨f, ?_, hbase, hstart⟩
      unfold first? at hf ⊢
      rw [timeline_put_of_ne index rows hp valid hpp]
      exact hf

theorem Valid.mono {index : RowIndex} {now later : Timepoint} (h : index.Valid now)
    (hl : now ≤ later) : index.Valid later where
  keys := h.keys
  tiles := h.tiles
  fits path hp row hrow := (h.fits path hp row hrow).mono hl
  parents := h.parents

end RowIndex

end TemporalStore
