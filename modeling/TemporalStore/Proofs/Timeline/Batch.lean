import TemporalStore.Proofs.Timeline.Filed

/-!
This module contains the effect of a batch of rows on an index, whatever its rows are and in
whatever order they come.
-/

namespace TemporalStore

/--
Where a row is stored: under its flat path, by its start.
-/
def BranchRow.slot (row : BranchRow) : String × Timepoint := (row.flatPath, row.start)

/--
Where no two elements have the same key, whatever has the key is what is found by it.
-/
theorem find?_key_eq_some_iff {α κ : Type} [DecidableEq κ] {key : α → κ} {xs : List α} {k : κ}
    {x : α} (distinct : (xs.map key).Nodup) :
    xs.find? (key · = k) = some x ↔ x ∈ xs ∧ key x = k := by
  induction xs with
  | nil => simp
  | cons y xs ih =>
    rw [List.map_cons, List.nodup_cons] at distinct
    rw [List.mem_cons]
    by_cases here : key y = k
    · have only : x ∈ xs → key x ≠ k := by
        intro mem same
        apply distinct.1
        rw [here, ← same]
        exact List.mem_map_of_mem mem
      rw [List.find?_cons_of_pos (by simpa using here), Option.some.injEq]
      grind
    · rw [List.find?_cons_of_neg (by simpa using here), ih distinct.2]
      grind

namespace RowIndex

/--
Rows are listed under their flat paths in the order of their starts, no two of which are the same.
-/
structure Sorted (index : RowIndex) : Prop where
  keys : ∀ key rows, index.rows.get? key = some rows → ∀ row ∈ rows, row.flatPath = key
  starts : ∀ key rows, index.rows.get? key = some rows →
    rows.Pairwise fun a b => a.start < b.start

theorem sorted_iff_entries {index : RowIndex} :
    index.Sorted ↔ ∀ e ∈ index.rows.entries,
      (∀ row ∈ e.2, row.flatPath = e.1) ∧ e.2.Pairwise fun a b => a.start < b.start := by
  constructor
  · intro h e mem
    have found := OrderedMap.get?_eq_some_iff.2 mem
    exact ⟨h.keys e.1 e.2 found, h.starts e.1 e.2 found⟩
  · intro each
    constructor
    · intro key rows found
      exact (each _ (OrderedMap.get?_eq_some_iff.1 found)).1
    · intro key rows found
      exact (each _ (OrderedMap.get?_eq_some_iff.1 found)).2

instance (index : RowIndex) : Decidable index.Sorted := decidable_of_iff' _ sorted_iff_entries

/--
The row in a slot.
-/
def stored? (index : RowIndex) (slot : String × Timepoint) : Option BranchRow :=
  ((index.rows.get? slot.1).getD []).find? (·.start = slot.2)

/-! ## One list of rows -/

section

variable {row r : BranchRow} {rows rows' : List BranchRow}

theorem nodup_starts_of_pairwise (sorted : rows.Pairwise fun a b => a.start < b.start) :
    (rows.map BranchRow.start).Nodup := by
  rw [List.Nodup, List.pairwise_map]
  exact sorted.imp fun before => Int.ne_of_lt before

theorem mem_replaceFirst_iff (distinct : (rows.map BranchRow.start).Nodup)
    (there : ∃ r ∈ rows, r.start = row.start) :
    r ∈ upsertRow.replaceFirst row rows ↔ r = row ∨ r ∈ rows ∧ r.start ≠ row.start := by
  induction rows with
  | nil => simp at there
  | cons r' rows ih =>
    rw [List.map_cons, List.nodup_cons] at distinct
    unfold upsertRow.replaceFirst
    split
    · rename_i same
      have others : ∀ r ∈ rows, r.start ≠ row.start := by
        intro r mem again
        apply distinct.1
        rw [same, ← again]
        exact List.mem_map_of_mem mem
      grind
    · rename_i other
      have later : ∃ r ∈ rows, r.start = row.start := by simpa [other] using there
      rw [List.mem_cons, ih distinct.2 later]
      grind

theorem mem_upsertRow_iff (distinct : (rows.map BranchRow.start).Nodup) :
    r ∈ upsertRow row rows ↔ r = row ∨ r ∈ rows ∧ r.start ≠ row.start := by
  unfold upsertRow
  split
  · rename_i there
    exact mem_replaceFirst_iff distinct (any_start_iff.1 there)
  · rename_i absent
    rw [any_start_iff] at absent
    have other : r ∈ rows → r.start ≠ row.start := fun mem same => absent ⟨r, mem, same⟩
    rw [mem_sortByKey, List.mem_append, List.mem_singleton]
    grind

theorem pairwise_start_upsertRow (sorted : rows.Pairwise fun a b => a.start < b.start) :
    (upsertRow row rows).Pairwise fun a b => a.start < b.start := by
  have distinct := @nodup_starts_upsertRow row rows (nodup_starts_of_pairwise sorted)
  rw [List.Nodup, List.pairwise_map] at distinct
  unfold upsertRow at distinct ⊢
  split
  · have starts : (rows.map BranchRow.start).Pairwise (· < ·) := List.pairwise_map.2 sorted
    rw [← @starts_replaceFirst row] at starts
    exact List.pairwise_map.1 starts
  · rename_i absent
    rw [if_neg absent] at distinct
    have ordered := @pairwise_sortByKey _ _ _ _ BranchRow.start (rows ++ [row])
    apply (ordered.and distinct).imp
    rintro a b ⟨le, ne⟩
    rw [Int.isLE_compare] at le
    lia

theorem find?_start_upsertRow (sorted : rows.Pairwise fun a b => a.start < b.start)
    {t : Timepoint} :
    (upsertRow row rows).find? (·.start = t) =
      if row.start = t then some row else rows.find? (·.start = t) := by
  have distinct := nodup_starts_of_pairwise sorted
  apply Option.ext
  intro r
  rw [find?_key_eq_some_iff (nodup_starts_upsertRow distinct), mem_upsertRow_iff distinct]
  split
  · grind
  · rw [find?_key_eq_some_iff distinct]
    grind

/--
Lists in the order of the starts are the same if the same is found in them.
-/
theorem eq_of_find?_start_eq (sorted : rows.Pairwise fun a b => a.start < b.start)
    (sorted' : rows'.Pairwise fun a b => a.start < b.start)
    (same : ∀ t : Timepoint, rows.find? (·.start = t) = rows'.find? (·.start = t)) :
    rows = rows' := by
  have irrefl : Std.Irrefl fun a b : BranchRow => a.start < b.start :=
    ⟨fun a => Int.lt_irrefl a.start⟩
  have antisymm : Std.Antisymm fun a b : BranchRow => a.start < b.start :=
    ⟨fun a b before after => absurd (Int.lt_trans before after) (Int.lt_irrefl a.start)⟩
  apply sorted.eq_of_mem_iff sorted'
  intro r
  have found := @find?_key_eq_some_iff _ _ _ _ _ r.start r (nodup_starts_of_pairwise sorted)
  have found' := @find?_key_eq_some_iff _ _ _ _ _ r.start r (nodup_starts_of_pairwise sorted')
  rw [← and_iff_left (a := r ∈ rows) rfl, ← found, same, found', and_iff_left rfl]

end

/-! ## One row -/

section

variable {index index' : RowIndex} {row : BranchRow} {batch batch' : List BranchRow}
  {slot : String × Timepoint} {key : String}

theorem get?_upsert :
    (index.upsert row).rows.get? key =
      if key = row.flatPath then some (upsertRow row ((index.rows.get? key).getD []))
      else index.rows.get? key := by
  unfold upsert timeline
  rw [OrderedMap.get?_insert]
  by_cases here : key = row.flatPath
  · rw [if_pos (by simp [here]), if_pos here, here]
    rfl
  · rw [if_neg (by simpa using here), if_neg here]

theorem Sorted.filed (h : index.Sorted) : index.Filed fun _ => True where
  keys := h.keys
  starts key rows found := nodup_starts_of_pairwise (h.starts key rows found)
  named _ _ _ _ _ := trivial

theorem Sorted.pairwise (h : index.Sorted) (key : String) :
    ((index.rows.get? key).getD []).Pairwise fun a b => a.start < b.start := by
  cases found : index.rows.get? key with
  | none => exact .nil
  | some rows => exact h.starts key rows found

theorem Sorted.upsert (h : index.Sorted) (row : BranchRow) : (index.upsert row).Sorted where
  keys := (h.filed.upsert trivial).keys
  starts := by
    intro key rows found
    rw [get?_upsert] at found
    split at found
    · rw [← Option.some.inj found]
      exact pairwise_start_upsertRow (h.pairwise key)
    · exact h.starts key rows found

theorem Sorted.stored?_upsert (h : index.Sorted) :
    (index.upsert row).stored? slot =
      if row.slot = slot then some row else index.stored? slot := by
  obtain ⟨key, t⟩ := slot
  have same : row.slot = (key, t) ↔ key = row.flatPath ∧ row.start = t := by
    rw [BranchRow.slot, Prod.mk.injEq, eq_comm]
  unfold stored?
  rw [get?_upsert]
  by_cases here : key = row.flatPath
  · have start : row.slot = (key, t) ↔ row.start = t := same.trans (and_iff_right here)
    rw [if_pos here, Option.getD_some, find?_start_upsertRow (h.pairwise key)]
    simp only [start]
  · rw [if_neg here, if_neg fun at_ => here (same.1 at_).1]

/-! ## All rows of a batch -/

theorem apply_cons : index.apply (row :: batch) = (index.upsert row).apply batch := rfl

theorem Sorted.apply (h : index.Sorted) (batch : List BranchRow) : (index.apply batch).Sorted := by
  induction batch generalizing index with
  | nil => exact h
  | cons row batch ih => exact ih (h.upsert row)

/--
The last row of the batch wins, and rows that are not in the batch stay.
-/
theorem Sorted.stored?_apply (h : index.Sorted) :
    (index.apply batch).stored? slot =
      (batch.reverse.find? (·.slot = slot)).or (index.stored? slot) := by
  induction batch generalizing index with
  | nil => rfl
  | cons row batch ih =>
    rw [apply_cons, ih (h.upsert row), h.stored?_upsert, List.reverse_cons, List.find?_append,
      Option.or_assoc, List.find?_singleton]
    by_cases here : row.slot = slot
    · simp [here]
    · simp [here]

theorem isSome_get?_apply :
    ((index.apply batch).rows.get? key).isSome ↔
      (index.rows.get? key).isSome ∨ ∃ row ∈ batch, row.flatPath = key := by
  induction batch generalizing index with
  | nil => simp [RowIndex.apply]
  | cons row batch ih =>
    rw [apply_cons, ih, get?_upsert, List.exists_mem_cons_iff]
    by_cases here : key = row.flatPath
    · simp [here]
    · simp [here, Ne.symm here]

/-! ## The order of a batch -/

theorem Sorted.eq_of_stored?_eq (h : index.Sorted) (h' : index'.Sorted)
    (keys : ∀ key, (index.rows.get? key).isSome ↔ (index'.rows.get? key).isSome)
    (same : ∀ slot, index.stored? slot = index'.stored? slot) : index = index' := by
  have rows : index.rows = index'.rows := by
    apply OrderedMap.ext
    intro key
    have lists : (index.rows.get? key).getD [] = (index'.rows.get? key).getD [] :=
      eq_of_find?_start_eq (h.pairwise key) (h'.pairwise key) fun t => same (key, t)
    have both := keys key
    cases found : index.rows.get? key with
    | none => cases found' : index'.rows.get? key with
      | none => rfl
      | some rows' => simp [found, found'] at both
    | some rows => cases found' : index'.rows.get? key with
      | none => simp [found, found'] at both
      | some rows' => simpa [found, found'] using lists
  obtain ⟨rows'⟩ := index'
  exact congrArg RowIndex.mk rows

theorem find?_slot_eq_of_perm (perm : batch'.Perm batch)
    (distinct : (batch.map BranchRow.slot).Nodup) :
    batch'.reverse.find? (·.slot = slot) = batch.reverse.find? (·.slot = slot) := by
  have distinct' : (batch'.map BranchRow.slot).Nodup := (perm.map _).nodup_iff.2 distinct
  rw [← List.nodup_reverse, ← List.map_reverse] at distinct distinct'
  apply Option.ext
  intro row
  rw [find?_key_eq_some_iff distinct, find?_key_eq_some_iff distinct', List.mem_reverse,
    List.mem_reverse, perm.mem_iff]

theorem Sorted.apply_eq_of_perm (h : index.Sorted) (perm : batch'.Perm batch)
    (distinct : (batch.map BranchRow.slot).Nodup) : index.apply batch' = index.apply batch := by
  apply (h.apply batch').eq_of_stored?_eq (h.apply batch)
  · intro key
    simp only [isSome_get?_apply, perm.mem_iff]
  · intro slot
    rw [h.stored?_apply, h.stored?_apply, find?_slot_eq_of_perm perm distinct]

end

/--
A batch leaves the index sorted. In every slot is then the last row that the batch has for it, or
else the row that was there. The order of the batch does not matter if it has one row for a slot.
-/
theorem batch_exact {index : RowIndex} (h : index.Sorted) (batch : List BranchRow) :
    (index.apply batch).Sorted ∧
    (∀ slot, (index.apply batch).stored? slot =
      (batch.reverse.find? (·.slot = slot)).or (index.stored? slot)) ∧
    ((batch.map BranchRow.slot).Nodup →
      ∀ batch', batch'.Perm batch → index.apply batch' = index.apply batch) :=
  ⟨h.apply batch, fun _ => h.stored?_apply, fun distinct _ perm => h.apply_eq_of_perm perm distinct⟩

def twoBranches : RowIndex where
  rows := OrderedMap.ofList [
    ("M", [{ path := "M", start := 1, ended := some 3 }, { path := "M", start := 3 }]),
    ("M_A", [{ path := "M/A", start := 2 }])]

/--
Rows of both branches in no order, two of them for the slot of the current row of `M`.
-/
def mixedBatch : List BranchRow := [
  { path := "M/A", start := 5 }, { path := "M", start := 3, head := 6 },
  { path := "M", start := 2 }, { path := "M", start := 3, head := 7 }]

theorem batch_exact_mixed :
    twoBranches.Sorted ∧ (twoBranches.apply mixedBatch).Sorted ∧
      (twoBranches.apply mixedBatch).stored? ("M", 3) = some { path := "M", start := 3, head := 7 } ∧
      (twoBranches.apply mixedBatch).stored? ("M", 1) =
        some { path := "M", start := 1, ended := some 3 } ∧
      (twoBranches.apply mixedBatch).stored? ("M_A", 4) = none ∧
      ((mixedBatch.take 3).map BranchRow.slot).Nodup ∧
      (mixedBatch.take 3).reverse.Perm (mixedBatch.take 3) ∧
      twoBranches.apply (mixedBatch.take 3).reverse = twoBranches.apply (mixedBatch.take 3) := by
  have sorted : twoBranches.Sorted := by decide +kernel
  have distinct : ((mixedBatch.take 3).map BranchRow.slot).Nodup := by decide +kernel
  have perm : (mixedBatch.take 3).reverse.Perm (mixedBatch.take 3) := List.reverse_perm _
  obtain ⟨after, found, -⟩ := batch_exact sorted mixedBatch
  obtain ⟨-, -, order⟩ := batch_exact sorted (mixedBatch.take 3)
  refine ⟨sorted, after, ?_, ?_, ?_, distinct, perm, order distinct _ perm⟩
  · rw [found]
    decide +kernel
  · rw [found]
    decide +kernel
  · rw [found]
    decide +kernel

end RowIndex

end TemporalStore
