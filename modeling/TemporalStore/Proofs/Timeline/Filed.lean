import TemporalStore.Proofs.Ordered
import TemporalStore.Timeline.Index

/-!
This module contains what holds of an index whatever the paths of its rows are: that rows are filed
under their flat paths, and that no two rows of one list start at the same time.
-/

namespace TemporalStore.RowIndex

/--
Rows are found under their flat paths, where they differ by their starts, and `named` holds of the
path of each.
-/
structure Filed (index : RowIndex) (named : String → Prop) : Prop where
  keys : ∀ key rows, index.rows.get? key = some rows → ∀ row ∈ rows, row.flatPath = key
  starts : ∀ key rows, index.rows.get? key = some rows → (rows.map BranchRow.start).Nodup
  named : ∀ key rows, index.rows.get? key = some rows → ∀ row ∈ rows, named row.path

/-! ## One list of rows -/

section

variable {row old r : BranchRow} {rows : List BranchRow}

theorem starts_replaceFirst :
    (upsertRow.replaceFirst row rows).map BranchRow.start = rows.map BranchRow.start := by
  induction rows with
  | nil => rfl
  | cons r rows ih =>
    unfold upsertRow.replaceFirst
    split
    · rename_i same
      simp [same]
    · simp [ih]

theorem mem_replaceFirst (mem : r ∈ upsertRow.replaceFirst row rows) : r = row ∨ r ∈ rows := by
  induction rows with
  | nil => simp [upsertRow.replaceFirst] at mem
  | cons r' rows ih =>
    unfold upsertRow.replaceFirst at mem
    split at mem
    · rcases List.mem_cons.1 mem with rfl | mem
      · exact .inl rfl
      · exact .inr (List.mem_cons_of_mem _ mem)
    · rcases List.mem_cons.1 mem with rfl | mem
      · exact .inr List.mem_cons_self
      · rcases ih mem with same | mem
        · exact .inl same
        · exact .inr (List.mem_cons_of_mem _ mem)

theorem self_mem_replaceFirst (there : ∃ r ∈ rows, r.start = row.start) :
    row ∈ upsertRow.replaceFirst row rows := by
  induction rows with
  | nil => simp at there
  | cons r' rows ih =>
    unfold upsertRow.replaceFirst
    split
    · exact List.mem_cons_self
    · rename_i other
      obtain ⟨r, mem, same⟩ := there
      rcases List.mem_cons.1 mem with rfl | mem
      · exact absurd same other
      · exact List.mem_cons_of_mem _ (ih ⟨r, mem, same⟩)

theorem any_start_iff :
    rows.any (·.start = row.start) = true ↔ ∃ r ∈ rows, r.start = row.start := by
  simp

theorem mem_upsertRow (mem : r ∈ upsertRow row rows) : r = row ∨ r ∈ rows := by
  unfold upsertRow at mem
  split at mem
  · exact mem_replaceFirst mem
  · rw [mem_sortByKey, List.mem_append, List.mem_singleton] at mem
    exact mem.symm

theorem self_mem_upsertRow : row ∈ upsertRow row rows := by
  unfold upsertRow
  split
  · rename_i there
    exact self_mem_replaceFirst (any_start_iff.1 there)
  · rw [mem_sortByKey]
    exact List.mem_append_right _ (List.mem_singleton_self row)

theorem nodup_starts_upsertRow (distinct : (rows.map BranchRow.start).Nodup) :
    ((upsertRow row rows).map BranchRow.start).Nodup := by
  unfold upsertRow
  split
  · rw [starts_replaceFirst]
    exact distinct
  · rename_i absent
    rw [any_start_iff] at absent
    have sorted := (perm_sortByKey BranchRow.start (rows ++ [row])).map BranchRow.start
    rw [sorted.nodup_iff, List.map_append, List.nodup_append]
    refine ⟨distinct, by simp, ?_⟩
    intro t ht u hu
    obtain ⟨r, mem, rfl⟩ := List.mem_map.1 ht
    simp only [List.map_cons, List.map_nil, List.mem_singleton] at hu
    rw [hu]
    exact fun same => absent ⟨r, mem, same⟩

/--
Where the current row is replaced by one that starts with it and is current too, that one is the
only current row.
-/
theorem filter_isCurrent_upsertRow (distinct : (rows.map BranchRow.start).Nodup)
    (only : rows.filter BranchRow.isCurrent = [old]) (start : row.start = old.start)
    (current : row.isCurrent) : (upsertRow row rows).filter BranchRow.isCurrent = [row] := by
  have there : ∃ r ∈ rows, r.start = row.start := by
    have mem : old ∈ rows.filter BranchRow.isCurrent := by simp [only]
    exact ⟨old, (List.mem_filter.1 mem).1, start.symm⟩
  unfold upsertRow
  rw [if_pos (any_start_iff.2 there)]
  clear there
  induction rows with
  | nil => simp at only
  | cons r rows ih =>
    rw [List.map_cons, List.nodup_cons] at distinct
    unfold upsertRow.replaceFirst
    by_cases here : r.isCurrent
    · rw [List.filter_cons_of_pos here, List.cons.injEq] at only
      obtain ⟨rfl, rest⟩ := only
      rw [if_pos start.symm, List.filter_cons_of_pos current, rest]
    · rw [List.filter_cons_of_neg here] at only
      -- the row that is replaced comes later, and so it is not this one
      have other : r.start ≠ row.start := by
        have mem : old ∈ rows.filter BranchRow.isCurrent := by simp [only]
        intro same
        apply distinct.1
        rw [same, start]
        exact List.mem_map_of_mem (List.mem_filter.1 mem).1
      rw [if_neg other, List.filter_cons_of_neg here]
      exact ih distinct.2 only

end

/-! ## The whole index -/

section

variable {index : RowIndex} {named named' : String → Prop} {row : BranchRow} {path q : String}
  {batch : List BranchRow}

theorem filed_empty : Filed {} named where
  keys := by simp
  starts := by simp
  named := by simp

theorem Filed.mono (h : index.Filed named) (weaker : ∀ path, named path → named' path) :
    index.Filed named' where
  keys := h.keys
  starts := h.starts
  named key rows found row mem := weaker _ (h.named key rows found row mem)

theorem get?_of_mem_timeline (mem : row ∈ index.timeline path) :
    index.rows.get? (Path.flatten path) = some (index.timeline path) := by
  unfold timeline at mem ⊢
  cases found : index.rows.get? (Path.flatten path) with
  | none => simp [found] at mem
  | some rows => rfl

theorem Filed.flatten_eq (h : index.Filed named) (mem : row ∈ index.timeline path) :
    Path.flatten row.path = Path.flatten path :=
  h.keys _ _ (get?_of_mem_timeline mem) row mem

theorem Filed.named_of_mem (h : index.Filed named) (mem : row ∈ index.timeline path) :
    named row.path :=
  h.named _ _ (get?_of_mem_timeline mem) row mem

theorem Filed.distinct (h : index.Filed named) (path : String) :
    ((index.timeline path).map BranchRow.start).Nodup := by
  cases rows : index.timeline path with
  | nil => simp
  | cons row others =>
    have found := @get?_of_mem_timeline index row path (by simp [rows])
    rw [rows] at found
    exact h.starts _ _ found

theorem timeline_congr (same : Path.flatten q = Path.flatten path) :
    index.timeline q = index.timeline path := by
  unfold timeline
  rw [same]

theorem Filed.upsert (h : index.Filed named) (hr : named row.path) :
    (index.upsert row).Filed named := by
  have cases_get? : ∀ key rows, (index.upsert row).rows.get? key = some rows →
      (key = row.flatPath ∧ rows = upsertRow row (index.timeline row.path)) ∨
        index.rows.get? key = some rows := by
    intro key rows found
    unfold RowIndex.upsert at found
    rcases OrderedMap.get?_insert_eq_some_iff.1 found with ⟨here, rfl⟩ | ⟨-, found⟩
    · exact .inl ⟨here, rfl⟩
    · exact .inr found
  constructor
  · intro key rows found r mem
    rcases cases_get? key rows found with ⟨rfl, rfl⟩ | found
    · rcases mem_upsertRow mem with rfl | mem
      · rfl
      · exact h.flatten_eq mem
    · exact h.keys key rows found r mem
  · intro key rows found
    rcases cases_get? key rows found with ⟨rfl, rfl⟩ | found
    · exact nodup_starts_upsertRow (h.distinct row.path)
    · exact h.starts key rows found
  · intro key rows found r mem
    rcases cases_get? key rows found with ⟨rfl, rfl⟩ | found
    · rcases mem_upsertRow mem with rfl | mem
      · exact hr
      · exact h.named_of_mem mem
    · exact h.named key rows found r mem

theorem Filed.apply (h : index.Filed named) (hb : ∀ row ∈ batch, named row.path) :
    (index.apply batch).Filed named := by
  induction batch generalizing index with
  | nil => exact h
  | cons row batch ih =>
    rw [List.forall_mem_cons] at hb
    exact ih (h.upsert hb.1) hb.2

theorem mem_timeline_apply_concat : row ∈ (index.apply (batch ++ [row])).timeline row.path := by
  have here : Path.flatten row.path = row.flatPath := rfl
  unfold RowIndex.apply
  rw [List.foldl_append, List.foldl_cons, List.foldl_nil, timeline_upsert, if_pos here]
  exact self_mem_upsertRow

/-! ## The current row -/

theorem current_eq_some_iff :
    index.current path = .ok (some row) ↔
      (index.timeline path).filter BranchRow.isCurrent = [row] := by
  unfold current
  cases (index.timeline path).filter BranchRow.isCurrent with
  | nil => simp [atMostOne?]
  | cons r others =>
    cases others with
    | nil => simp [atMostOne?]
    | cons r' others => simp [atMostOne?]

theorem mem_of_current (there : index.current path = .ok (some row)) :
    row ∈ index.timeline path ∧ row.isCurrent := by
  rw [current_eq_some_iff] at there
  have mem : row ∈ (index.timeline path).filter BranchRow.isCurrent := by simp [there]
  exact List.mem_filter.1 mem

/--
Whatever path is used for a branch, its current row is the one that has been put in place of the
last.
-/
theorem Filed.current_upsert {row' : BranchRow} (h : index.Filed named)
    (there : index.current path = .ok (some row)) (samePath : row'.path = row.path)
    (start : row'.start = row.start) (current : row'.isCurrent)
    (same : Path.flatten q = Path.flatten path) :
    (index.upsert row').current q = .ok (some row') := by
  have flat := h.flatten_eq (mem_of_current there).1
  rw [current_eq_some_iff] at there ⊢
  have here : Path.flatten q = row'.flatPath := by
    unfold BranchRow.flatPath
    rw [samePath, flat, same]
  rw [timeline_upsert, if_pos here, samePath, timeline_congr flat]
  exact filter_isCurrent_upsertRow (h.distinct path) there start current

end

end TemporalStore.RowIndex
