import TemporalStore.Proofs.Timeline.Lookup

/-!
This module contains which rows are there after a change: those that were there before, apart from
their ends and their locks, and the one that is new. None is lost.
-/

namespace TemporalStore

/--
The row apart from its end and its lock, which are all that ever changes about a stored row.
-/
def BranchRow.core (row : BranchRow) : BranchRow := { row with ended := none, locked := false }

theorem BranchRow.core_eq_iff {row row' : BranchRow} :
    row.core = row'.core ↔ row.path = row'.path ∧ row.base = row'.base ∧ row.start = row'.start ∧
      row.head = row'.head ∧ row.containsContent = row'.containsContent ∧
        row.replaced = row'.replaced := by
  unfold core
  simp

namespace RowIndex

/--
The branch has a row that, apart from its end and its lock, is the given one.
-/
def Stores (index : RowIndex) (path : String) (core : BranchRow) : Prop :=
  ∃ row ∈ index.timeline path, row.core = core

variable {index : RowIndex} {path q : String} {row new core : BranchRow} {t : Timepoint}

theorem stores_of_mem (mem : row ∈ index.timeline path) : index.Stores path row.core :=
  ⟨row, mem, rfl⟩

theorem stores_of_last? (last : index.last? path = some row) : index.Stores path row.core := by
  obtain ⟨closed, hc⟩ := eq_append_of_last? last
  exact stores_of_mem (by simp [hc])

theorem stores_put {rows : List BranchRow} (hp : Path.Valid path) (hq : Path.Valid q)
    (h : (index.put path rows).Stores q core) :
    index.Stores q core ∨ q = path ∧ ∃ row ∈ rows, row.core = core := by
  obtain ⟨row, mem, same⟩ := h
  by_cases here : q = path
  · rw [here, timeline_put_self] at mem
    exact .inr ⟨here, row, mem, same⟩
  · rw [timeline_put_of_ne index rows hp hq here] at mem
    exact .inl ⟨row, mem, same⟩

theorem stores_setLocked {locked : Bool} (hp : Path.Valid path) (hq : Path.Valid q)
    (h : (index.setLocked path locked).Stores q core) : index.Stores q core := by
  cases last : index.last? path with
  | none =>
    rw [setLocked_of_last?_eq_none last] at h
    exact h
  | some row =>
    obtain ⟨closed, hc⟩ := eq_append_of_last? last
    have current := stores_of_last? last
    rw [setLocked_of_last? last] at h
    unfold replaceLast at h
    rw [hc, List.dropLast_concat] at h
    rcases stores_put hp hq h with stored | ⟨rfl, r, mem, rfl⟩
    · exact stored
    · rcases List.mem_append.1 mem with mem | same
      · exact stores_of_mem (by simp [hc, mem])
      · rw [List.mem_singleton.1 same]
        exact current

theorem stores_advance (hp : Path.Valid path) (hq : Path.Valid q)
    (last : index.last? path = some row)
    (h : (index.advance path (row.close t) new).Stores q core) :
    index.Stores q core ∨ q = path ∧ core = new.core := by
  obtain ⟨closed, hc⟩ := eq_append_of_last? last
  have current := stores_of_last? last
  unfold advance at h
  rw [hc, List.dropLast_concat] at h
  rcases stores_put hp hq h with stored | ⟨rfl, r, mem, rfl⟩
  · exact .inl stored
  · simp only [List.mem_append, List.mem_cons, List.not_mem_nil, or_false] at mem
    rcases mem with mem | same | same
    · exact .inl (stores_of_mem (by simp [hc, mem]))
    · rw [same]
      exact .inl current
    · rw [same]
      exact .inr ⟨rfl, rfl⟩

/--
The current row of a branch is the latest of all that are stored.
-/
theorem Valid.exists_last {now : Timepoint} (h : index.Valid now)
    (mem : row ∈ index.timeline path) :
    ∃ last, index.last? path = some last ∧ row.start ≤ last.start := by
  have isLast := List.getLast?_eq_some_getLast (List.ne_nil_of_mem mem)
  refine ⟨_, isLast, ?_⟩
  obtain ⟨closed, hc⟩ := eq_append_of_last? isLast
  have sorted := (h.tiles path).pairwise_start
  generalize (index.timeline path).getLast _ = last at hc ⊢
  rw [hc] at sorted mem
  obtain ⟨-, -, before⟩ := List.pairwise_append.1 sorted
  rcases List.mem_append.1 mem with mem | mem
  · exact Int.le_of_lt (before row mem last (List.mem_singleton_self _))
  · rw [List.mem_singleton.1 mem]

namespace Stores

theorem put {rows : List BranchRow} (h : index.Stores q core) (hp : Path.Valid path)
    (hq : Path.Valid q)
    (kept : ∀ row ∈ index.timeline path, ∃ row' ∈ rows, row'.core = row.core) :
    (index.put path rows).Stores q core := by
  obtain ⟨row, mem, rfl⟩ := h
  unfold Stores
  by_cases here : q = path
  · rw [here] at mem ⊢
    rw [timeline_put_self]
    exact kept row mem
  · rw [timeline_put_of_ne index rows hp hq here]
    exact ⟨row, mem, rfl⟩

theorem put_singleton (h : index.Stores q core) (hp : Path.Valid path) (hq : Path.Valid q)
    (absent : index.last? path = none) (row : BranchRow) :
    (index.put path [row]).Stores q core := by
  apply h.put hp hq
  rw [last?_eq_none_iff.1 absent]
  simp

theorem setLocked (h : index.Stores q core) (hp : Path.Valid path) (hq : Path.Valid q)
    (locked : Bool) : (index.setLocked path locked).Stores q core := by
  cases last : index.last? path with
  | none =>
    rw [setLocked_of_last?_eq_none last]
    exact h
  | some row =>
    obtain ⟨closed, hc⟩ := eq_append_of_last? last
    rw [setLocked_of_last? last]
    unfold replaceLast
    apply h.put hp hq
    rw [hc, List.dropLast_concat]
    intro r mem
    rcases List.mem_append.1 mem with mem | mem
    · exact ⟨r, by simp [mem], rfl⟩
    · rw [List.mem_singleton.1 mem]
      exact ⟨_, List.mem_append_right _ (List.mem_singleton_self _), rfl⟩

theorem advance (h : index.Stores q core) (hp : Path.Valid path) (hq : Path.Valid q)
    (last : index.last? path = some row) (t : Timepoint) (new : BranchRow) :
    (index.advance path (row.close t) new).Stores q core := by
  obtain ⟨closed, hc⟩ := eq_append_of_last? last
  unfold RowIndex.advance
  apply h.put hp hq
  rw [hc, List.dropLast_concat]
  intro r mem
  rcases List.mem_append.1 mem with mem | mem
  · exact ⟨r, by simp [mem], rfl⟩
  · rw [List.mem_singleton.1 mem]
    exact ⟨row.close t, by simp, rfl⟩

end Stores

end RowIndex

end TemporalStore
