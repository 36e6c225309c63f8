import TemporalStore.Proofs.Directory.Basic

/-!
This module contains what is found at a timepoint. The history cache holds closed rows only, and
these stay as they are, so the cache never makes a difference.
-/

namespace TemporalStore

/--
Every closed row of one index is a row of the other.
-/
def RowIndex.KeepsHistory (index index' : RowIndex) : Prop :=
  ∀ key row, row ∈ (index.rows.get? key).getD [] → row.isCurrent = false →
    row ∈ (index'.rows.get? key).getD []

/--
What is in the cache is a closed row of the index, under a timepoint that it covers.
-/
def HistoryCache.Agrees (cache : HistoryCache) (index : RowIndex) : Prop :=
  ∀ key t row, ((key, t), row) ∈ cache.entries →
    row.isCurrent = false ∧ row.covers t ∧ row ∈ (index.rows.get? key).getD []

namespace RowIndex

variable {index : RowIndex} {now : Timepoint} {path : String} {row : BranchRow}

theorem KeepsHistory.refl (index : RowIndex) : index.KeepsHistory index :=
  fun _ _ h _ => h

theorem KeepsHistory.trans {index' index'' : RowIndex} (h : index.KeepsHistory index')
    (h' : index'.KeepsHistory index'') : index.KeepsHistory index'' := by
  intro key row mem closed
  apply h' key row _ closed
  exact h key row mem closed

theorem keepsHistory_put {rows : List BranchRow}
    (h : ∀ row ∈ index.timeline path, row.isCurrent = false → row ∈ rows) :
    index.KeepsHistory (index.put path rows) := by
  intro key row mem closed
  unfold put
  rw [OrderedMap.get?_insert]
  split
  · rename_i he
    have he : key = Path.flatten path := Std.LawfulEqOrd.eq_of_compare he
    rw [he] at mem
    exact h row mem closed
  · exact mem

theorem Valid.keepsHistory_replaceLast (h : index.Valid now) (hl : index.last? path = some row)
    (row' : BranchRow) : index.KeepsHistory (index.replaceLast path row') := by
  apply keepsHistory_put
  obtain ⟨closed, hc⟩ := eq_append_of_last? hl
  intro r mem past
  rw [hc] at mem ⊢
  rw [List.dropLast_concat]
  rcases List.mem_append.1 mem with mem | mem
  · exact List.mem_append_left _ mem
  · rw [List.mem_singleton] at mem
    have current := h.ended_last hl
    simp [BranchRow.isCurrent, mem, current] at past

theorem Valid.keepsHistory_advance (h : index.Valid now) (hl : index.last? path = some row)
    (closed new : BranchRow) : index.KeepsHistory (index.advance path closed new) := by
  apply keepsHistory_put
  obtain ⟨before, hc⟩ := eq_append_of_last? hl
  intro r mem past
  rw [hc] at mem ⊢
  rw [List.dropLast_concat]
  rcases List.mem_append.1 mem with mem | mem
  · exact List.mem_append_left _ mem
  · rw [List.mem_singleton] at mem
    have current := h.ended_last hl
    simp [BranchRow.isCurrent, mem, current] at past

theorem Valid.keepsHistory_setLocked (h : index.Valid now) (path : String) (locked : Bool) :
    index.KeepsHistory (index.setLocked path locked) := by
  cases hl : index.last? path with
  | none =>
    rw [setLocked_of_last?_eq_none hl]
    exact .refl index
  | some row =>
    rw [setLocked_of_last? hl]
    exact h.keepsHistory_replaceLast hl _

theorem keepsHistory_begin (h : index.last? path = none) (rows : List BranchRow) :
    index.KeepsHistory (index.put path rows) := by
  rw [last?_eq_none_iff] at h
  apply keepsHistory_put
  intro r mem
  simp [h] at mem

end RowIndex

namespace HistoryCache

variable {cache : HistoryCache} {index : RowIndex}

theorem agrees_ofSize (size : Nat) (index : RowIndex) : (ofSize size).Agrees index := by
  intro key t row h
  simp [ofSize] at h

theorem agrees_clear (cache : HistoryCache) (index : RowIndex) : cache.clear.Agrees index := by
  intro key t row h
  simp [clear] at h

theorem Agrees.keep {index' : RowIndex} (h : cache.Agrees index)
    (keeps : index.KeepsHistory index') : cache.Agrees index' := by
  intro key t row mem
  obtain ⟨closed, covers, stored⟩ := h key t row mem
  exact ⟨closed, covers, keeps key row stored closed⟩

theorem Agrees.lookup (h : cache.Agrees index) (key : String × Timepoint) :
    (cache.lookup key).2.Agrees index := by
  unfold HistoryCache.lookup
  split
  · exact h
  · rename_i entry he
    intro key' t row mem
    rcases List.mem_cons.1 mem with mem | mem
    · apply h
      rw [mem]
      exact List.mem_of_find?_eq_some he
    · exact h key' t row (List.mem_of_mem_filter mem)

theorem Agrees.put (h : cache.Agrees index) {path : String} {t : Timepoint} {row : BranchRow}
    (closed : row.isCurrent = false) (covers : row.covers t) (stored : row ∈ index.timeline path) :
    (cache.put (Path.flatten path, t) row).Agrees index := by
  intro key t' row' mem
  have mem := List.mem_of_mem_take mem
  rcases List.mem_cons.1 mem with mem | mem
  · simp only [Prod.mk.injEq] at mem
    obtain ⟨⟨rfl, rfl⟩, rfl⟩ := mem
    exact ⟨closed, covers, stored⟩
  · exact h key t' row' (List.mem_of_mem_filter mem)

theorem Agrees.of_lookup (h : cache.Agrees index) {now : Timepoint} (hi : index.Valid now)
    {path : String} {t : Timepoint} {row : BranchRow}
    (found : (cache.lookup (Path.flatten path, t)).1 = some row) :
    index.covering? path t = some row ∧ row.isCurrent = false := by
  unfold HistoryCache.lookup at found
  split at found
  · simp at found
  · rename_i entry he
    have key := List.find?_some he
    have mem := List.mem_of_find?_eq_some he
    obtain ⟨⟨flat, t'⟩, row'⟩ := entry
    simp only [decide_eq_true_eq, Prod.mk.injEq] at key
    simp only [Option.some.injEq] at found
    obtain ⟨rfl, rfl⟩ := key
    rw [found] at mem
    obtain ⟨closed, covers, stored⟩ := h _ _ _ mem
    rw [hi.covering?_eq_some_iff]
    exact ⟨⟨stored, covers⟩, closed⟩

end HistoryCache

namespace Site

def withHistory (site : Site) (history : HistoryCache) : Site :=
  { site with directory := { site.directory with history } }

end Site

namespace Directory

variable {site : Site} {path : String} {now : Timepoint}

/--
Looking up a row by timepoint gives the row that covers it, and changes nothing but the cache.
-/
theorem rowAt_eq (h : site.directory.index.Valid now)
    (agrees : site.directory.history.Agrees site.directory.index) (path : String) (t : Timepoint) :
    ∃ history : HistoryCache, history.Agrees site.directory.index ∧
      rowAt path t site = match site.directory.index.covering? path t with
        | some row => .ok row (site.withHistory history)
        | none => .error (.branchNotFoundAt path t) (site.withHistory history) := by
  have looked : fromHistory? (Path.flatten path, t) site =
      .ok (site.directory.history.lookup (Path.flatten path, t)).1
        (site.withHistory (site.directory.history.lookup (Path.flatten path, t)).2) := rfl
  have kept := agrees.lookup (Path.flatten path, t)
  unfold rowAt
  simp only
  rw [bind_ok looked]
  cases found : (site.directory.history.lookup (Path.flatten path, t)).1 with
  | some row =>
    obtain ⟨covering, -⟩ := agrees.of_lookup h found
    rw [covering]
    exact ⟨_, kept, rfl⟩
  | none =>
    generalize (site.directory.history.lookup (Path.flatten path, t)).2 = history at kept
    have stored : checked ((site.withHistory history).directory.index.atTimepoint path t)
        (site.withHistory history) =
        .ok (site.directory.index.covering? path t) (site.withHistory history) := by
      change checked (site.directory.index.atTimepoint path t) _ = _
      rw [h.atTimepoint_eq]
      rfl
    simp only
    rw [get_bind, bind_ok stored]
    cases covering : site.directory.index.covering? path t with
    | none => exact ⟨history, kept, rfl⟩
    | some row =>
      obtain ⟨mem, covers⟩ := h.covering?_eq_some_iff.1 covering
      cases current : row.isCurrent with
      | true =>
        refine ⟨history, kept, ?_⟩
        simp only [current]
        rfl
      | false =>
        refine ⟨_, kept.put current covers mem, ?_⟩
        simp only [current]
        rfl

end Directory

end TemporalStore
