import TemporalStore.Timeline.Row
import Mathlib.Data.List.Chain

/-!
This module contains what it means that the rows of a branch tile the time since its beginning:
every row ends where the next one starts, and only the last one has no end.
-/

namespace TemporalStore.Timeline

/--
Closed rows are history, which nobody holds.
-/
def Tiles : List BranchRow → Prop
  | [] => True
  | [row] => row.ended = none
  | row :: next :: rows =>
    row.ended = some next.start ∧ row.start < next.start ∧ row.locked = false ∧
      Tiles (next :: rows)

namespace Tiles

theorem tail {row : BranchRow} {rows : List BranchRow} (h : Tiles (row :: rows)) : Tiles rows := by
  cases rows with
  | nil => exact trivial
  | cons next rows => exact h.2.2.2

theorem start_lt {row : BranchRow} {rows : List BranchRow} (h : Tiles (row :: rows)) :
    ∀ r ∈ rows, row.start < r.start := by
  induction rows generalizing row with
  | nil => simp
  | cons next rows ih =>
    intro r hr
    have first := h.2.1
    rcases List.mem_cons.1 hr with rfl | hr
    · exact first
    · have := ih h.tail r hr
      lia

theorem pairwise_start {rows : List BranchRow} (h : Tiles rows) :
    rows.Pairwise fun a b => a.start < b.start := by
  induction rows with
  | nil => exact .nil
  | cons row rows ih =>
    rw [List.pairwise_cons]
    exact ⟨h.start_lt, ih h.tail⟩

theorem isChain {rows : List BranchRow} (h : Tiles rows) :
    rows.IsChain fun a b => a.ended = some b.start := by
  induction rows with
  | nil => simp
  | cons row rows ih =>
    cases rows with
    | nil => simp
    | cons next rows =>
      rw [List.isChain_cons_cons]
      exact ⟨h.1, ih h.tail⟩

theorem ended_of_append {closed : List BranchRow} {row : BranchRow}
    (h : Tiles (closed ++ [row])) : row.ended = none := by
  induction closed with
  | nil => exact h
  | cons r closed ih => exact ih h.tail

theorem closed_of_append {closed : List BranchRow} {row : BranchRow}
    (h : Tiles (closed ++ [row])) :
    ∀ r ∈ closed, r.locked = false ∧ ∃ e, r.ended = some e ∧ r.start < e ∧ e ≤ row.start := by
  induction closed with
  | nil => simp
  | cons r closed ih =>
    intro r' hr'
    rcases List.mem_cons.1 hr' with rfl | hr'
    · cases closed with
      | nil => exact ⟨h.2.2.1, row.start, h.1, h.2.1, Int.le_refl _⟩
      | cons next closed =>
        have last := h.tail.start_lt row (by simp)
        exact ⟨h.2.2.1, next.start, h.1, h.2.1, by lia⟩
    · exact ih h.tail r' hr'

theorem replace_last {closed : List BranchRow} {row row' : BranchRow}
    (h : Tiles (closed ++ [row])) (start : row'.start = row.start) (ended : row'.ended = none) :
    Tiles (closed ++ [row']) := by
  induction closed with
  | nil => exact ended
  | cons r closed ih =>
    cases closed with
    | nil =>
      refine ⟨?_, ?_, h.2.2.1, ended⟩
      · rw [start]
        exact h.1
      · rw [start]
        exact h.2.1
    | cons next closed => exact ⟨h.1, h.2.1, h.2.2.1, ih h.tail⟩

theorem split_last {closed : List BranchRow} {row new : BranchRow}
    (h : Tiles (closed ++ [row])) (start : row.start < new.start) (ended : new.ended = none) :
    Tiles (closed ++ [row.close new.start, new]) := by
  induction closed with
  | nil => exact ⟨rfl, start, rfl, ended⟩
  | cons r closed ih =>
    cases closed with
    | nil => exact ⟨h.1, h.2.1, h.2.2.1, ih h.tail⟩
    | cons next closed => exact ⟨h.1, h.2.1, h.2.2.1, ih h.tail⟩

/-! ## Which rows are found -/

theorem filter_isCurrent {closed : List BranchRow} {row : BranchRow}
    (h : Tiles (closed ++ [row])) :
    (closed ++ [row]).filter BranchRow.isCurrent = [row] := by
  have past : closed.filter BranchRow.isCurrent = [] := by
    rw [List.filter_eq_nil_iff]
    intro r hr
    obtain ⟨-, e, he, -⟩ := h.closed_of_append r hr
    simp [BranchRow.isCurrent, he]
  rw [List.filter_append, past]
  simp [BranchRow.isCurrent, h.ended_of_append]

theorem filter_covers_eq_nil {first : BranchRow} {rows : List BranchRow} {t : Timepoint}
    (h : Tiles (first :: rows)) (ht : t < first.start) :
    (first :: rows).filter (·.covers t) = [] := by
  rw [List.filter_eq_nil_iff]
  intro r hr
  have : first.start ≤ r.start := by
    rcases List.mem_cons.1 hr with rfl | hr
    · exact Int.le_refl _
    · exact Int.le_of_lt (h.start_lt r hr)
  simp only [BranchRow.covers, Bool.and_eq_true, decide_eq_true_eq, not_and]
  lia

theorem exists_filter_covers {first : BranchRow} {rows : List BranchRow} {t : Timepoint}
    (h : Tiles (first :: rows)) (ht : first.start ≤ t) :
    ∃ row ∈ first :: rows, row.covers t ∧ (first :: rows).filter (·.covers t) = [row] := by
  induction rows generalizing first with
  | nil =>
    have covers : first.covers t := by
      have ended : first.ended = none := h
      simp [BranchRow.covers, ht, ended]
    exact ⟨first, List.mem_singleton_self _, covers, by simp [covers]⟩
  | cons next rows ih =>
    have ended : first.ended = some next.start := h.1
    by_cases hn : t < next.start
    · have covers : first.covers t := by simp [BranchRow.covers, ht, ended, hn]
      refine ⟨first, List.mem_cons_self, covers, ?_⟩
      rw [List.filter_cons_of_pos (by exact covers), h.tail.filter_covers_eq_nil hn]
    · obtain ⟨row, mem, covers, found⟩ := ih h.tail (by lia)
      refine ⟨row, List.mem_cons_of_mem _ mem, covers, ?_⟩
      rw [List.filter_cons_of_neg]
      · exact found
      · simp only [BranchRow.covers, ended, Option.all_some, Bool.and_eq_true, decide_eq_true_eq]
        lia

theorem eq_of_covers {first : BranchRow} {rows : List BranchRow} {a b : BranchRow} {t : Timepoint}
    (h : Tiles (first :: rows)) (ha : a ∈ first :: rows) (hb : b ∈ first :: rows)
    (hat : a.covers t) (hbt : b.covers t) : a = b := by
  have ht : first.start ≤ t := by
    by_contra early
    have := h.filter_covers_eq_nil (t := t) (by lia)
    rw [List.filter_eq_nil_iff] at this
    exact this a ha hat
  obtain ⟨row, -, -, found⟩ := h.exists_filter_covers ht
  have ha' : a ∈ (first :: rows).filter (·.covers t) := List.mem_filter.2 ⟨ha, hat⟩
  have hb' : b ∈ (first :: rows).filter (·.covers t) := List.mem_filter.2 ⟨hb, hbt⟩
  rw [found, List.mem_singleton] at ha' hb'
  rw [ha', hb']

end Tiles

end TemporalStore.Timeline
