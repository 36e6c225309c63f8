import Mathlib.Data.List.Infix
import TemporalStore.Proofs.Timeline.Lookup

/-!
This module contains the past of a branch: its rows apart from the current one. Whatever changes the
current row leaves the past as it is, or adds that row to it.
-/

namespace TemporalStore.RowIndex

def closedRows (index : RowIndex) (path : String) : List BranchRow :=
  (index.timeline path).filter fun row => !row.isCurrent

/--
All rows of a branch but the last one.
-/
def past (index : RowIndex) (path : String) : List BranchRow := (index.timeline path).dropLast

/--
Nothing but searching the rows of the branch.
-/
def search (index : RowIndex) (path : String) (t : Timepoint) : Except StoreError BranchRow := do
  match ← index.atTimepoint path t with
  | some row => return row
  | none => throw (.branchNotFoundAt path t)

variable {index : RowIndex} {now : Timepoint} {path : String} {row : BranchRow}

theorem Valid.closedRows_eq (h : index.Valid now) (path : String) :
    index.closedRows path = index.past path := by
  unfold closedRows past
  cases last : index.last? path with
  | none =>
    rw [last?_eq_none_iff] at last
    rw [last]
    rfl
  | some row =>
    obtain ⟨closed, hc⟩ := eq_append_of_last? last
    have tiles := h.tiles path
    rw [hc] at tiles ⊢
    have ended : row.isCurrent = true := by simp [BranchRow.isCurrent, tiles.ended_of_append]
    have kept : closed.filter (fun row => !row.isCurrent) = closed := by
      rw [List.filter_eq_self]
      intro r mem
      obtain ⟨-, e, closedAt, -⟩ := tiles.closed_of_append r mem
      simp [BranchRow.isCurrent, closedAt]
    rw [List.dropLast_concat, List.filter_append, kept]
    simp [ended]

theorem Valid.search_eq (h : index.Valid now) (path : String) (t : Timepoint) :
    index.search path t = match index.covering? path t with
      | some row => .ok row
      | none => .error (.branchNotFoundAt path t) := by
  unfold search
  rw [h.atTimepoint_eq]
  cases index.covering? path t with
  | some row => rfl
  | none => rfl

/-! ## After a change -/

theorem past_put (index : RowIndex) (path q : String) (rows : List BranchRow) :
    (index.put path rows).past q =
      if Path.flatten q = Path.flatten path then rows.dropLast else index.past q := by
  unfold past
  rw [timeline_put]
  split <;> rfl

theorem past_prefix_put {rows : List BranchRow} (kept : index.past path <+: rows.dropLast)
    (q : String) : index.past q <+: (index.put path rows).past q := by
  rw [past_put]
  split
  · rename_i same
    have here : index.past q = index.past path := by
      unfold past timeline
      rw [same]
    rw [here]
    exact kept
  · exact List.prefix_refl _

theorem past_prefix_begin (absent : index.last? path = none) (row : BranchRow) (q : String) :
    index.past q <+: (index.put path [row]).past q := by
  apply past_prefix_put
  unfold past
  rw [last?_eq_none_iff.1 absent]
  exact List.prefix_refl _

theorem past_prefix_setLocked (index : RowIndex) (path : String) (locked : Bool) (q : String) :
    index.past q <+: (index.setLocked path locked).past q := by
  cases last : index.last? path with
  | none =>
    rw [setLocked_of_last?_eq_none last]
  | some row =>
    rw [setLocked_of_last? last]
    apply past_prefix_put
    rw [List.dropLast_concat]
    exact List.prefix_refl _

theorem past_prefix_advance (index : RowIndex) (path : String) (closed new : BranchRow)
    (q : String) : index.past q <+: (index.advance path closed new).past q := by
  apply past_prefix_put
  change _ <+: ((index.timeline path).dropLast ++ ([closed] ++ [new])).dropLast
  rw [← List.append_assoc, List.dropLast_concat]
  exact List.prefix_append _ _

end TemporalStore.RowIndex
