import TemporalStore.Ordered.Map
import TemporalStore.Ordered.Sort
import TemporalStore.Timeline.Row

/-!
This module contains the index of all rows of all branches. Rows are listed under their flat
path, and a row is identified by that path and its start.
-/

namespace TemporalStore

/--
All rows, grouped by flat path.
-/
structure RowIndex where
  rows : OrderedMap String (List BranchRow) := ∅
  deriving DecidableEq, Inhabited

namespace RowIndex

def timeline (index : RowIndex) (path : String) : List BranchRow :=
  (index.rows.get? (Path.flatten path)).getD []

/--
The one element of a list that has at most one; `none` stands for a list with more.
-/
def atMostOne? {α : Type} : List α → Option (Option α)
  | [] => some none
  | [x] => some (some x)
  | _ :: _ :: _ => none

/--
The row of a branch that has not ended, if there is one. More than one is a contradiction.
-/
def current (index : RowIndex) (path : String) : Except StoreError (Option BranchRow) :=
  match atMostOne? ((index.timeline path).filter BranchRow.isCurrent) with
  | some row => .ok row
  | none => .error <| .dataIntegrity
    s!"There should not be more than one version of branch {path} with no end date."

/--
The row of a branch that is valid at `t`, if there is one. More than one is a contradiction.
-/
def atTimepoint (index : RowIndex) (path : String) (t : Timepoint) :
    Except StoreError (Option BranchRow) :=
  match atMostOne? ((index.timeline path).filter (·.covers t)) with
  | some row => .ok row
  | none => .error <| .dataIntegrity
    s!"There should not be more than one version of branch {path} at timepoint {t}."

def allRows (index : RowIndex) : List BranchRow := index.rows.values.flatten

def currentRows (index : RowIndex) : List BranchRow :=
  index.allRows.filter BranchRow.isCurrent

def rowCount (index : RowIndex) : Nat := index.allRows.length

/--
Replaces the first row that starts when `row` does; without such a row, `row` is added and the
list is brought into the order of the starts.
-/
def upsertRow (row : BranchRow) (rows : List BranchRow) : List BranchRow :=
  if rows.any (·.start = row.start) then
    replaceFirst rows
  else
    sortByKey BranchRow.start (rows ++ [row])
where
  replaceFirst : List BranchRow → List BranchRow
    | [] => []
    | r :: rs => if r.start = row.start then row :: rs else r :: replaceFirst rs

def upsert (index : RowIndex) (row : BranchRow) : RowIndex :=
  ⟨index.rows.insert row.flatPath (upsertRow row (index.timeline row.path))⟩

def apply (index : RowIndex) (batch : List BranchRow) : RowIndex :=
  batch.foldl upsert index

def latestTimepoint (index : RowIndex) : Option Timepoint :=
  (index.allRows.flatMap fun row => row.head :: row.ended.toList).max?

theorem timeline_upsert {index : RowIndex} {row : BranchRow} {path : String} :
    (index.upsert row).timeline path =
      if Path.flatten path = row.flatPath then upsertRow row (index.timeline row.path)
      else index.timeline path := by
  unfold timeline upsert
  simp only [OrderedMap.get?_insert, Std.LawfulEqCmp.compare_eq_iff_eq]
  split
  · rfl
  · rfl

end RowIndex

end TemporalStore
