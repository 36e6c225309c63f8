import TemporalStore.Directory.Basic

/-!
This module contains what can be asked of a directory.
-/

namespace TemporalStore.Directory

/--
The current row of a branch with the head of its parent. A branch whose parent has no current row
is a contradiction; the root has no parent.
-/
def latestWithParentHead? (path : String) : DirectoryM (Option (BranchRow × Option Timepoint)) := do
  match ← current path with
  | none => return none
  | some row =>
    match Path.parent? path with
    | none => return some (row, none)
    | some parent =>
      match ← current parent with
      | some parentRow => return some (row, some parentRow.head)
      | none => checked (.error (.dataIntegrity s!"Parent branch of {path} not found."))

def latest? (path : String) : DirectoryM (Option BranchRow) := do
  return (← latestWithParentHead? path).map (·.1)

def latestWithStanding? (path : String) : DirectoryM (Option (BranchRow × Standing)) := do
  return (← latestWithParentHead? path).map fun (row, parentHead) =>
    (row, row.standing parentHead)

def latest (path : String) : DirectoryM BranchRow := do
  match ← latest? path with
  | some row => return row
  | none => throw (.branchNotFound path)

def hasBranch (path : String) : DirectoryM Bool := do
  return (← current path).isSome

def fromHistory? (key : String × Timepoint) : DirectoryM (Option BranchRow) := do
  let site ← get
  let (row, history) := site.directory.history.lookup key
  set { site with directory := { site.directory with history } }
  return row

def addToHistory (key : String × Timepoint) (row : BranchRow) : DirectoryM Unit :=
  modify fun site => { site with
    directory := { site.directory with history := site.directory.history.put key row } }

/--
The row of a branch that was valid at `t`. Closed rows are kept at hand, because they never
change again.
-/
def rowAt (path : String) (t : Timepoint) : DirectoryM BranchRow := do
  let key := (Path.flatten path, t)
  match ← fromHistory? key with
  | some row => return row
  | none =>
    match ← checked ((← get).directory.index.atTimepoint path t) with
    | none => throw (.branchNotFoundAt path t)
    | some row =>
      -- the current row may still be locked, unlocked or closed
      unless row.isCurrent do
        addToHistory key row
      return row

/--
Whether a branch still has the base and the head that it had when someone looked.
-/
def isUnchanged (path : String) (base head : Timepoint) : DirectoryM Bool := do
  let row ← latest path
  return row.base = base && row.head = head

def branches (directory : Directory) : List BranchRow :=
  sortByKey BranchRow.path directory.index.currentRows

def descendants (directory : Directory) (path : String) : List BranchRow :=
  sortByKey BranchRow.path (directory.index.currentRows.filter (Path.isDescendant path ·.path))

def rowCount (directory : Directory) : Nat := directory.index.rowCount

def timeline (directory : Directory) (path : String) : List BranchRow :=
  directory.index.timeline path

end TemporalStore.Directory
