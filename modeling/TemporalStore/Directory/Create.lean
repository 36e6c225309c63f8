import TemporalStore.Directory.Lookup

/-!
This module contains the beginning and the end of branches.
-/

namespace TemporalStore.Directory

/--
Creates a branch that inherits what its parent has committed so far.
-/
def create (path : String) : DirectoryM BranchRow := do
  checked (Path.validate path)
  let t ← tick
  if (← current path).isSome then
    throw (.branchExists path)
  let base ← inheritedBase t
  let row := BranchRow.fresh path base t
  writeRows [row]
  announce (.created row.path row.base row.head)
  return row
where
  -- the head of the parent; a root is based on itself
  inheritedBase (t : Timepoint) : DirectoryM Timepoint := do
    match Path.parent? path with
    | none => return t
    | some parent =>
      match ← current parent with
      | some row => return row.head
      | none => throw (.parentNotFound parent)

/--
Deletes every row and gives up every open commit.
-/
def purge : DirectoryM Nat := do
  let rows := (← get).directory.rowCount
  persist {}
  modify fun site => { site with
    directory := { site.directory with
      index := {}
      openCommits := ∅
      history := site.directory.history.clear } }
  Host.report (.purged rows)
  announce (.purged rows)
  return rows

end TemporalStore.Directory
