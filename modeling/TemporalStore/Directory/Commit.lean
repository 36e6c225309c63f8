import TemporalStore.Directory.Lock
import TemporalStore.Timeline.Commit

/-!
This module contains the life of a commit: it is opened, which locks the branch and fixes the
timepoint, and it is completed, which closes the current row at that timepoint and starts the
next.
-/

namespace TemporalStore.Directory

/--
Opens a commit. A rebase moves the base of the branch to the present head of its parent; if the
parent cannot be found, the branch is unlocked again.
-/
def openCommit (path : String) (kind : CommitKind) : DirectoryM Commit := do
  let t ← tick
  let row ← lock path
  let base ← rebased row t
  setOpenCommits ((← get).directory.openCommits.insert path t)
  return { branch := { row with base }, timepoint := t, kind }
where
  rebased (row : BranchRow) (t : Timepoint) : DirectoryM Timepoint := do
    match kind, Path.parent? path with
    | .rebase, some parent =>
      try
        return (← rowAt parent t).head
      catch e =>
        releaseAnnounced path
        throw e
    | _, _ => return row.base

/--
Opens a commit that receives the content of `source`. Both branches are locked until it is
completed; if the source cannot be, neither is.
-/
def openPromotion (path source : String) : DirectoryM Commit := do
  if path = source then
    throw (.commitState s!"Branch {path} cannot be promoted into itself")
  let t ← tick
  let row ← lock path
  try
    discard (lock source)
  catch e =>
    releaseAnnounced path
    throw e
  setOpenCommits (((← get).directory.openCommits.insert path t).insert source t)
  return { branch := row, timepoint := t, kind := .promotion, source := some source }

/--
The row that a commit puts in place of the closed one. It hides what was hidden, what the commit
has hidden, and what was hidden on the source of a promotion.
-/
def nextRow (commit : Commit) (closed : BranchRow) (source : Option BranchRow) : BranchRow :=
  { BranchRow.fresh commit.branchPath commit.branch.base commit.timepoint with
    replaced := closed.replaced ∪ commit.replaced ∪ source.elim ∅ BranchRow.replaced
    containsContent := commit.kind ≠ .rebase || closed.containsContent }

/--
The current row of the branch of a commit, which has to be the one that the commit has locked.
-/
def heldRow (commit : Commit) : DirectoryM BranchRow := do
  match ← current commit.branchPath with
  | none => throw (.commitState s!"Branch {commit.branchPath} has no current row")
  | some row =>
    unless row.locked ∧ row.start = commit.branch.start do
      throw (.commitState s!"Branch {commit.branchPath} is not locked by this commit")
    return row

/--
The current row of the source of a promotion, which has to be held by the promotion.
-/
def heldSource (commit : Commit) (source : String) : DirectoryM BranchRow := do
  match ← current source with
  | none => throw (.branchNotFound source)
  | some row =>
    unless row.locked ∧ (← get).directory.openCommits.get? source = some commit.timepoint do
      throw (.commitState s!"Source branch {source} is not locked by this promotion")
    return row

/--
Completes a commit and gives the new current row of its branch. A promotion also closes the row
of its source, which starts anew with nothing hidden, since its content is inherited from now on.
All rows are written in one batch.
-/
def complete (commit : Commit) : DirectoryM BranchRow := do
  let path := commit.branchPath
  let t := commit.timepoint
  unless (← get).directory.openCommits.get? path = some t do
    throw (.commitState s!"Commit {t} on branch {path} is not open")
  if commit.kind = .promotion ∧ commit.source = none then
    throw (.commitState "The source branch path must be set for a commit of type Promotion")
  -- every check comes before the only write, so a refused commit leaves all rows alone
  let closed := (← heldRow commit).close t
  let (row, batch) ← match commit.source with
    | none =>
      let row := nextRow commit closed none
      pure (row, [closed, row])
    | some source => do
      let closedSource := (← heldSource commit source).close t
      let row := nextRow commit closed (some closedSource)
      pure (row, [closed, row, closedSource, BranchRow.fresh source t t])
  writeRows batch
  let openCommits := (← get).directory.openCommits.erase path
  setOpenCommits (commit.source.elim openCommits openCommits.erase)
  announce (.completed path t commit.kind commit.source)
  return row

end TemporalStore.Directory
