import TemporalStore.Timeline.Row

/-!
This module contains the handles of open commits.
-/

namespace TemporalStore

/--
What a commit does to its branch: edit content, take over what the parent has committed since,
or receive the content of another branch.
-/
inductive CommitKind where
  | content
  | rebase
  | promotion
  deriving DecidableEq, Repr, Inhabited

/--
An open write on a locked branch. It is never stored itself; every document written under it
starts at its timepoint.
-/
structure Commit where
  /-- The row as it was locked, with the new base if the commit is a rebase. -/
  branch : BranchRow
  timepoint : Timepoint
  kind : CommitKind
  /-- The branch whose content a promotion receives. -/
  source : Option String := none
  /-- The versions of ancestors that this commit hides. -/
  replaced : OrderedSet VersionId := ∅
  deriving DecidableEq, Inhabited

namespace Commit

def branchPath (commit : Commit) : String := commit.branch.path

def flatBranchPath (commit : Commit) : String := commit.branch.flatPath

def hide (commit : Commit) (ids : List VersionId) : Commit :=
  { commit with replaced := commit.replaced.insertMany ids }

def allReplaced (commit : Commit) : OrderedSet VersionId :=
  commit.branch.replaced ∪ commit.replaced

end Commit

end TemporalStore
