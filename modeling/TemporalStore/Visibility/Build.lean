import TemporalStore.Directory.Lookup
import TemporalStore.Visibility.Criteria

/-!
This module contains the criteria of the rows and open commits of a directory.
-/

namespace TemporalStore.Criteria

/--
The clauses of the given ancestors, where the first is inherited as of `base`. Each row in turn
tells as of which timepoint it inherits from the next ancestor, and what it has replaced is hidden
there and in all ancestors beyond.
-/
def inheritedLevels : List String → Timepoint → OrderedSet VersionId → DirectoryM (List Level)
  | [], _, _ => return []
  | path :: paths, base, hidden => do
    let row ← Directory.rowAt path base
    let hidden := hidden ∪ row.replaced
    let level : Level :=
      { path := row.path, timepoint := base, inherited := true, excluded := hidden }
    return level :: (← inheritedLevels paths row.base hidden)

/--
What is visible on a row at `t`, when `hidden` is replaced.
-/
def build (row : BranchRow) (t : Timepoint) (hidden : OrderedSet VersionId) :
    DirectoryM Criteria := do
  let own : Level := { path := row.path, timepoint := t, inherited := false }
  return ⟨own :: (← inheritedLevels (Path.ancestors row.path) row.base hidden)⟩

/--
What a row shows as of its head.
-/
def ofRow (row : BranchRow) : DirectoryM Criteria := build row row.head row.replaced

def ofBranch (path : String) : DirectoryM Criteria := do
  ofRow (← Directory.latest path)

/--
What a writer sees under an open commit, where all that the commit has hidden so far is hidden
already.
-/
def ofCommit (commit : Commit) : DirectoryM Criteria :=
  build commit.branch commit.timepoint commit.allReplaced

/--
The versions written on the branch of a row, inherited ones left aside.
-/
def changesOn (row : BranchRow) : Predicate :=
  (Predicate.pathEq row.flatPath).both (.startLe row.head)

end TemporalStore.Criteria
