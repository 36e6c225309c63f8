import TemporalStore.Directory.Lookup

/-!
This module contains the locks of branches. Taking a lock never waits.
-/

namespace TemporalStore.Directory

def lock (path : String) : DirectoryM BranchRow := do
  let row ← latest path
  if row.locked then
    throw (.branchLocked path)
  let row := { row with locked := true }
  writeRows [row]
  announce (.locked path)
  return row

/--
Unlocks the current row of a branch without telling anyone, and says whether it was locked.
-/
def release (path : String) : DirectoryM Bool := do
  match ← current path with
  | none => throw (.branchNotFound path)
  | some row =>
    writeRows [{ row with locked := false }]
    return row.locked

def releaseAnnounced (path : String) : DirectoryM Unit := do
  discard (release path)
  announce (.unlocked path false)

/--
Unlocks a branch on which no commit is open.
-/
def unlock (path : String) : DirectoryM Unit := do
  if let some t := (← get).directory.openCommits.get? path then
    throw (.commitState s!"Branch {path} has commit {t} open")
  releaseAnnounced path

/--
Unlocks a branch in any case. A commit that is open on it is given up, and with it the other
branch that the commit holds if it is a promotion.
-/
def forceUnlock (path : String) : DirectoryM Unit := do
  -- all branches are released before anyone hears of the first
  let wasLocked ← release path
  let others ← abandon
  ((path, wasLocked) :: others).forM fun (path, wasLocked) => do
    Host.report (.forcedUnlock path wasLocked)
    announce (.unlocked path true)
where
  -- gives up the open commit; the answer lists the other branches released
  abandon : DirectoryM (List (String × Bool)) := do
    let openCommits := (← get).directory.openCommits
    match openCommits.get? path with
    | none => return []
    | some t =>
      let rest := openCommits.erase path
      setOpenCommits rest
      (rest.entries.filter (·.2 = t)).mapM fun (partner, _) => do
        setOpenCommits ((← get).directory.openCommits.erase partner)
        return (partner, ← release partner)

end TemporalStore.Directory
