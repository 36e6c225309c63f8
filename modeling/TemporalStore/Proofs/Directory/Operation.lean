import TemporalStore.Proofs.Directory.Commit

/-!
This module contains the operations of a directory as values, and the shape that those which store
rows have in common: all that may be refused comes before the only write, and what comes after it
cannot fail.
-/

namespace TemporalStore

/--
What a directory can be asked to do, each with the type of the answer.
-/
inductive Operation : Type → Type where
  | create (path : String) : Operation BranchRow
  | lock (path : String) : Operation BranchRow
  | unlock (path : String) : Operation Unit
  | forceUnlock (path : String) : Operation Unit
  | openCommit (path : String) (kind : CommitKind) : Operation Commit
  | openPromotion (path source : String) : Operation Commit
  | complete (commit : Commit) : Operation BranchRow
  | purge : Operation Nat
  | save : Operation Unit
  | latest? (path : String) : Operation (Option BranchRow)
  | latestWithStanding? (path : String) : Operation (Option (BranchRow × Standing))
  | latest (path : String) : Operation BranchRow
  | hasBranch (path : String) : Operation Bool
  | rowAt (path : String) (t : Timepoint) : Operation BranchRow
  | isUnchanged (path : String) (base head : Timepoint) : Operation Bool
  | branches : Operation (List BranchRow)
  | descendants (path : String) : Operation (List BranchRow)
  | rowCount : Operation Nat
  | timeline (path : String) : Operation (List BranchRow)

namespace Operation

def perform {α : Type} : Operation α → DirectoryM α
  | create path => Directory.create path
  | lock path => Directory.lock path
  | unlock path => Directory.unlock path
  | forceUnlock path => Directory.forceUnlock path
  | openCommit path kind => Directory.openCommit path kind
  | openPromotion path source => Directory.openPromotion path source
  | complete commit => Directory.complete commit
  | purge => Directory.purge
  | save => Directory.save
  | latest? path => Directory.latest? path
  | latestWithStanding? path => Directory.latestWithStanding? path
  | latest path => Directory.latest path
  | hasBranch path => Directory.hasBranch path
  | rowAt path t => Directory.rowAt path t
  | isUnchanged path base head => Directory.isUnchanged path base head
  | branches => return Directory.branches (← get).directory
  | descendants path => return Directory.descendants (← get).directory path
  | rowCount => return Directory.rowCount (← get).directory
  | timeline path => return Directory.timeline (← get).directory path

/--
Whether an operation stores rows when it succeeds. The others only look things up.
-/
def Stores {α : Type} : Operation α → Prop
  | create _ | lock _ | unlock _ | forceUnlock _ | openCommit _ _ | openPromotion _ _
  | complete _ | purge | save => True
  | _ => False

end Operation

namespace Directory

/--
Something is looked up, one batch of rows is stored, and what has been done is told.
-/
def storing {α β : Type} (find : DirectoryM α) (batch : α → List BranchRow)
    (tell : α → DirectoryM β) : DirectoryM β := do
  let a ← find
  writeRows (batch a)
  tell a

/--
The row with which a branch begins.
-/
def toCreate (path : String) : DirectoryM BranchRow := do
  checked (Path.validate path)
  let t ← tick
  if (← current path).isSome then
    throw (.branchExists path)
  return BranchRow.fresh path (← create.inheritedBase path t) t

/--
The current row of a branch that is not locked yet, as it will be.
-/
def toLock (path : String) : DirectoryM BranchRow := do
  let row ← latest path
  if row.locked then
    throw (.branchLocked path)
  return { row with locked := true }

def toRelease (path : String) : DirectoryM BranchRow := do
  match ← current path with
  | none => throw (.branchNotFound path)
  | some row => return row

/--
The new current row of the branch of a commit, and all rows that are stored with it.
-/
def toComplete (commit : Commit) : DirectoryM (BranchRow × List BranchRow) := do
  let t := commit.timepoint
  if (← get).directory.openCommits.get? commit.branchPath = some t then
    if commit.kind = .promotion ∧ commit.source = none then
      throw (.commitState "The source branch path must be set for a commit of type Promotion")
    else
      let closed := (← heldRow commit).close t
      match commit.source with
      | none =>
        let row := nextRow commit closed none
        return (row, [closed, row])
      | some source =>
        let closedSource := (← heldSource commit source).close t
        let row := nextRow commit closed (some closedSource)
        return (row, [closed, row, closedSource, BranchRow.fresh source t t])
  else
    throw (.commitState s!"Commit {t} on branch {commit.branchPath} is not open")

theorem throw_bind {α β : Type} (e : StoreError) (f : α → DirectoryM β) :
    (throw e >>= f : DirectoryM β) = throw e := rfl

theorem create_eq (path : String) : create path = storing (toCreate path) (fun row => [row])
    (fun row => do announce (.created row.path row.base row.head); return row) := by
  unfold create storing toCreate
  simp only [bind_assoc]
  congr 1
  funext _
  congr 1
  funext t
  congr 1
  funext found
  split
  · rfl
  · simp only [bind_assoc, pure_bind]

theorem lock_eq (path : String) : lock path = storing (toLock path) (fun row => [row])
    (fun row => do announce (.locked path); return row) := by
  unfold lock storing toLock
  simp only [bind_assoc]
  congr 1
  funext row
  split
  · rfl
  · simp only [pure_bind]

theorem release_eq (path : String) : release path = storing (toRelease path)
    (fun row => [{ row with locked := false }]) (fun row => return row.locked) := by
  unfold release storing toRelease
  simp only [bind_assoc]
  congr 1
  funext row
  split
  · rfl
  · rfl

theorem complete_eq (commit : Commit) : complete commit = storing (toComplete commit) (·.2)
    (fun p => conclude commit p.1) := by
  unfold complete storing toComplete
  simp only [bind_assoc]
  congr 1
  funext site
  split
  · split
    · simp only [throw_bind, pure_bind]
    · simp only [pure_bind, bind_assoc]
      congr 1
      funext row
      split
      · rename_i single
        simp only [pure_bind, conclude, single]
      · rename_i double
        simp only [pure_bind, bind_assoc, conclude, double]
  · rfl

theorem storing_ok {α β : Type} {find : DirectoryM α} {batch : α → List BranchRow}
    {tell : α → DirectoryM β} {site middle : Site} {a : α} {host : Host}
    (found : find site = .ok a middle)
    (kept : middle.persisted (middle.directory.index.apply (batch a)) = .ok () host) :
    storing find batch tell site =
      tell a ((middle.withIndex (middle.directory.index.apply (batch a))).withHost host) := by
  unfold storing
  rw [bind_ok found, bind_ok (writeRows_ok kept)]

theorem exists_of_storing_ok {α β : Type} {find : DirectoryM α} {batch : α → List BranchRow}
    {tell : α → DirectoryM β} {site site' : Site} {b : β}
    (h : storing find batch tell site = .ok b site') :
    ∃ a middle host, find site = .ok a middle ∧
      middle.persisted (middle.directory.index.apply (batch a)) = .ok () host ∧
      tell a ((middle.withIndex (middle.directory.index.apply (batch a))).withHost host) =
        .ok b site' := by
  obtain ⟨a, middle, found, rest⟩ := exists_of_bind_ok h
  cases kept : middle.persisted (middle.directory.index.apply (batch a)) with
  | ok u host =>
    rw [bind_ok (writeRows_ok kept)] at rest
    exact ⟨a, middle, host, found, kept, rest⟩
  | error e host => simp [bind_error (writeRows_error kept)] at rest

section

variable {site site' : Site} {path : String} {row : BranchRow} {now : Timepoint}

theorem current_ok (ok : current path site = .ok (some row) site') :
    site.directory.index.current path = .ok (some row) ∧ site' = site := by
  unfold current at ok
  rw [get_bind] at ok
  cases there : site.directory.index.current path with
  | ok found =>
    rw [there] at ok
    obtain ⟨rfl, rfl⟩ := EStateM.Result.ok.inj ok
    exact ⟨rfl, rfl⟩
  | error e =>
    rw [there] at ok
    cases e <;> cases ok

theorem latest_ok (ok : latest path site = .ok row site') :
    site.directory.index.current path = .ok (some row) ∧ site' = site := by
  unfold latest latest? latestWithParentHead? at ok
  simp only [bind_assoc] at ok
  obtain ⟨found, middle, first, rest⟩ := exists_of_bind_ok ok
  cases found with
  | none => cases rest
  | some current =>
    obtain ⟨there, rfl⟩ := current_ok first
    cases above : Path.parent? path with
    | none =>
      rw [above] at rest
      obtain ⟨rfl, rfl⟩ := EStateM.Result.ok.inj rest
      exact ⟨there, rfl⟩
    | some parent =>
      rw [above] at rest
      simp only [bind_assoc] at rest
      obtain ⟨foundParent, middle', second, last⟩ := exists_of_bind_ok rest
      cases foundParent with
      | none =>
        simp only [checked, bind_assoc] at last
        cases last
      | some parentRow =>
        obtain ⟨-, rfl⟩ := current_ok second
        obtain ⟨rfl, rfl⟩ := EStateM.Result.ok.inj last
        exact ⟨there, rfl⟩

theorem current_of_toLock_ok (ok : toLock path site = .ok row site') :
    ∃ current, site.directory.index.current path = .ok (some current) ∧ current.locked = false ∧
      row = { current with locked := true } ∧ site' = site := by
  obtain ⟨current, middle, found, rest⟩ := exists_of_bind_ok ok
  obtain ⟨there, rfl⟩ := latest_ok found
  split at rest
  · cases rest
  · rename_i unlocked
    obtain ⟨rfl, rfl⟩ := EStateM.Result.ok.inj rest
    exact ⟨current, there, by simpa using unlocked, rfl, rfl⟩

theorem current_of_toRelease_ok (ok : toRelease path site = .ok row site') :
    site.directory.index.current path = .ok (some row) ∧ site' = site := by
  obtain ⟨found, middle, looked, rest⟩ := exists_of_bind_ok ok
  cases found with
  | none => cases rest
  | some current =>
    obtain ⟨there, rfl⟩ := current_ok looked
    obtain ⟨rfl, rfl⟩ := EStateM.Result.ok.inj rest
    exact ⟨there, rfl⟩

theorem exists_of_toLock_ok (h : site.directory.index.Valid now)
    (ok : toLock path site = .ok row site') :
    ∃ current, site.directory.index.last? path = some current ∧ current.locked = false ∧
      row = { current with locked := true } ∧ site' = site := by
  obtain ⟨current, there, unlocked, made, same⟩ := current_of_toLock_ok ok
  rw [h.current_eq, Except.ok.injEq] at there
  exact ⟨current, there, unlocked, made, same⟩

/--
What has become of a branch that was locked, by whatever path it was named.
-/
theorem exists_of_lock_ok (h : site.directory.index.Valid now)
    (ok : lock path site = .ok row site') :
    ∃ current host, site.directory.index.last? path = some current ∧ current.locked = false ∧
      site.persisted (site.directory.index.setLocked path true) = .ok () host ∧
      row = { current with locked := true } ∧
      site' = (relocked site path true host).announced (.locked path) := by
  rw [lock_eq] at ok
  obtain ⟨row', middle, host, found, kept, told⟩ := exists_of_storing_ok ok
  obtain ⟨current, last, unlocked, rfl, rfl⟩ := exists_of_toLock_ok h found
  rw [h.apply_relocked last true] at kept told
  obtain ⟨rfl, rfl⟩ := EStateM.Result.ok.inj told
  exact ⟨current, host, last, unlocked, kept, rfl, rfl⟩

/--
A branch that is there can be unlocked, by whatever path it is named, if its file can be written.
-/
theorem release_of_last? (h : site.directory.index.Valid now)
    (last : site.directory.index.last? path = some row) {host : Host}
    (kept : site.persisted (site.directory.index.setLocked path false) = .ok () host) :
    release path site = .ok row.locked (relocked site path false host) := by
  have found : current path site = .ok (some row) site := by
    rw [← last]
    exact current_eq h
  have batch := h.apply_relocked last false
  rw [← batch] at kept
  unfold release
  rw [bind_ok found]
  simp only
  rw [bind_ok (writeRows_ok kept), batch]
  rfl

theorem exists_of_release_ok {wasLocked : Bool} (h : site.directory.index.Valid now)
    (ok : release path site = .ok wasLocked site') :
    ∃ row host, site.directory.index.last? path = some row ∧
      site.persisted (site.directory.index.setLocked path false) = .ok () host ∧
      wasLocked = row.locked ∧ site' = relocked site path false host := by
  rw [release_eq] at ok
  obtain ⟨row, middle, host, found, kept, told⟩ := exists_of_storing_ok ok
  obtain ⟨last, rfl⟩ := current_of_toRelease_ok found
  rw [h.current_eq, Except.ok.injEq] at last
  rw [h.apply_relocked last false] at kept told
  obtain ⟨rfl, rfl⟩ := EStateM.Result.ok.inj told
  exact ⟨row, host, last, kept, rfl, rfl⟩

end

/--
A branch that was locked in vain is unlocked again.
-/
def giveBack {α : Type} (path : String) (e : StoreError) : DirectoryM α := do
  releaseAnnounced path
  throw e

theorem rebased_of_parent {path parent : String} (above : Path.parent? path = some parent)
    (row : BranchRow) (t : Timepoint) : openCommit.rebased path .rebase row t =
      tryCatch (do return (← rowAt parent t).head) (giveBack path) := by
  unfold openCommit.rebased
  rw [above]
  funext site
  cases found : rowAt parent t site with
  | ok row site' =>
    have ok : (do return (← rowAt parent t).head : DirectoryM Timepoint) site =
        .ok row.head site' := bind_ok found
    rw [tryCatch_ok ok]
    apply Eq.trans
    · apply bind_ok
      apply tryCatch_ok
      apply Eq.trans
      · apply bind_ok found
      · rfl
    · rfl
  | error e site' =>
    have failed : (do return (← rowAt parent t).head : DirectoryM Timepoint) site =
        .error e site' := bind_error found
    rw [tryCatch_error failed]
    unfold giveBack
    cases released : releaseAnnounced path site' with
    | ok a site'' =>
      rw [bind_ok released]
      apply bind_error
      rw [tryCatch_error (bind_error found), bind_ok released]
      rfl
    | error e' site'' =>
      rw [bind_error released]
      apply bind_error
      rw [tryCatch_error (bind_error found), bind_error released]

theorem rebased_of_other {path : String} {kind : CommitKind} (row : BranchRow) (t : Timepoint)
    (h : kind ≠ .rebase ∨ Path.parent? path = none) :
    openCommit.rebased path kind row t = pure row.base := by
  unfold openCommit.rebased
  split
  · rename_i above
    simp [above] at h
  · rfl

end Directory

end TemporalStore
