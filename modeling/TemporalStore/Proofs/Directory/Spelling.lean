import TemporalStore.Proofs.Directory.Orderly

/-!
This module contains what becomes of a commit when the branch is named by one string as it is opened
and by another one later.
-/

namespace TemporalStore.Directory

section

variable {site site' : Site} {path q : String} {row : BranchRow} {commit : Commit}

/--
Under a string for which no commit is open, a branch can be unlocked, if its file can be written.
-/
theorem unlock_of_current (there : site.directory.index.current path = .ok (some row))
    (free : site.directory.openCommits.get? path = none) (writable : site.Writable) :
    ∃ after, unlock path site = .ok () after ∧
      after.directory.index = site.directory.index.upsert { row with locked := false } := by
  obtain ⟨host, kept⟩ := (Site.persisted_ok_iff site
    (site.directory.index.apply [{ row with locked := false }])).2 writable
  have released : release path site = .ok row.locked ((site.withIndex
      (site.directory.index.upsert { row with locked := false })).withHost host) := by
    unfold release
    rw [bind_ok (current_of_index there)]
    simp only
    rw [bind_ok (writeRows_ok kept)]
    rfl
  rw [unlock_of_free free, releaseAnnounced_eq, released]
  exact ⟨_, rfl, rfl⟩

/--
A commit without a source can be completed if it is open, its row is there, and the file can be
written.
-/
theorem complete_of_current (open' : commit.IsOpen site.directory.openCommits)
    (kind : commit.kind ≠ .promotion) (single : commit.source = none)
    (there : site.directory.index.current commit.branchPath = .ok (some row))
    (locked : row.locked = true) (start : row.start = commit.branch.start)
    (writable : site.Writable) : ∃ new after, complete commit site = .ok new after := by
  have held : heldRow commit site = .ok row site := by
    unfold heldRow
    rw [bind_ok (current_of_index there)]
    simp only
    rw [if_pos ⟨locked, start⟩]
    rfl
  have entry : site.directory.openCommits.get? commit.branchPath = some commit.timepoint := open'
  have found : ∃ made, toComplete commit site = .ok made site := by
    unfold toComplete
    rw [get_bind, if_pos entry, if_neg fun both => kind both.1, bind_ok held, single]
    exact ⟨_, rfl⟩
  obtain ⟨made, found⟩ := found
  obtain ⟨host, kept⟩ := (Site.persisted_ok_iff site (site.directory.index.apply made.2)).2 writable
  rw [complete_eq, storing_ok found kept]
  exact ⟨_, _, rfl⟩

/--
What is left by opening a commit for content under a string that names a branch.
-/
structure OpenedAs (path : String) (site : Site) (commit : Commit) (site' : Site) : Prop where
  branch : ∃ row, site.directory.index.current path = .ok (some row) ∧
    commit.branch = { row with locked := true }
  timepoint : commit.timepoint = nextTimepoint site
  kind : commit.kind = .content
  source : commit.source = none
  index : site'.directory.index = site.directory.index.upsert commit.branch
  openCommits : site'.directory.openCommits =
    site.directory.openCommits.insert path (nextTimepoint site)
  writable : site'.Writable

theorem openedAs_of_ok (ok : openCommit path .content site = .ok commit site') :
    OpenedAs path site commit site' := by
  have home := (upholds_openCommit Site.sameHome_always path .content).of_ok ok
  unfold openCommit at ok
  rw [bind_ok (tick_eq site)] at ok
  obtain ⟨row, middle, locked, rest⟩ := exists_of_bind_ok ok
  rw [rebased_of_other row _ (.inl (by decide))] at rest
  obtain ⟨rfl, rfl⟩ := EStateM.Result.ok.inj rest
  rw [lock_eq] at locked
  obtain ⟨row', middle', host, found, kept, told⟩ := exists_of_storing_ok locked
  obtain ⟨current, there, -, rfl, rfl⟩ := current_of_toLock_ok found
  obtain ⟨rfl, rfl⟩ := EStateM.Result.ok.inj told
  have writable := Site.writable_of_persisted_ok kept
  exact ⟨⟨current, there, rfl⟩, rfl, rfl, rfl, rfl, rfl, home.writable_iff.2 writable⟩

end

namespace OpenedAs

variable {site site' : Site} {path q : String} {commit : Commit} {named : String → Prop}
  {pinned : String → Timepoint → Prop} {now : Timepoint}

/--
By whatever string the branch is named, its current row is the one that was locked.
-/
theorem current (opened : OpenedAs path site commit site') (h : site.Orderly named pinned now)
    (same : Path.flatten q = Path.flatten path) :
    site'.directory.index.current q = .ok (some commit.branch) := by
  obtain ⟨row, there, made⟩ := opened.branch
  have isCurrent := (RowIndex.mem_of_current there).2
  rw [opened.index, made]
  exact h.filed.current_upsert there rfl rfl isCurrent same

/--
The commit is open under the string by which its branch was named, and nothing else is open from its
timepoint.
-/
theorem get?_eq_iff (opened : OpenedAs path site commit site') (h : site.Orderly named pinned now) :
    site'.directory.openCommits.get? q = some commit.timepoint ↔ q = path := by
  rw [opened.openCommits, opened.timepoint, OrderedMap.get?_insert_eq_some_iff]
  constructor
  · rintro (⟨same, -⟩ | ⟨-, entry⟩)
    · exact same
    · exact absurd (last_lt_ticked site) (Int.not_lt.2 (h.entries q _ entry))
  · intro same
    exact .inl ⟨same, rfl⟩

theorem get?_eq_none_iff (opened : OpenedAs path site commit site') :
    site'.directory.openCommits.get? q = none ↔
      q ≠ path ∧ site.directory.openCommits.get? q = none := by
  rw [opened.openCommits]
  by_cases same : q = path
  · simp [same]
  · rw [OrderedMap.get?_insert_of_ne same]
    simp [same]

/--
The commit can be completed if the string was the path of the row.
-/
theorem completes_iff (opened : OpenedAs path site commit site')
    (h : site.Orderly named pinned now) :
    (∃ new after, complete commit site' = .ok new after) ↔ path = commit.branchPath := by
  constructor
  · rintro ⟨new, after, ok⟩
    rw [complete_eq] at ok
    obtain ⟨made, middle, host, found, -, -⟩ := exists_of_storing_ok ok
    have open' := (batched_of_toComplete_ok found).1
    exact ((opened.get?_eq_iff h).1 open').symm
  · intro same
    have open' : commit.IsOpen site'.directory.openCommits := (opened.get?_eq_iff h).2 same.symm
    have there := opened.current h (congrArg Path.flatten same.symm)
    obtain ⟨row, -, made⟩ := opened.branch
    have locked : commit.branch.locked = true := by rw [made]
    apply complete_of_current open' _ opened.source there locked rfl opened.writable
    simp [opened.kind]

end OpenedAs

end TemporalStore.Directory
