import TemporalStore.Proofs.Directory.Sound
import TemporalStore.Proofs.Visibility.Levels

/-!
This module contains which commits are open after each operation on a directory in memory, where
nothing can go wrong with a file.
-/

namespace TemporalStore

/--
The same commits are open, and the same file is used.
-/
structure Site.Alike (site site' : Site) : Prop where
  file : site'.directory.file = site.directory.file
  openCommits : site'.directory.openCommits = site.directory.openCommits

theorem Site.Alike.trans {site site' site'' : Site} (h : site.Alike site')
    (h' : site'.Alike site'') : site.Alike site'' where
  file := h'.file.trans h.file
  openCommits := h'.openCommits.trans h.openCommits

namespace Directory

/--
The outcome of an operation that neither opens nor ends a commit.
-/
inductive Quiet {α : Type} (site : Site) : EStateM.Result StoreError Site α → Prop where
  | ok (a : α) (site' : Site) (alike : site.Alike site') : Quiet site (.ok a site')
  | error (e : StoreError) (site' : Site) (alike : site.Alike site') : Quiet site (.error e site')

section

variable {site : Site} {commits : List Commit} {path : String} {now : Timepoint}

theorem quiet_of_lock {result : EStateM.Result StoreError Site BranchRow}
    (out : LockOutcome path site result) : Quiet site result := by
  cases out with
  | absent last => exact .error _ _ ⟨rfl, rfl⟩
  | held row last locked => exact .error _ _ ⟨rfl, rfl⟩
  | refused row e host last unlocked kept => exact .error _ _ ⟨rfl, rfl⟩
  | taken row host last unlocked kept => exact .ok _ _ ⟨rfl, rfl⟩

theorem quiet_of_release {result : EStateM.Result StoreError Site Bool}
    (out : ReleaseOutcome path site result) : Quiet site result := by
  cases out with
  | absent last => exact .error _ _ ⟨rfl, rfl⟩
  | refused row e host last kept => exact .error _ _ ⟨rfl, rfl⟩
  | done row host last kept => exact .ok _ _ ⟨rfl, rfl⟩

theorem quiet_unlock (h : site.directory.index.Valid now) (hp : Path.Valid path) :
    Quiet site (unlock path site) := by
  cases entry : site.directory.openCommits.get? path with
  | some t =>
    rw [unlock_of_open entry]
    exact .error _ _ ⟨rfl, rfl⟩
  | none =>
    have released := quiet_of_release (release_outcome h hp)
    rw [unlock_of_free entry, releaseAnnounced_eq]
    generalize release path site = result at released ⊢
    cases released with
    | ok wasLocked site' alike => exact .ok _ _ ⟨alike.file, alike.openCommits⟩
    | error e site' alike => exact .error e site' alike

theorem quiet_create (h : site.directory.index.Valid now) (hp : Path.Valid path) :
    Quiet site (create path site) := by
  have out := create_outcome h hp
  generalize create path site = result at out ⊢
  cases out with
  | existing row last => exact .error _ _ ⟨rfl, rfl⟩
  | orphan parent last above missing => exact .error _ _ ⟨rfl, rfl⟩
  | refused base e host last inherits kept => exact .error _ _ ⟨rfl, rfl⟩
  | created base host last inherits kept => exact .ok _ _ ⟨rfl, rfl⟩

theorem quiet_save (site : Site) : Quiet site (save site) := by
  rw [save_eq]
  cases kept : site.persisted site.directory.index with
  | error e host =>
    rw [persist_error kept]
    exact .error _ _ ⟨rfl, rfl⟩
  | ok a host =>
    rw [persist_ok kept]
    exact .ok _ _ ⟨rfl, rfl⟩

theorem quiet_latest (h : site.directory.index.Valid now) (hp : Path.Valid path) :
    Quiet site (latestWithStanding? path site) := by
  obtain ⟨answer, found⟩ := latestWithStanding?_eq h hp
  rw [found]
  exact .ok _ _ ⟨rfl, rfl⟩

theorem quiet_rowAt (h : site.directory.index.Valid now)
    (agrees : site.directory.history.Agrees site.directory.index) (path : String)
    (t : Timepoint) : Quiet site (rowAt path t site) := by
  obtain ⟨history, -, answer⟩ := rowAt_eq h agrees path t
  rw [answer]
  cases site.directory.index.covering? path t with
  | none => exact .error _ _ ⟨rfl, rfl⟩
  | some row => exact .ok _ _ ⟨rfl, rfl⟩

theorem quiet_criteria (h : site.directory.index.Valid now)
    (agrees : site.directory.history.Agrees site.directory.index) (hp : Path.Valid path) :
    Quiet site (Criteria.ofBranch path site) := by
  cases last : site.directory.index.last? path with
  | some row =>
    obtain ⟨history, -, answer⟩ := Criteria.ofBranch_eq h agrees hp last
    rw [answer]
    exact .ok _ _ ⟨rfl, rfl⟩
  | none =>
    rw [Criteria.ofBranch_of_absent h hp last]
    exact .error _ _ ⟨rfl, rfl⟩

end

/-! ## Operations that open or end a commit -/

section

variable {site : Site} {commits : List Commit} {path : String}

theorem get?_eq_timepoint_iff {index : RowIndex} {openCommits : OrderedMap String Timepoint}
    {now : Timepoint} {commit : Commit} (h : Consistent index openCommits now commits)
    (hc : commit ∈ commits) (open' : commit.IsOpen openCommits) :
    openCommits.get? path = some commit.timepoint ↔ commit.Touches path := by
  constructor
  · intro entry
    obtain ⟨owner, ho, time, touches, -⟩ := h.owned path commit.timepoint entry
    rw [h.eq_of_timepoint_eq ho hc time] at touches
    exact touches
  · intro touches
    exact (h.live commit hc open').entry_of_touches touches

/--
Unlocking by force ends the commit that is open on the branch, if any, and no other.
-/
inductive Forgetful (commits : List Commit) (path : String) (site : Site) :
    EStateM.Result StoreError Site Unit → Prop where
  | ok (site' : Site) (file : site'.directory.file = site.directory.file)
    (rest : ∀ commit ∈ commits, commit.IsOpen site'.directory.openCommits ↔
      commit.IsOpen site.directory.openCommits ∧ ¬ commit.Touches path) :
    Forgetful commits path site (.ok () site')
  | error (e : StoreError) (site' : Site) (alike : site.Alike site') :
    Forgetful commits path site (.error e site')

theorem isOpen_of_forgotten {index : RowIndex} {openCommits rest : OrderedMap String Timepoint}
    {now : Timepoint} (h : Consistent index openCommits now commits)
    (forgotten : ∀ q u, rest.get? q = some u ↔
      openCommits.get? q = some u ∧ openCommits.get? path ≠ some u) :
    ∀ commit ∈ commits,
      commit.IsOpen rest ↔ commit.IsOpen openCommits ∧ ¬ commit.Touches path := by
  intro commit hc
  constructor
  · intro entry
    obtain ⟨entry, other⟩ := (forgotten _ _).1 entry
    refine ⟨entry, ?_⟩
    intro touches
    exact other ((get?_eq_timepoint_iff h hc entry).2 touches)
  · rintro ⟨entry, other⟩
    apply (forgotten _ _).2 ⟨entry, _⟩
    intro entry'
    exact other ((get?_eq_timepoint_iff h hc entry).1 entry')

theorem forgetful_forceUnlock (h : site.Sound commits) (hp : Path.Valid path)
    (memory : site.directory.file = none) :
    Forgetful commits path site (forceUnlock path site) := by
  have out := forceUnlock_outcome h.consistent.valid hp (partners_of_consistent h.consistent path)
  generalize forceUnlock path site = result at out ⊢
  cases out with
  | absent last => exact .error _ _ ⟨rfl, rfl⟩
  | refused row e host last kept => exact .error _ _ ⟨rfl, rfl⟩
  | alone row host last kept others =>
    apply Forgetful.ok
    · rfl
    · apply isOpen_of_forgotten h.consistent
      intro q u
      change (site.directory.openCommits.erase path).get? q = some u ↔ _
      cases ht : site.directory.openCommits.get? path with
      | none =>
        rw [OrderedMap.erase_of_get?_eq_none ht]
        simp
      | some t =>
        rw [forgotten_of_alone others ht]
        simp [eq_comm]
  | partnerRefused row host partner t e host' last kept others kept' =>
    have memory' : (relocked site path false host).directory.file = none := memory
    rw [Site.persisted_of_file_eq_none memory'] at kept'
    simp at kept'
  | together row host partner t other host' last kept others last' kept' =>
    apply Forgetful.ok
    · rfl
    · apply isOpen_of_forgotten h.consistent
      intro q u
      change ((site.directory.openCommits.erase path).erase partner).get? q = some u ↔ _
      rw [forgotten_of_together others, (get?_of_partners others).1]
      simp [eq_comm]

/--
The outcome of opening a commit: it is open, and so are those that were open before.
-/
inductive Opening (commits : List Commit) (site : Site) :
    EStateM.Result StoreError Site Commit → Prop where
  | ok (commit : Commit) (site' : Site) (file : site'.directory.file = site.directory.file)
    (opened : commit.IsOpen site'.directory.openCommits)
    (rest : ∀ other ∈ commits, other.IsOpen site'.directory.openCommits ↔
      other.IsOpen site.directory.openCommits) :
    Opening commits site (.ok commit site')
  | error (e : StoreError) (site' : Site) (alike : site.Alike site') :
    Opening commits site (.error e site')

theorem isOpen_insert {openCommits : OrderedMap String Timepoint} {t : Timepoint} {commit : Commit}
    (free : openCommits.get? path = none) (earlier : commit.timepoint < t) :
    commit.IsOpen (openCommits.insert path t) ↔ commit.IsOpen openCommits := by
  unfold Commit.IsOpen
  by_cases same : commit.branchPath = path
  · rw [same, OrderedMap.get?_insert_self, free]
    simp only [Option.some.injEq, reduceCtorEq, iff_false]
    lia
  · rw [OrderedMap.get?_insert_of_ne same]

theorem isOpen_insert_both {openCommits : OrderedMap String Timepoint} {t : Timepoint}
    {commit : Commit} {source : String} (distinct : path ≠ source)
    (free : openCommits.get? path = none) (sourceFree : openCommits.get? source = none)
    (earlier : commit.timepoint < t) :
    commit.IsOpen ((openCommits.insert path t).insert source t) ↔ commit.IsOpen openCommits := by
  have sourceFree' : (openCommits.insert path t).get? source = none := by
    rw [OrderedMap.get?_insert_of_ne (Ne.symm distinct)]
    exact sourceFree
  exact (isOpen_insert sourceFree' earlier).trans (isOpen_insert free earlier)

theorem opening_openCommit (h : site.Sound commits) (hp : Path.Valid path) (kind : CommitKind) :
    Opening commits site (openCommit path kind site) := by
  have out := openCommit_outcome h.consistent.valid h.agrees hp kind
  have later := last_lt_ticked site
  generalize openCommit path kind site = result at out ⊢
  cases out with
  | notLocked e site' lock =>
    cases quiet_of_lock lock with
    | error _ _ alike => exact .error e site' ⟨alike.file, alike.openCommits⟩
  | opened row host history last unlocked kept agrees =>
    have rowPath : row.path = path := (h.consistent.valid.fits_last hp last).path
    have free := h.consistent.get?_eq_none_of_unlocked last unlocked
    apply Opening.ok
    · rfl
    · change (site.directory.openCommits.insert path (nextTimepoint site)).get? row.path = _
      rw [rowPath]
      exact OrderedMap.get?_insert_self
    · intro other ho
      apply isOpen_insert free
      exact Int.lt_of_le_of_lt (h.consistent.formed other ho).le_now later

theorem opening_openPromotion {source : String} (h : site.Sound commits) (hp : Path.Valid path)
    (hs : Path.Valid source) : Opening commits site (openPromotion path source site) := by
  have out := openPromotion_outcome h.consistent.valid hp hs
  have later := last_lt_ticked site
  generalize openPromotion path source site = result at out ⊢
  cases out with
  | itself same => exact .error _ _ ⟨rfl, rfl⟩
  | notLocked e site' lock =>
    cases quiet_of_lock lock with
    | error _ _ alike => exact .error e site' ⟨alike.file, alike.openCommits⟩
  | stuck row host e e' site' site'' last unlocked kept lock release =>
    cases quiet_of_lock lock with
    | error _ _ locking =>
      cases quiet_of_release release with
      | error _ _ releasing =>
        have alike := locking.trans releasing
        exact .error e' site'' ⟨alike.file, alike.openCommits⟩
  | givenBack row host e site' site'' wasLocked last unlocked kept lock release =>
    cases quiet_of_lock lock with
    | error _ _ locking =>
      cases quiet_of_release release with
      | ok _ _ releasing =>
        have alike := locking.trans releasing
        exact .error e _ ⟨alike.file, alike.openCommits⟩
  | opened row other host host' distinct last unlocked kept last' unlocked' kept' =>
    have rowPath : row.path = path := (h.consistent.valid.fits_last hp last).path
    have free := h.consistent.get?_eq_none_of_unlocked last unlocked
    have sourceFree : site.directory.openCommits.get? source = none := by
      rw [RowIndex.last?_setLocked _ _ hp hs, if_neg (Ne.symm distinct)] at last'
      exact h.consistent.get?_eq_none_of_unlocked last' unlocked'
    apply Opening.ok
    · rfl
    · change ((site.directory.openCommits.insert path (nextTimepoint site)).insert source
        (nextTimepoint site)).get? row.path = _
      rw [rowPath, OrderedMap.get?_insert_of_ne distinct]
      exact OrderedMap.get?_insert_self
    · intro old ho
      have earlier := Int.lt_of_le_of_lt (h.consistent.formed old ho).le_now later
      exact isOpen_insert_both distinct free sourceFree earlier

/--
The outcome of completing a commit in memory: it ends the commit and no other, or it is refused
because the commit has ended before or lacks its source.
-/
inductive Completing (commits : List Commit) (commit : Commit) (site : Site) :
    EStateM.Result StoreError Site BranchRow → Prop where
  | ok (row : BranchRow) (site' : Site) (open' : commit.IsOpen site.directory.openCommits)
    (sourced : ¬ (commit.kind = .promotion ∧ commit.source = none))
    (file : site'.directory.file = site.directory.file)
    (rest : ∀ other ∈ commits, other.IsOpen site'.directory.openCommits ↔
      other.IsOpen site.directory.openCommits ∧ other.timepoint ≠ commit.timepoint) :
    Completing commits commit site (.ok row site')
  | refused (reason : String)
    (not : ¬ (commit.IsOpen site.directory.openCommits ∧
      ¬ (commit.kind = .promotion ∧ commit.source = none))) :
    Completing commits commit site (.error (.commitState reason) site)

theorem completing_complete {commit : Commit} (h : site.Sound commits) (hc : commit ∈ commits)
    (memory : site.directory.file = none) :
    Completing commits commit site (complete commit site) := by
  have written := fun index => @Site.persisted_of_file_eq_none site index memory
  have rest : commit.IsOpen site.directory.openCommits → ∀ other ∈ commits,
      (other.IsOpen (remaining site.directory.openCommits commit) ↔
        other.IsOpen site.directory.openCommits ∧ other.timepoint ≠ commit.timepoint) := by
    intro entry other _
    exact h.consistent.forgotten hc entry other.branchPath other.timepoint
  have out := h.consistent.complete_cases hc
  generalize complete commit site = result at out ⊢
  cases out with
  | refused reason not => exact .refused reason not
  | alone row result held _ kind _ written' =>
    cases written' with
    | refused e host kept => simp [written] at kept
    | completed host kept =>
      exact .ok _ _ held.entry (fun both => kind both.1) rfl (rest held.entry)
  | promotion row source sourceRow result held _ double _ _ _ written' =>
    cases written' with
    | refused e host kept => simp [written] at kept
    | completed host kept => exact .ok _ _ held.entry (by simp [double]) rfl (rest held.entry)

end

end Directory

end TemporalStore
