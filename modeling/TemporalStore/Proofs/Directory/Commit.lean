import TemporalStore.Directory.Commit
import TemporalStore.Proofs.Directory.Create
import TemporalStore.Proofs.Directory.Lock
import TemporalStore.Proofs.Directory.Lookup

/-!
This module contains what becomes of a directory when a commit is opened or completed.
-/

namespace TemporalStore.Directory

variable {site : Site} {path : String} {now : Timepoint}

def commitBase (index : RowIndex) (kind : CommitKind) (path : String) (row : BranchRow) :
    Timepoint :=
  match kind, Path.parent? path with
  | .rebase, some parent => ((index.last? parent).map BranchRow.head).getD row.base
  | _, _ => row.base

theorem commitBase_of_other {index : RowIndex} {kind : CommitKind} (row : BranchRow)
    (other : kind ≠ .rebase ∨ Path.parent? path = none) :
    commitBase index kind path row = row.base := by
  unfold commitBase
  split
  · rename_i above
    simp [above] at other
  · rfl

def openedCommit (site : Site) (path : String) (kind : CommitKind) (row : BranchRow) : Commit where
  branch := { row with
    locked := true
    base := commitBase site.directory.index kind path row }
  timepoint := nextTimepoint site
  kind

def lockedFor (site : Site) (path : String) (host : Host) : Site :=
  (relocked site.ticked path true host).announced (.locked path)

/--
What opening a commit may come to. A timepoint is used up in any case.
-/
inductive OpenOutcome (path : String) (kind : CommitKind) (site : Site) :
    EStateM.Result StoreError Site Commit → Prop where
  | notLocked (e : StoreError) (site' : Site)
    (lock : LockOutcome path site.ticked (.error e site')) :
    OpenOutcome path kind site (.error e site')
  | opened (row : BranchRow) (host : Host) (history : HistoryCache)
    (last : site.directory.index.last? path = some row) (unlocked : row.locked = false)
    (kept : site.persisted (site.directory.index.setLocked path true) = .ok () host)
    (agrees : history.Agrees (site.directory.index.setLocked path true)) :
    OpenOutcome path kind site (.ok (openedCommit site path kind row)
      (((lockedFor site path host).withHistory history).withOpenCommits
        (site.directory.openCommits.insert path (nextTimepoint site))))

theorem rebased_eq {row : BranchRow} {host : Host} (kind : CommitKind)
    (h : site.directory.index.Valid site.directory.clock.last)
    (agrees : site.directory.history.Agrees site.directory.index) (hp : Path.Valid path)
    (last : site.directory.index.last? path = some row) :
    ∃ history : HistoryCache, history.Agrees (site.directory.index.setLocked path true) ∧
      openCommit.rebased path kind { row with locked := true } (nextTimepoint site)
          (lockedFor site path host) =
        .ok (commitBase site.directory.index kind path row)
          ((lockedFor site path host).withHistory history) := by
  have kept := agrees.keep (h.keepsHistory_setLocked path true)
  have valid := h.setLocked hp true
  unfold openCommit.rebased commitBase
  cases kind with
  | content => exact ⟨_, kept, rfl⟩
  | promotion => exact ⟨_, kept, rfl⟩
  | rebase =>
    cases above : Path.parent? path with
    | none => exact ⟨_, kept, rfl⟩
    | some parent =>
      have parentValid := Path.valid_of_parent? hp above
      obtain ⟨closed, hc⟩ := RowIndex.eq_append_of_last? last
      obtain ⟨first, hf, -⟩ := h.parents path parent hp above row (by simp [hc])
      obtain ⟨parentRow, hr⟩ := RowIndex.last?_isSome_of_first? hf
      have there : (site.directory.index.setLocked path true).last? parent = some parentRow := by
        rw [RowIndex.last?_setLocked _ _ hp parentValid, if_neg (Path.parent?_ne above)]
        exact hr
      -- a new timepoint is in the current row of every branch
      have started : parentRow.start ≤ nextTimepoint site := by
        have := (h.fits_last parentValid hr).start_le
        have := last_lt_ticked site
        unfold nextTimepoint
        lia
      have covering := valid.covers_last there started
      obtain ⟨history, agreesToo, answer⟩ :=
        @rowAt_eq (lockedFor site path host) _ valid kept parent (nextTimepoint site)
      have answer : rowAt parent (nextTimepoint site) (lockedFor site path host) =
          .ok parentRow ((lockedFor site path host).withHistory history) := by
        have found : (lockedFor site path host).directory.index.covering? parent
          (nextTimepoint site) = some parentRow := covering
        rw [answer]
        simp only [found]
      refine ⟨history, agreesToo, ?_⟩
      simp only [hr, Option.map_some, Option.getD_some]
      apply Eq.trans
      · apply bind_ok
        apply tryCatch_ok
        apply Eq.trans
        · apply bind_ok answer
        · rfl
      · rfl

theorem openCommit_outcome (h : site.directory.index.Valid site.directory.clock.last)
    (agrees : site.directory.history.Agrees site.directory.index) (hp : Path.Valid path)
    (kind : CommitKind) : OpenOutcome path kind site (openCommit path kind site) := by
  have lock := @lock_outcome site.ticked path _ h hp
  unfold openCommit
  rw [bind_ok (tick_eq site)]
  cases hr : Directory.lock path site.ticked with
  | error e site' =>
    rw [hr] at lock
    rw [bind_error hr]
    exact .notLocked e site' lock
  | ok row site' =>
    rw [hr] at lock
    rw [bind_ok hr]
    cases lock with
    | taken row host last unlocked kept =>
      obtain ⟨history, agreesToo, based⟩ := @rebased_eq site path row host kind h agrees hp last
      have based : openCommit.rebased path kind { row with locked := true }
          site.ticked.directory.clock.last
          ((relocked site.ticked path true host).announced (.locked path)) =
        .ok (commitBase site.directory.index kind path row)
          ((lockedFor site path host).withHistory history) := based
      rw [bind_ok based]
      exact .opened row host history last unlocked kept agreesToo

/-! ## Promotions -/

def openedPromotion (site : Site) (source : String) (row : BranchRow) : Commit where
  branch := { row with locked := true }
  timepoint := nextTimepoint site
  kind := .promotion
  source := some source

/--
What opening a promotion may come to. If the source cannot be locked, the branch is unlocked again,
as far as that is possible.
-/
inductive PromotionOutcome (path source : String) (site : Site) :
    EStateM.Result StoreError Site Commit → Prop where
  | itself (same : path = source) : PromotionOutcome path source site
      (.error (.commitState s!"Branch {path} cannot be promoted into itself") site)
  | notLocked (e : StoreError) (site' : Site)
    (lock : LockOutcome path site.ticked (.error e site')) :
    PromotionOutcome path source site (.error e site')
  | stuck (row : BranchRow) (host : Host) (e e' : StoreError) (site' site'' : Site)
    (last : site.directory.index.last? path = some row) (unlocked : row.locked = false)
    (kept : site.persisted (site.directory.index.setLocked path true) = .ok () host)
    (lock : LockOutcome source (lockedFor site path host) (.error e site'))
    (release : ReleaseOutcome path site' (.error e' site'')) :
    PromotionOutcome path source site (.error e' site'')
  | givenBack (row : BranchRow) (host : Host) (e : StoreError) (site' site'' : Site)
    (wasLocked : Bool) (last : site.directory.index.last? path = some row)
    (unlocked : row.locked = false)
    (kept : site.persisted (site.directory.index.setLocked path true) = .ok () host)
    (lock : LockOutcome source (lockedFor site path host) (.error e site'))
    (release : ReleaseOutcome path site' (.ok wasLocked site'')) :
    PromotionOutcome path source site (.error e (site''.announced (.unlocked path false)))
  | opened (row other : BranchRow) (host host' : Host) (distinct : path ≠ source)
    (last : site.directory.index.last? path = some row) (unlocked : row.locked = false)
    (kept : site.persisted (site.directory.index.setLocked path true) = .ok () host)
    (last' : (site.directory.index.setLocked path true).last? source = some other)
    (unlocked' : other.locked = false)
    (kept' : (lockedFor site path host).persisted
      ((site.directory.index.setLocked path true).setLocked source true) = .ok () host') :
    PromotionOutcome path source site (.ok (openedPromotion site source row)
      (((relocked (lockedFor site path host) source true host').announced
        (.locked source)).withOpenCommits
          ((site.directory.openCommits.insert path (nextTimepoint site)).insert source
            (nextTimepoint site))))

theorem LockOutcome.index_of_error {e : StoreError} {site' : Site}
    (h : LockOutcome path site (.error e site')) :
    site'.directory.index = site.directory.index := by
  cases h with
  | absent last => rfl
  | held row last locked => rfl
  | refused row e host last unlocked kept => rfl

theorem LockOutcome.openCommits_of_error {e : StoreError} {site' : Site}
    (h : LockOutcome path site (.error e site')) :
    site'.directory.openCommits = site.directory.openCommits := by
  cases h with
  | absent last => rfl
  | held row last locked => rfl
  | refused row e host last unlocked kept => rfl

theorem openPromotion_outcome {source : String}
    (h : site.directory.index.Valid site.directory.clock.last) (hp : Path.Valid path)
    (hs : Path.Valid source) :
    PromotionOutcome path source site (openPromotion path source site) := by
  unfold openPromotion
  by_cases same : path = source
  · rw [if_pos same]
    exact .itself same
  · rw [if_neg same]
    have lock := @lock_outcome site.ticked path _ h hp
    beta_reduce
    rw [bind_ok (tick_eq site)]
    cases hr : Directory.lock path site.ticked with
    | error e site' =>
      rw [hr] at lock
      rw [bind_error hr]
      exact .notLocked e site' lock
    | ok row site' =>
      rw [hr] at lock
      rw [bind_ok hr]
      cases lock with
      | taken row host last unlocked kept =>
        have valid := h.setLocked hp true
        have second := @lock_outcome (lockedFor site path host) source _ valid hs
        cases hr' : Directory.lock source (lockedFor site path host) with
        | error e site' =>
          rw [hr'] at second
          have failed : discard (Directory.lock source)
              ((relocked site.ticked path true host).announced (.locked path)) = .error e site' :=
            discard_error hr'
          have index := second.index_of_error
          have valid' : site'.directory.index.Valid site.directory.clock.last := by
            rw [index]
            exact valid
          have released := release_outcome valid' hp
          have announced := releaseAnnounced_eq site' path
          -- the handler gives the first lock back, and fails for its own reason if it cannot
          cases hrel : release path site' with
          | error e' site'' =>
            rw [hrel] at released announced
            rw [bind_error (Eq.trans (tryCatch_error failed) (bind_error announced))]
            exact .stuck row host e e' site' site'' last unlocked kept second released
          | ok wasLocked site'' =>
            rw [hrel] at released announced
            rw [bind_error (Eq.trans (tryCatch_error failed) (bind_ok announced))]
            exact .givenBack row host e site' site'' wasLocked last unlocked kept second released
        | ok row' site' =>
          rw [hr'] at second
          have taken : discard (Directory.lock source)
              ((relocked site.ticked path true host).announced (.locked path)) = .ok () site' :=
            discard_ok hr'
          rw [bind_ok (tryCatch_ok taken), get_bind, bind_ok (setOpenCommits_eq _ _)]
          cases second with
          | taken other host' last' unlocked' kept' =>
            exact .opened row other host host' same last unlocked kept last' unlocked' kept'

/-! ## Completion -/

/--
The branch of a commit is held by it: the commit is open there, and its current row is the one
that the commit has locked.
-/
structure Held (index : RowIndex) (openCommits : OrderedMap String Timepoint) (commit : Commit)
    (row : BranchRow) : Prop where
  entry : openCommits.get? commit.branchPath = some commit.timepoint
  last : index.last? commit.branchPath = some row
  locked : row.locked = true
  start : row.start = commit.branch.start
  before : row.start < commit.timepoint

structure SourceHeld (index : RowIndex) (openCommits : OrderedMap String Timepoint)
    (commit : Commit) (source : String) (row : BranchRow) : Prop where
  entry : openCommits.get? source = some commit.timepoint
  last : index.last? source = some row
  locked : row.locked = true
  before : row.start < commit.timepoint

def completedIndex (index : RowIndex) (commit : Commit) (row : BranchRow) : RowIndex :=
  index.advance commit.branchPath (row.close commit.timepoint)
    (nextRow commit (row.close commit.timepoint) none)

def promotedIndex (index : RowIndex) (commit : Commit) (row : BranchRow) (source : String)
    (sourceRow : BranchRow) : RowIndex :=
  (index.advance commit.branchPath (row.close commit.timepoint)
    (nextRow commit (row.close commit.timepoint)
      (some (sourceRow.close commit.timepoint)))).advance source
        (sourceRow.close commit.timepoint)
        (BranchRow.fresh source commit.timepoint commit.timepoint)

theorem last?_promotedIndex {index : RowIndex} {commit : Commit} {source q : String}
    (row sourceRow : BranchRow) (hp : Path.Valid commit.branchPath) (hs : Path.Valid source)
    (hq : Path.Valid q) : (promotedIndex index commit row source sourceRow).last? q =
      if q = source then some (BranchRow.fresh source commit.timepoint commit.timepoint)
      else if q = commit.branchPath then some (nextRow commit (row.close commit.timepoint)
        (some (sourceRow.close commit.timepoint)))
      else index.last? q := by
  unfold promotedIndex
  rw [RowIndex.last?_advance _ _ _ hs hq, RowIndex.last?_advance _ _ _ hp hq]

def remaining (openCommits : OrderedMap String Timepoint) (commit : Commit) :
    OrderedMap String Timepoint :=
  commit.source.elim (openCommits.erase commit.branchPath)
    (openCommits.erase commit.branchPath).erase

inductive CompleteOutcome (commit : Commit) (site : Site) (index : RowIndex) (row : BranchRow) :
    EStateM.Result StoreError Site BranchRow → Prop where
  | refused (e : StoreError) (host : Host) (kept : site.persisted index = .error e host) :
    CompleteOutcome commit site index row (.error e (site.withHost host))
  | completed (host : Host) (kept : site.persisted index = .ok () host) :
    CompleteOutcome commit site index row (.ok row
      ((((site.withIndex index).withHost host).withOpenCommits
        (remaining site.directory.openCommits commit)).announced
          (.completed commit.branchPath commit.timepoint commit.kind commit.source)))

section

variable {commit : Commit} {row : BranchRow}

theorem complete_of_not_open
    (h : site.directory.openCommits.get? commit.branchPath ≠ some commit.timepoint) :
    complete commit site = .error (.commitState
      s!"Commit {commit.timepoint} on branch {commit.branchPath} is not open") site := by
  unfold complete
  simp only
  rw [get_bind, if_neg h]
  rfl

theorem complete_of_no_source (kind : commit.kind = .promotion) (none : commit.source = none) :
    ∃ reason, complete commit site = .error (.commitState reason) site := by
  by_cases entry : site.directory.openCommits.get? commit.branchPath = some commit.timepoint
  · refine ⟨"The source branch path must be set for a commit of type Promotion", ?_⟩
    unfold complete
    simp only
    rw [get_bind, if_pos entry, if_pos ⟨kind, none⟩]
    rfl
  · exact ⟨_, complete_of_not_open entry⟩

theorem heldRow_eq (h : site.directory.index.Valid now)
    (held : Held site.directory.index site.directory.openCommits commit row) :
    heldRow commit site = .ok row site := by
  unfold heldRow
  rw [bind_ok (current_eq h), held.last]
  simp only
  rw [if_pos ⟨held.locked, held.start⟩]
  rfl

theorem heldSource_eq {source : String} (h : site.directory.index.Valid now)
    (held : SourceHeld site.directory.index site.directory.openCommits commit source row) :
    heldSource commit source site = .ok row site := by
  unfold heldSource
  rw [bind_ok (current_eq h), held.last]
  simp only
  rw [get_bind, if_pos ⟨held.locked, held.entry⟩]
  rfl

def conclude (commit : Commit) (row : BranchRow) : DirectoryM BranchRow := do
  let openCommits := (← get).directory.openCommits.erase commit.branchPath
  setOpenCommits (commit.source.elim openCommits openCommits.erase)
  announce (.completed commit.branchPath commit.timepoint commit.kind commit.source)
  return row

theorem conclude_outcome {batch : List BranchRow} {index : RowIndex}
    (h : site.directory.index.apply batch = index) :
    CompleteOutcome commit site index row
      ((writeRows batch >>= fun _ => conclude commit row) site) := by
  cases kept : site.persisted index with
  | error e host =>
    have refused := kept
    rw [← h] at refused
    rw [bind_error (writeRows_error refused)]
    exact .refused e host kept
  | ok a host =>
    have stored := kept
    rw [← h] at stored
    rw [bind_ok (writeRows_ok stored), h]
    exact .completed host kept

theorem complete_outcome (h : site.directory.index.Valid now) (hp : Path.Valid commit.branchPath)
    (held : Held site.directory.index site.directory.openCommits commit row)
    (kind : commit.kind ≠ .promotion) (single : commit.source = none) :
    CompleteOutcome commit site (completedIndex site.directory.index commit row)
      (nextRow commit (row.close commit.timepoint) none) (complete commit site) := by
  have batch : site.directory.index.apply
      [row.close commit.timepoint, nextRow commit (row.close commit.timepoint) none] =
      completedIndex site.directory.index commit row :=
    RowIndex.apply_advance (h.tiles _) held.last (h.fits_last hp held.last).path rfl held.before
  have outcome := @conclude_outcome site commit
    (nextRow commit (row.close commit.timepoint) none) _ _ batch
  unfold complete
  simp only
  rw [get_bind, if_pos held.entry, if_neg (fun both => kind both.1), bind_ok (heldRow_eq h held)]
  simp only [conclude, single] at outcome ⊢
  exact outcome

theorem apply_promotion {source : String} {sourceRow : BranchRow} {index : RowIndex}
    (h : index.Valid now) (hp : Path.Valid commit.branchPath) (hs : Path.Valid source)
    (distinct : source ≠ commit.branchPath) (last : index.last? commit.branchPath = some row)
    (before : row.start < commit.timepoint) (sourceLast : index.last? source = some sourceRow)
    (sourceBefore : sourceRow.start < commit.timepoint) :
    index.apply [row.close commit.timepoint,
        nextRow commit (row.close commit.timepoint) (some (sourceRow.close commit.timepoint)),
        sourceRow.close commit.timepoint,
        BranchRow.fresh source commit.timepoint commit.timepoint] =
      promotedIndex index commit row source sourceRow := by
  have first : index.apply [row.close commit.timepoint,
        nextRow commit (row.close commit.timepoint) (some (sourceRow.close commit.timepoint))] =
      index.advance commit.branchPath (row.close commit.timepoint)
        (nextRow commit (row.close commit.timepoint)
          (some (sourceRow.close commit.timepoint))) :=
    RowIndex.apply_advance (h.tiles _) last (h.fits_last hp last).path rfl before
  have same := RowIndex.timeline_put_of_ne index
    ((index.timeline commit.branchPath).dropLast ++ [row.close commit.timepoint,
      nextRow commit (row.close commit.timepoint) (some (sourceRow.close commit.timepoint))])
    hp hs distinct
  have sourceTiles := h.tiles source
  have sourcePath := (h.fits_last hs sourceLast).path
  unfold promotedIndex
  apply Eq.trans (RowIndex.apply_append index [_, _] [_, _])
  rw [first]
  -- the first two rows are of another branch, so the source has its old rows in between
  generalize middle : index.advance commit.branchPath (row.close commit.timepoint) _ = index'
  have tiles : Timeline.Tiles (index'.timeline source) := by
    rw [← middle]
    unfold RowIndex.advance
    rw [same]
    exact sourceTiles
  have last' : index'.last? source = some sourceRow := by
    rw [← middle, RowIndex.last?_advance _ _ _ hp hs, if_neg distinct]
    exact sourceLast
  exact RowIndex.apply_advance tiles last' sourcePath rfl sourceBefore

theorem complete_outcome_of_source {source : String} {sourceRow : BranchRow}
    (h : site.directory.index.Valid now) (hp : Path.Valid commit.branchPath)
    (hs : Path.Valid source) (distinct : source ≠ commit.branchPath)
    (held : Held site.directory.index site.directory.openCommits commit row)
    (sourceHeld : SourceHeld site.directory.index site.directory.openCommits commit source
      sourceRow) (double : commit.source = some source) :
    CompleteOutcome commit site (promotedIndex site.directory.index commit row source sourceRow)
      (nextRow commit (row.close commit.timepoint) (some (sourceRow.close commit.timepoint)))
      (complete commit site) := by
  have batch := apply_promotion h hp hs distinct held.last held.before sourceHeld.last
    sourceHeld.before
  have outcome := @conclude_outcome site commit
    (nextRow commit (row.close commit.timepoint) (some (sourceRow.close commit.timepoint)))
    _ _ batch
  have kind : ¬ (commit.kind = .promotion ∧ commit.source = none) := by simp [double]
  have found := heldSource_eq h sourceHeld
  unfold complete
  simp only
  rw [get_bind, if_pos held.entry, if_neg kind, bind_ok (heldRow_eq h held)]
  simp only [conclude, double] at outcome ⊢
  rw [bind_ok found]
  exact outcome

end

end TemporalStore.Directory
