import TemporalStore.Proofs.Directory.Operation
import TemporalStore.Proofs.Host.Writable

/-!
This module contains how a relation between the state before and the state after is followed through
an operation step by step, and one that no operation breaks: the directory stays where it is kept.
-/

namespace TemporalStore

/--
A relation between what was and what is that holds however often something is looked up.
-/
structure Lasting (R : Site → Site → Prop) : Prop where
  refl : ∀ site, R site site
  trans : ∀ {site site' site''}, R site site' → R site' site'' → R site site''
  ticked : ∀ site : Site, R site site.ticked
  reported : ∀ (site : Site) (record : LogRecord), R site (site.reported record)
  looked : ∀ (site : Site) (history : HistoryCache), R site (site.withHistory history)

/--
The same, whatever else is done.
-/
structure Lasting.Always (R : Site → Site → Prop) : Prop extends Lasting R where
  announced : ∀ (site : Site) (event : Event), R site (site.announced event)
  withOpenCommits : ∀ (site : Site) (openCommits : OrderedMap String Timepoint),
    R site (site.withOpenCommits openCommits)
  withIndex : ∀ (site : Site) (index : RowIndex), R site (site.withIndex index)
  persisted : ∀ (site : Site) (index : RowIndex),
    R site (site.withHost (afterwards (site.persisted index)))

/--
The relation holds between the state before and the state after, even if the operation fails.
-/
def Upholds (R : Site → Site → Prop) {α : Type} (x : DirectoryM α) : Prop :=
  ∀ site : Site, R site (afterwards (x site))

section

variable {R : Site → Site → Prop} {α β : Type} {x : DirectoryM α} {f : α → DirectoryM β}

theorem Upholds.of_ok (h : Upholds R x) {site site' : Site} {a : α} (ok : x site = .ok a site') :
    R site site' := by
  have held := h site
  rw [ok] at held
  exact held

theorem Upholds.of_error (h : Upholds R x) {site site' : Site} {e : StoreError}
    (failed : x site = .error e site') : R site site' := by
  have held := h site
  rw [failed] at held
  exact held

theorem upholds_get_bind {f : Site → DirectoryM β} (hf : ∀ site, Upholds R (f site)) :
    Upholds R ((get : DirectoryM Site) >>= f) := fun site => hf site site

namespace Lasting

section

variable (h : Lasting R)

include h

theorem pure (a : α) : Upholds R (pure a) := fun site => h.refl site

theorem throw (e : StoreError) : Upholds R (throw e : DirectoryM α) := fun site => h.refl site

theorem bind (hx : Upholds R x) (hf : ∀ a, Upholds R (f a)) : Upholds R (x >>= f) := by
  intro site
  cases result : x site with
  | ok a site' =>
    rw [bind_ok result]
    exact h.trans (hx.of_ok result) (hf a site')
  | error e site' =>
    rw [bind_error result]
    exact hx.of_error result

omit h in
theorem discard (hx : Upholds R x) : Upholds R (Functor.discard x) := by
  intro site
  cases result : x site with
  | ok a site' =>
    rw [discard_ok result]
    exact hx.of_ok result
  | error e site' =>
    rw [discard_error result]
    exact hx.of_error result

theorem tryCatch {handler : StoreError → DirectoryM α} (hx : Upholds R x)
    (hh : ∀ e, Upholds R (handler e)) : Upholds R (tryCatch x handler) := by
  intro site
  cases result : x site with
  | ok a site' =>
    rw [tryCatch_ok result]
    exact hx.of_ok result
  | error e site' =>
    rw [tryCatch_error result]
    exact h.trans (hx.of_error result) (hh e site')

theorem mapM {l : List α} {g : α → DirectoryM β} (hg : ∀ a, Upholds R (g a)) :
    Upholds R (l.mapM g) := by
  induction l with
  | nil =>
    rw [List.mapM_nil]
    exact h.pure []
  | cons a l ih =>
    rw [List.mapM_cons]
    apply h.bind (hg a)
    intro b
    apply h.bind ih
    intro bs
    exact h.pure (b :: bs)

theorem forM {l : List α} {g : α → DirectoryM PUnit} (hg : ∀ a, Upholds R (g a)) :
    Upholds R (l.forM g) := by
  induction l with
  | nil => exact h.pure ()
  | cons a l ih =>
    apply h.bind (hg a)
    intro _
    exact ih

end

end Lasting

end

namespace Directory

variable {R : Site → Site → Prop}

/-! ## Looking things up -/

section

variable (h : Lasting R)

include h

theorem upholds_checked {α : Type} (answer : Except StoreError α) :
    Upholds R (checked answer) := by
  unfold checked
  cases answer with
  | ok a => exact h.pure a
  | error e =>
    cases e with
    | dataIntegrity violation =>
      have reported : Upholds R (liftM (Host.report (.integrityViolated violation))) :=
        fun site => h.reported site _
      apply h.bind reported
      intro _
      exact h.throw _
    | _ => exact h.throw _

theorem upholds_current (path : String) : Upholds R (current path) := by
  apply upholds_get_bind
  intro site
  exact upholds_checked h _

theorem upholds_latestWithParentHead? (path : String) :
    Upholds R (latestWithParentHead? path) := by
  apply h.bind (upholds_current h path)
  intro row
  cases row with
  | none => exact h.pure none
  | some row =>
    cases above : Path.parent? path with
    | none => exact h.pure _
    | some parent =>
      apply h.bind (upholds_current h parent)
      intro parentRow
      cases parentRow with
      | none => exact upholds_checked h _
      | some parentRow => exact h.pure _

theorem upholds_latest? (path : String) : Upholds R (latest? path) := by
  apply h.bind (upholds_latestWithParentHead? h path)
  intro found
  exact h.pure _

theorem upholds_latestWithStanding? (path : String) :
    Upholds R (latestWithStanding? path) := by
  apply h.bind (upholds_latestWithParentHead? h path)
  intro found
  exact h.pure _

theorem upholds_latest (path : String) : Upholds R (latest path) := by
  apply h.bind (upholds_latest? h path)
  intro row
  cases row with
  | none => exact h.throw _
  | some row => exact h.pure row

theorem upholds_hasBranch (path : String) : Upholds R (hasBranch path) := by
  apply h.bind (upholds_current h path)
  intro row
  exact h.pure _

theorem upholds_isUnchanged (path : String) (base head : Timepoint) :
    Upholds R (isUnchanged path base head) := by
  apply h.bind (upholds_latest h path)
  intro row
  exact h.pure _

theorem upholds_rowAt (path : String) (t : Timepoint) : Upholds R (rowAt path t) := by
  have looked : Upholds R (fromHistory? (Path.flatten path, t)) := fun site => h.looked site _
  apply h.bind looked
  intro found
  cases found with
  | some row => exact h.pure row
  | none =>
    apply upholds_get_bind
    intro site
    apply h.bind (upholds_checked h _)
    intro row
    cases row with
    | none => exact h.throw _
    | some row =>
      cases current : row.isCurrent with
      | true =>
        simp only [current]
        exact h.pure row
      | false =>
        simp only [current]
        have added : Upholds R (addToHistory (Path.flatten path, t) row) :=
          fun site => h.looked site _
        apply h.bind added
        intro _
        exact h.pure row

theorem upholds_tick : Upholds R tick := h.ticked

theorem upholds_inheritedBase (path : String) (t : Timepoint) :
    Upholds R (create.inheritedBase path t) := by
  unfold create.inheritedBase
  cases Path.parent? path with
  | none => exact h.pure t
  | some parent =>
    apply h.bind (upholds_current h parent)
    intro row
    cases row with
    | none => exact h.throw _
    | some row => exact h.pure row.head

theorem upholds_heldRow (commit : Commit) : Upholds R (heldRow commit) := by
  apply h.bind (upholds_current h _)
  intro row
  cases row with
  | none => exact h.throw _
  | some row =>
    by_cases held : row.locked ∧ row.start = commit.branch.start
    · simp only [held]
      exact h.pure row
    · simp only [held]
      apply h.bind (h.throw _)
      intro _
      exact h.pure row

theorem upholds_heldSource (commit : Commit) (source : String) :
    Upholds R (heldSource commit source) := by
  apply h.bind (upholds_current h source)
  intro row
  cases row with
  | none => exact h.throw _
  | some row =>
    apply upholds_get_bind
    intro site
    by_cases held : row.locked ∧
        site.directory.openCommits.get? source = some commit.timepoint
    · simp only [held]
      exact h.pure row
    · simp only [held]
      apply h.bind (h.throw _)
      intro _
      exact h.pure row

theorem upholds_toCreate (path : String) : Upholds R (toCreate path) := by
  apply h.bind (upholds_checked h _)
  intro _
  apply h.bind (upholds_tick h)
  intro t
  apply h.bind (upholds_current h path)
  intro found
  cases found with
  | some row => exact h.throw _
  | none =>
    apply h.bind (upholds_inheritedBase h path t)
    intro base
    exact h.pure _

theorem upholds_toLock (path : String) : Upholds R (toLock path) := by
  apply h.bind (upholds_latest h path)
  intro row
  split
  · exact h.throw _
  · exact h.pure _

theorem upholds_toRelease (path : String) : Upholds R (toRelease path) := by
  apply h.bind (upholds_current h path)
  intro row
  cases row with
  | none => exact h.throw _
  | some row => exact h.pure row

theorem upholds_toComplete (commit : Commit) : Upholds R (toComplete commit) := by
  unfold toComplete
  apply upholds_get_bind
  intro site
  split
  · split
    · exact h.throw _
    · apply h.bind (upholds_heldRow h commit)
      intro row
      split
      · exact h.pure _
      · rename_i source _
        apply h.bind (upholds_heldSource h commit source)
        intro sourceRow
        exact h.pure _
  · exact h.throw _

end

/-! ## Storing rows -/

section

variable (h : Lasting.Always R)

include h

theorem upholds_announce (event : Event) : Upholds R (announce event) :=
  fun site => h.announced site event

theorem upholds_setOpenCommits (openCommits : OrderedMap String Timepoint) :
    Upholds R (setOpenCommits openCommits) := fun site => h.withOpenCommits site openCommits

theorem upholds_persist (index : RowIndex) : Upholds R (persist index) := by
  intro site
  have held := h.persisted site index
  rw [persist_eq]
  generalize site.persisted index = result at held ⊢
  cases result with
  | ok a host => exact held
  | error e host => exact held

theorem upholds_writeRows (batch : List BranchRow) : Upholds R (writeRows batch) := by
  apply upholds_get_bind
  intro site
  apply h.bind (upholds_persist h _)
  intro _ site'
  exact h.withIndex site' _

theorem upholds_storing {α β : Type} {find : DirectoryM α} {batch : α → List BranchRow}
    {tell : α → DirectoryM β} (hf : Upholds R find) (ht : ∀ a, Upholds R (tell a)) :
    Upholds R (storing find batch tell) := by
  apply h.bind hf
  intro a
  apply h.bind (upholds_writeRows h _)
  intro _
  exact ht a

theorem upholds_create (path : String) : Upholds R (create path) := by
  rw [create_eq]
  apply upholds_storing h (upholds_toCreate h.toLasting path)
  intro row
  apply h.bind (upholds_announce h _)
  intro _
  exact h.pure row

theorem upholds_lock (path : String) : Upholds R (lock path) := by
  rw [lock_eq]
  apply upholds_storing h (upholds_toLock h.toLasting path)
  intro row
  apply h.bind (upholds_announce h _)
  intro _
  exact h.pure row

theorem upholds_release (path : String) : Upholds R (release path) := by
  rw [release_eq]
  apply upholds_storing h (upholds_toRelease h.toLasting path)
  intro row
  exact h.pure _

theorem upholds_releaseAnnounced (path : String) : Upholds R (releaseAnnounced path) := by
  intro site
  have held := upholds_release h path site
  rw [releaseAnnounced_eq]
  generalize release path site = result at held ⊢
  cases result with
  | ok locked site' => exact h.trans held (h.announced site' _)
  | error e site' => exact held

theorem upholds_unlock (path : String) : Upholds R (unlock path) := by
  apply upholds_get_bind
  intro site
  cases site.directory.openCommits.get? path with
  | some t => exact h.throw _
  | none => exact upholds_releaseAnnounced h path

theorem upholds_abandon (path : String) : Upholds R (forceUnlock.abandon path) := by
  apply upholds_get_bind
  intro site
  simp only
  split
  · exact h.pure []
  · apply h.bind (upholds_setOpenCommits h _)
    intro _
    apply h.mapM
    intro partner
    apply upholds_get_bind
    intro site'
    apply h.bind (upholds_setOpenCommits h _)
    intro _
    apply h.bind (upholds_release h partner.1)
    intro wasLocked
    exact h.pure _

theorem upholds_afterRelease (path : String) (wasLocked : Bool) : Upholds R (do
    let others ← forceUnlock.abandon path
    ((path, wasLocked) :: others).forM fun (path, wasLocked) => do
      Host.report (.forcedUnlock path wasLocked)
      announce (.unlocked path true) : DirectoryM Unit) := by
  apply h.bind (upholds_abandon h path)
  intro others
  apply h.forM
  intro released
  have reported : Upholds R (liftM (Host.report (.forcedUnlock released.1 released.2))) :=
    fun site => h.reported site _
  apply h.bind reported
  intro _
  exact upholds_announce h _

theorem upholds_forceUnlock (path : String) : Upholds R (forceUnlock path) :=
  h.bind (upholds_release h path) fun wasLocked => upholds_afterRelease h path wasLocked

theorem upholds_giveBack {α : Type} (path : String) (e : StoreError) :
    Upholds R (giveBack path e : DirectoryM α) := by
  apply h.bind (upholds_releaseAnnounced h path)
  intro _
  exact h.throw e

theorem upholds_rebased (path : String) (kind : CommitKind) (row : BranchRow) (t : Timepoint) :
    Upholds R (openCommit.rebased path kind row t) := by
  by_cases other : kind ≠ .rebase ∨ Path.parent? path = none
  · rw [rebased_of_other row t other]
    exact h.pure _
  · simp only [not_or, not_not, ← ne_eq, Option.ne_none_iff_exists'] at other
    obtain ⟨rfl, parent, above⟩ := other
    rw [rebased_of_parent above]
    apply h.tryCatch
    · apply h.bind (upholds_rowAt h.toLasting parent t)
      intro parentRow
      exact h.pure _
    · exact upholds_giveBack h path

theorem upholds_afterLock (path : String) (kind : CommitKind) (t : Timepoint) (row : BranchRow) :
    Upholds R (do
      let base ← openCommit.rebased path kind row t
      setOpenCommits ((← get).directory.openCommits.insert path t)
      return ({ branch := { row with base }, timepoint := t, kind } : Commit)) := by
  apply h.bind (upholds_rebased h path kind row t)
  intro base
  apply upholds_get_bind
  intro site
  apply h.bind (upholds_setOpenCommits h _)
  intro _
  exact h.pure _

theorem upholds_openCommit (path : String) (kind : CommitKind) :
    Upholds R (openCommit path kind) := by
  apply h.bind (upholds_tick h.toLasting)
  intro t
  apply h.bind (upholds_lock h path)
  intro row
  exact upholds_afterLock h path kind t row

theorem upholds_afterFirstLock (path source : String) (t : Timepoint) (row : BranchRow) :
    Upholds R (do
      tryCatch (discard (lock source)) (giveBack path)
      setOpenCommits (((← get).directory.openCommits.insert path t).insert source t)
      return ({ branch := row, timepoint := t, kind := .promotion, source := some source } :
        Commit)) := by
  have both : Upholds R (tryCatch (discard (lock source)) (giveBack path)) :=
    h.tryCatch (Lasting.discard (upholds_lock h source)) (upholds_giveBack h path)
  apply h.bind both
  intro _
  apply upholds_get_bind
  intro site
  apply h.bind (upholds_setOpenCommits h _)
  intro _
  exact h.pure _

theorem upholds_openPromotion (path source : String) : Upholds R (openPromotion path source) := by
  unfold openPromotion
  split
  · exact h.throw _
  · apply h.bind (upholds_tick h.toLasting)
    intro t
    apply h.bind (upholds_lock h path)
    intro row
    exact upholds_afterFirstLock h path source t row

theorem upholds_conclude (commit : Commit) (row : BranchRow) :
    Upholds R (conclude commit row) := by
  apply upholds_get_bind
  intro site
  apply h.bind (upholds_setOpenCommits h _)
  intro _
  apply h.bind (upholds_announce h _)
  intro _
  exact h.pure row

theorem upholds_complete (commit : Commit) : Upholds R (complete commit) := by
  rw [complete_eq]
  apply upholds_storing h (upholds_toComplete h.toLasting commit)
  intro p
  exact upholds_conclude h commit p.1

theorem upholds_purge : Upholds R purge := by
  apply upholds_get_bind
  intro site
  apply h.bind (upholds_persist h _)
  intro _
  have emptied : Upholds R (modify purged) := by
    intro site
    apply h.trans (h.withIndex site {})
    apply h.trans (h.withOpenCommits _ ∅)
    exact h.looked _ _
  apply h.bind emptied
  intro _
  have reported : Upholds R (liftM (Host.report (.purged site.directory.rowCount))) :=
    fun site => h.reported site _
  apply h.bind reported
  intro _
  apply h.bind (upholds_announce h _)
  intro _
  exact h.pure _

theorem upholds_save : Upholds R save := by
  apply upholds_get_bind
  intro site
  exact upholds_persist h _

theorem upholds_perform {α : Type} (op : Operation α) : Upholds R op.perform := by
  cases op with
  | create path => exact upholds_create h path
  | lock path => exact upholds_lock h path
  | unlock path => exact upholds_unlock h path
  | forceUnlock path => exact upholds_forceUnlock h path
  | openCommit path kind => exact upholds_openCommit h path kind
  | openPromotion path source => exact upholds_openPromotion h path source
  | complete commit => exact upholds_complete h commit
  | purge => exact upholds_purge h
  | save => exact upholds_save h
  | latest? path => exact upholds_latest? h.toLasting path
  | latestWithStanding? path => exact upholds_latestWithStanding? h.toLasting path
  | latest path => exact upholds_latest h.toLasting path
  | hasBranch path => exact upholds_hasBranch h.toLasting path
  | rowAt path t => exact upholds_rowAt h.toLasting path t
  | isUnchanged path base head => exact upholds_isUnchanged h.toLasting path base head
  | branches => exact upholds_get_bind fun _ => h.pure _
  | descendants path => exact upholds_get_bind fun _ => h.pure _
  | rowCount => exact upholds_get_bind fun _ => h.pure _
  | timeline path => exact upholds_get_bind fun _ => h.pure _

end

end Directory

/-! ## Where a directory is kept -/

namespace Site

/--
The directory is kept in the same place: a file that was there still is, and it can be written if
and only if it could be before.
-/
structure SameHome (site site' : Site) : Prop where
  file : site'.directory.file = site.directory.file
  directories : site.host.disk.SameDirectories site'.host.disk
  there : ∀ name, site.directory.file = some name → site.host.disk.contains name = true →
    site'.host.disk.contains name = true

/--
The file of the directory can be written. A directory in memory always can.
-/
def Writable (site : Site) : Prop :=
  ∀ name, site.directory.file = some name → site.host.disk.Replaceable name

theorem SameHome.writable_iff {site site' : Site} (h : site.SameHome site') :
    site'.Writable ↔ site.Writable := by
  unfold Writable
  rw [h.file]
  constructor
  · intro writable name hf
    exact (writable name hf).of_sameDirectories h.directories.symm
  · intro writable name hf
    exact (writable name hf).of_sameDirectories h.directories

theorem persisted_ok_iff (site : Site) (index : RowIndex) :
    (∃ host, site.persisted index = .ok () host) ↔ site.Writable := by
  unfold persisted Writable
  cases hf : site.directory.file with
  | none => simp
  | some name =>
    simp only [Option.some.injEq, forall_eq']
    apply Host.replaceFile_ok_iff

theorem writable_of_persisted_ok {site : Site} {index : RowIndex} {host : Host}
    (h : site.persisted index = .ok () host) : site.Writable :=
  (persisted_ok_iff site index).1 ⟨host, h⟩

theorem sameHome_of_disk_eq {site site' : Site} (disk : site'.host.disk = site.host.disk)
    (file : site'.directory.file = site.directory.file) : site.SameHome site' where
  file := file
  directories := by
    rw [disk]
    exact .refl _
  there := by
    intro name _ there
    rw [disk]
    exact there

theorem sameHome_persisted (site : Site) (index : RowIndex) :
    site.SameHome (site.withHost (afterwards (site.persisted index))) := by
  cases hf : site.directory.file with
  | none =>
    rw [persisted_of_file_eq_none hf]
    exact sameHome_of_disk_eq rfl rfl
  | some name =>
    constructor
    · rfl
    · obtain ⟨disk, same, result⟩ := Host.replaceFile_leaves name
        (Record.fileBytes Directory.fileFormat (Record.indexValue index)) site.host
      unfold persisted
      rw [hf]
      simp only [Host.writeRecord]
      rcases result with ok | ⟨e, failed⟩
      · rw [ok]
        exact same
      · rw [failed]
        exact same
    · intro name' hn there
      cases result : site.persisted index with
      | ok a host =>
        exact Disk.contains_of_read (read_of_persisted_ok result hn)
      | error e host =>
        have keeps := (keeps_of_persisted_error result).2 name' hn
        rw [← keeps.contains] at there
        exact there

theorem sameHome_always : Lasting.Always SameHome where
  refl _ := sameHome_of_disk_eq rfl rfl
  trans := by
    intro site site' site'' h h'
    constructor
    · exact h'.file.trans h.file
    · exact h.directories.trans h'.directories
    · intro name hf there
      apply h'.there name _ (h.there name hf there)
      rw [h.file, hf]
  ticked _ := sameHome_of_disk_eq rfl rfl
  reported _ _ := sameHome_of_disk_eq rfl rfl
  looked _ _ := sameHome_of_disk_eq rfl rfl
  announced _ _ := sameHome_of_disk_eq rfl rfl
  withOpenCommits _ _ := sameHome_of_disk_eq rfl rfl
  withIndex _ _ := sameHome_of_disk_eq rfl rfl
  persisted := sameHome_persisted

end Site

end TemporalStore
