import TemporalStore.Proofs.Directory.Failure

/-!
This module contains how a directory in a file compares to one in memory: they give the same answers
and announce the same events, unless the file cannot be written.
-/

namespace TemporalStore

namespace Site

/--
Two directories that differ at most in where they are kept and in what they have at hand of the past.
-/
structure Mirrors (site site' : Site) : Prop where
  index : site'.directory.index = site.directory.index
  openCommits : site'.directory.openCommits = site.directory.openCommits
  clock : site'.directory.clock = site.directory.clock
  events : site'.directory.events = site.directory.events
  wall : site'.host.wall = site.host.wall

def MirrorsWritable (site site' : Site) : Prop :=
  site.Mirrors site' ∧ site.Writable ∧ site'.Writable

theorem mirrors_clocked : Coupling.Clocked Mirrors where
  index same := same.index
  reported _ same := ⟨same.index, same.openCommits, same.clock, same.events, same.wall⟩
  looked _ _ same := ⟨same.index, same.openCommits, same.clock, same.events, same.wall⟩
  openCommits same := same.openCommits
  ticked := by
    intro site site' same
    have clock : site'.ticked.directory.clock = site.ticked.directory.clock := by
      unfold ticked
      rw [same.clock, same.wall]
    exact ⟨⟨same.index, same.openCommits, clock, same.events, same.wall⟩, by rw [clock]⟩

theorem wall_of_persisted_ok {site : Site} {index : RowIndex} {host : Host}
    (h : site.persisted index = .ok () host) : host.wall = site.host.wall := by
  unfold persisted at h
  cases hf : site.directory.file with
  | none =>
    rw [hf] at h
    cases h
    rfl
  | some name =>
    rw [hf] at h
    obtain ⟨disk, rfl, -⟩ := Host.replaceFile_ok h
    rfl

theorem writable_withHost {site : Site} {index : RowIndex} {host : Host} (h : site.Writable)
    (kept : site.persisted index = .ok () host) : (site.withHost host).Writable := by
  have home := sameHome_persisted site index
  rw [kept] at home
  exact home.writable_iff.2 h

theorem mirrorsWritable_always : Coupling.Always MirrorsWritable where
  index same := same.1.index
  reported record same := ⟨mirrors_clocked.reported record same.1, same.2⟩
  looked history history' same := ⟨mirrors_clocked.looked history history' same.1, same.2⟩
  openCommits same := same.1.openCommits
  ticked same := ⟨⟨(mirrors_clocked.ticked same.1).1, same.2⟩, (mirrors_clocked.ticked same.1).2⟩
  announced := by
    intro site site' event same
    have events : (site'.announced event).directory.events =
        (site.announced event).directory.events := by
      unfold announced
      rw [same.1.events]
    exact ⟨⟨same.1.index, same.1.openCommits, same.1.clock, events, same.1.wall⟩, same.2⟩
  withOpenCommits _ same :=
    ⟨⟨same.1.index, rfl, same.1.clock, same.1.events, same.1.wall⟩, same.2⟩
  withIndex _ same := ⟨⟨rfl, same.1.openCommits, same.1.clock, same.1.events, same.1.wall⟩, same.2⟩
  stored := by
    intro site site' index same
    obtain ⟨mirrors, writable, writable'⟩ := same
    obtain ⟨host, kept⟩ := (persisted_ok_iff site index).2 writable
    obtain ⟨host', kept'⟩ := (persisted_ok_iff site' index).2 writable'
    have wall : host'.wall = host.wall := by
      rw [wall_of_persisted_ok kept, wall_of_persisted_ok kept', mirrors.wall]
    exact ⟨host, host', kept, kept',
      ⟨mirrors.index, mirrors.openCommits, mirrors.clock, mirrors.events, wall⟩,
      writable_withHost writable kept, writable_withHost writable' kept'⟩

end Site

namespace Directory

open Site (Mirrors MirrorsWritable mirrors_clocked mirrorsWritable_always)

variable {site site' : Site} {now : Timepoint}

/-! ## Where the file can be written -/

/--
No row that is at hand of the past is changed by a lock.
-/
theorem agrees_of_lock_ok {path : String} {row : BranchRow}
    (valid : site.directory.index.Valid now)
    (agrees : site.directory.history.Agrees site.directory.index)
    (locked : lock path site = .ok row site') :
    site'.directory.index.Valid now ∧
      site'.directory.history.Agrees site'.directory.index := by
  obtain ⟨current, host, -, -, -, -, rfl⟩ := exists_of_lock_ok valid locked
  exact ⟨valid.valid_setLocked path true,
    agrees.keep (valid.keepsHistory_setLocked path true)⟩

theorem matched_openCommit {S : Site → Site → Prop} (h : Coupling.Always S) (same : S site site')
    (valid : site.directory.index.Valid now)
    (agrees : site.directory.history.Agrees site.directory.index)
    (agrees' : site'.directory.history.Agrees site'.directory.index) (path : String)
    (kind : CommitKind) : Matched S (openCommit path kind site) (openCommit path kind site') := by
  have valid' : site'.directory.index.Valid now := by
    rw [h.index same]
    exact valid
  obtain ⟨ticked, time⟩ := h.ticked same
  unfold openCommit
  rw [bind_ok (tick_eq site), bind_ok (tick_eq site'), time]
  apply (coupled_lock h path site.ticked site'.ticked ticked).bind
  intro row middle middle' locked locked' same'
  obtain ⟨validToo, agreesToo⟩ :=
    @agrees_of_lock_ok site.ticked middle now path row valid agrees locked
  obtain ⟨-, agreesToo'⟩ :=
    @agrees_of_lock_ok site'.ticked middle' now path row valid' agrees' locked'
  have based : Matched S
      (openCommit.rebased path kind row site.ticked.directory.clock.last middle)
      (openCommit.rebased path kind row site.ticked.directory.clock.last middle') := by
    by_cases other : kind ≠ .rebase ∨ Path.parent? path = none
    · rw [rebased_of_other row _ other]
      exact .ok row.base same'
    · simp only [not_or, not_not, ← ne_eq, Option.ne_none_iff_exists'] at other
      obtain ⟨rfl, parent, above⟩ := other
      rw [rebased_of_parent above]
      apply Matched.tryCatch
      · apply (matched_rowAt h.toCoupling same' validToo agreesToo agreesToo' parent _).bind
        intro parentRow found found' _ _ same''
        exact .ok _ same''
      · intro e found found' _ _ same''
        exact coupled_giveBack h path e found found' same''
  apply based.bind
  intro base after after' _ _ same''
  have opened : Coupled S (do
      setOpenCommits ((← get).directory.openCommits.insert path
        site.ticked.directory.clock.last)
      return ({ branch := { row with base }, timepoint := site.ticked.directory.clock.last, kind } :
        Commit)) := by
    apply coupled_get_bind
    · intro s s' same
      rw [h.openCommits same]
    · intro s
      apply (coupled_setOpenCommits h _).bind
      intro _
      exact coupled_pure _
  exact opened after after' same''

theorem matched_lookup {S : Site → Site → Prop} (h : Coupling S) (same : S site site')
    (valid : site.directory.index.Valid now)
    (agrees : site.directory.history.Agrees site.directory.index)
    (agrees' : site'.directory.history.Agrees site'.directory.index) {α : Type}
    {op : Operation α} (looks : ¬ op.Stores) : Matched S (op.perform site) (op.perform site') := by
  cases op with
  | latest? path => exact coupled_latest? h path _ _ same
  | latestWithStanding? path => exact coupled_latestWithStanding? h path _ _ same
  | latest path => exact coupled_latest h path _ _ same
  | hasBranch path => exact coupled_hasBranch h path _ _ same
  | rowAt path t => exact matched_rowAt h same valid agrees agrees' path t
  | isUnchanged path base head => exact coupled_isUnchanged h path base head _ _ same
  | branches =>
    exact coupled_rows h (fun index => sortByKey BranchRow.path index.currentRows) _ _ same
  | descendants path =>
    exact coupled_rows h (fun index => sortByKey BranchRow.path
      (index.currentRows.filter (Path.isDescendant path ·.path))) _ _ same
  | rowCount => exact coupled_rows h RowIndex.rowCount _ _ same
  | timeline path => exact coupled_rows h (RowIndex.timeline · path) _ _ same
  | _ => exact absurd trivial looks

theorem matched_perform {S : Site → Site → Prop} (h : Coupling.Always S) (same : S site site')
    (valid : site.directory.index.Valid now)
    (agrees : site.directory.history.Agrees site.directory.index)
    (agrees' : site'.directory.history.Agrees site'.directory.index) {α : Type}
    (op : Operation α) : Matched S (op.perform site) (op.perform site') := by
  by_cases stores : op.Stores
  · cases op with
    | create path => exact coupled_create h path _ _ same
    | lock path => exact coupled_lock h path _ _ same
    | unlock path => exact coupled_unlock h path _ _ same
    | forceUnlock path => exact coupled_forceUnlock h path _ _ same
    | openCommit path kind => exact matched_openCommit h same valid agrees agrees' path kind
    | openPromotion path source => exact coupled_openPromotion h path source _ _ same
    | complete commit => exact coupled_complete h commit _ _ same
    | purge => exact coupled_purge h _ _ same
    | save => exact coupled_save h _ _ same
    | _ => exact stores.elim
  · exact matched_lookup h.toCoupling same valid agrees agrees' stores

/-! ## Where it cannot -/

/--
Where the file cannot be written, the operation fails: as it would have failed in memory, or because
of the file.
-/
def Blocked {α : Type} (x : DirectoryM α) : Prop :=
  ∀ site site', site.Mirrors site' → ¬ site.Writable →
    (∃ e after after', x site = .error e after ∧ x site' = .error e after' ∧
      after.Mirrors after') ∨
    ∃ cause after, x site = .error (.io cause) after

section

variable {α β : Type} {x : DirectoryM α} {f : α → DirectoryM β}

theorem blocked_throw (e : StoreError) : Blocked (throw e : DirectoryM α) :=
  fun site site' same _ => .inl ⟨e, site, site', rfl, rfl, same⟩

theorem Blocked.bind (h : Blocked x) (f : α → DirectoryM β) : Blocked (x >>= f) := by
  intro site site' same unwritable
  rcases h site site' same unwritable with ⟨e, after, after', failed, failed', same'⟩ |
    ⟨cause, after, failed⟩
  · exact .inl ⟨e, after, after', bind_error failed, bind_error failed', same'⟩
  · exact .inr ⟨cause, after, bind_error failed⟩

theorem Blocked.discard (h : Blocked x) : Blocked (discard x) := by
  intro site site' same unwritable
  rcases h site site' same unwritable with ⟨e, after, after', failed, failed', same'⟩ |
    ⟨cause, after, failed⟩
  · exact .inl ⟨e, after, after', discard_error failed, discard_error failed', same'⟩
  · exact .inr ⟨cause, after, discard_error failed⟩

theorem blocked_bind (hx : Coupled Mirrors x) (home : Upholds Site.SameHome x)
    (hf : ∀ a, Blocked (f a)) : Blocked (x >>= f) := by
  intro site site' same unwritable
  have matched := hx site site' same
  cases result : x site with
  | ok a middle =>
    cases result' : x site' with
    | ok a' middle' =>
      rw [result, result'] at matched
      rw [bind_ok result, bind_ok result']
      cases matched with
      | ok _ same' =>
        apply hf a middle middle' same'
        rw [(home.of_ok result).writable_iff]
        exact unwritable
    | error e middle' =>
      rw [result, result'] at matched
      cases matched
  | error e middle =>
    cases result' : x site' with
    | ok a middle' =>
      rw [result, result'] at matched
      cases matched
    | error e' middle' =>
      rw [result, result'] at matched
      cases matched with
      | error _ same' => exact .inl ⟨e, middle, middle', bind_error result, bind_error result', same'⟩

theorem blocked_get_bind {f : Site → DirectoryM β} (alike : ∀ site site', site.Mirrors site' →
    f site' = f site) (hf : ∀ site, Blocked (f site)) :
    Blocked ((get : DirectoryM Site) >>= f) := by
  intro site site' same
  rw [get_bind, get_bind, alike site site' same]
  exact hf site site site' same

theorem blocked_persist (index : RowIndex) : Blocked (persist index) := by
  intro site site' _ unwritable
  cases kept : site.persisted index with
  | ok a host => exact absurd (Site.writable_of_persisted_ok kept) unwritable
  | error e host =>
    obtain ⟨⟨cause, rfl⟩, -⟩ := Site.keeps_of_persisted_error kept
    exact .inr ⟨cause, _, persist_error kept⟩

theorem blocked_writeRows (batch : List BranchRow) : Blocked (writeRows batch) := by
  apply blocked_get_bind
  · intro site site' same
    rw [same.index]
  · intro site
    exact (blocked_persist _).bind _

theorem blocked_storing {find : DirectoryM α} {batch : α → List BranchRow}
    {tell : α → DirectoryM β} (hf : Coupled Mirrors find) (home : Upholds Site.SameHome find) :
    Blocked (storing find batch tell) := by
  apply blocked_bind hf home
  intro a
  exact (blocked_writeRows _).bind _

end

theorem blocked_lock (path : String) : Blocked (lock path) := by
  rw [lock_eq]
  exact blocked_storing (coupled_toLock mirrors_clocked.toCoupling path)
    (upholds_toLock Site.sameHome_always.toLasting path)

theorem blocked_release (path : String) : Blocked (release path) := by
  rw [release_eq]
  exact blocked_storing (coupled_toRelease mirrors_clocked.toCoupling path)
    (upholds_toRelease Site.sameHome_always.toLasting path)

theorem blocked_afterTick {α : Type} {f : Timepoint → DirectoryM α} (hf : ∀ t, Blocked (f t)) :
    Blocked (tick >>= f) :=
  blocked_bind (coupled_tick mirrors_clocked) (upholds_tick Site.sameHome_always.toLasting) hf

theorem blocked_create (path : String) : Blocked (create path) := by
  rw [create_eq]
  exact blocked_storing (coupled_toCreate mirrors_clocked path)
    (upholds_toCreate Site.sameHome_always.toLasting path)

theorem blocked_unlock (path : String) : Blocked (unlock path) := by
  apply blocked_get_bind
  · intro site site' same
    rw [same.openCommits]
  · intro site
    split
    · exact blocked_throw _
    · exact (blocked_release path).discard.bind _

theorem blocked_openPromotion (path source : String) : Blocked (openPromotion path source) := by
  unfold openPromotion
  split
  · exact blocked_throw _
  · exact blocked_afterTick fun t => (blocked_lock path).bind _

theorem blocked_complete (commit : Commit) : Blocked (complete commit) := by
  rw [complete_eq]
  exact blocked_storing (coupled_toComplete mirrors_clocked.toCommitted commit)
    (upholds_toComplete Site.sameHome_always.toLasting commit)

theorem blocked_purge : Blocked purge := by
  apply blocked_get_bind
  · intro site site' same
    have counts : site'.directory.rowCount = site.directory.rowCount := by
      unfold rowCount
      rw [same.index]
    rw [counts]
  · intro site
    exact (blocked_persist _).bind _

theorem blocked_save : Blocked save := by
  apply blocked_get_bind
  · intro site site' same
    rw [same.index]
  · intro site
    exact blocked_persist _

theorem blocked_perform {α : Type} {op : Operation α} (stores : op.Stores) :
    Blocked op.perform := by
  cases op with
  | create path => exact blocked_create path
  | lock path => exact blocked_lock path
  | unlock path => exact blocked_unlock path
  | forceUnlock path => exact (blocked_release path).bind _
  | openCommit path kind => exact blocked_afterTick fun t => (blocked_lock path).bind _
  | openPromotion path source => exact blocked_openPromotion path source
  | complete commit => exact blocked_complete commit
  | purge => exact blocked_purge
  | save => exact blocked_save
  | _ => exact stores.elim

/--
Whatever is asked of both, either a directory in a file does what one in memory does, or its file
cannot be written and this is the reason it gives.
-/
theorem matched_or_io {site site' : Site} {commits commits' : List Commit} (same : site.Mirrors site')
    (sound : site.Sound commits) (sound' : site'.Sound commits') (memory : site'.Writable)
    {α : Type} (op : Operation α) :
    Matched Mirrors (op.perform site) (op.perform site') ∨
      (¬ site.Writable ∧ ∃ cause after, op.perform site = .error (.io cause) after) := by
  by_cases writable : site.Writable
  · left
    exact (matched_perform mirrorsWritable_always ⟨same, writable, memory⟩
      sound.consistent.valid sound.agrees sound'.agrees op).mono fun same => same.1
  · by_cases stores : op.Stores
    · rcases blocked_perform stores site site' same writable with
        ⟨e, after, after', failed, failed', same'⟩ | io
      · left
        rw [failed, failed']
        exact .error e same'
      · exact .inr ⟨writable, io⟩
    · left
      exact matched_lookup mirrors_clocked.toCoupling same sound.consistent.valid sound.agrees
        sound'.agrees stores

end Directory

end TemporalStore
