import TemporalStore.Proofs.Directory.Failure

/-!
This module contains what subscribers are told of each operation on a directory: of every change to
the rows, in the order in which the changes are made.
-/

namespace TemporalStore

/--
The branch of which an event tells besides the one that it is filed under.
-/
def Event.source? : Event → Option String
  | .completed _ _ _ source => source
  | _ => none

/--
Events without a branch concern every branch.
-/
def Event.Concerns (event : Event) (path : String) : Prop :=
  event.path? = none ∨ event.path? = some path ∨ event.source? = some path

namespace Directory

/--
One change to the rows, and the event that tells of it.
-/
inductive Announcement : RowIndex → Event → RowIndex → Prop where
  | created (index : RowIndex) (path : String) (base t : Timepoint) (valid : Path.Valid path) :
    Announcement index (.created path base t) (index.put path [BranchRow.fresh path base t])
  | locked (index : RowIndex) (path : String) (row : BranchRow) (valid : Path.Valid path)
    (last : index.last? path = some row) :
    Announcement index (.locked path) (index.setLocked path true)
  | unlocked (index : RowIndex) (path : String) (row : BranchRow) (byForce : Bool)
    (valid : Path.Valid path) (last : index.last? path = some row) :
    Announcement index (.unlocked path byForce) (index.setLocked path false)
  | completed (index : RowIndex) (commit : Commit) (row : BranchRow)
    (valid : Path.Valid commit.branchPath) (last : index.last? commit.branchPath = some row)
    (single : commit.source = none) :
    Announcement index (.completed commit.branchPath commit.timepoint commit.kind commit.source)
      (completedIndex index commit row)
  | promoted (index : RowIndex) (commit : Commit) (row : BranchRow) (source : String)
    (sourceRow : BranchRow) (valid : Path.Valid commit.branchPath)
    (last : index.last? commit.branchPath = some row) (double : commit.source = some source)
    (validSource : Path.Valid source) (distinct : source ≠ commit.branchPath)
    (sourceLast : index.last? source = some sourceRow) :
    Announcement index (.completed commit.branchPath commit.timepoint commit.kind commit.source)
      (promotedIndex index commit row source sourceRow)
  | purged (index : RowIndex) (rows : Nat) : Announcement index (.purged rows) {}

inductive Announcements : RowIndex → List Event → RowIndex → Prop where
  | nil (index : RowIndex) : Announcements index [] index
  | cons {index middle index' : RowIndex} {event : Event} {told : List Event}
    (first : Announcement index event middle) (rest : Announcements middle told index') :
    Announcements index (event :: told) index'

end Directory

open Directory

/--
Subscribers have been told of what has become of the rows, and of nothing else.
-/
structure Site.Tells (site : Site) (told : List Event) (site' : Site) : Prop where
  events : site'.directory.events = told.foldl Broadcaster.broadcast site.directory.events
  rows : Announcements site.directory.index told site'.directory.index

/--
Every event that subscribers have been told of concerns the one branch that it is filed under.
-/
def Site.TellsPlainly (site site' : Site) : Prop :=
  ∃ told, site.Tells told site' ∧ ∀ event ∈ told, event.source? = none

namespace Directory

section

variable {index middle index' : RowIndex} {event other : Event} {path : String}

theorem Announcement.single (first : Announcement index event index') :
    Announcements index [event] index' :=
  .cons first (.nil index')

theorem Announcement.pair (first : Announcement index event middle)
    (second : Announcement middle other index') : Announcements index [event, other] index' :=
  .cons first second.single

/--
The current row of a branch does not change unless that is told of.
-/
theorem Announcement.last?_eq (h : Announcement index event index') (hp : Path.Valid path)
    (other : ¬ event.Concerns path) : index'.last? path = index.last? path := by
  unfold Event.Concerns at other
  rw [not_or, not_or] at other
  obtain ⟨notAll, notPath, notSource⟩ := other
  cases h with
  | created q base t hq =>
    rw [RowIndex.last?_put_singleton index _ hq hp, if_neg]
    exact fun same => notPath (congrArg some same.symm)
  | locked q row hq last =>
    rw [RowIndex.last?_setLocked index true hq hp, if_neg]
    exact fun same => notPath (congrArg some same.symm)
  | unlocked q row byForce hq last =>
    rw [RowIndex.last?_setLocked index false hq hp, if_neg]
    exact fun same => notPath (congrArg some same.symm)
  | completed commit row hq last single =>
    apply RowIndex.last?_advance_of_ne index _ _ hq hp
    exact fun same => notPath (congrArg some same.symm)
  | promoted commit row source sourceRow hq last double hs distinct sourceLast =>
    rw [last?_promotedIndex row sourceRow hq hs hp, if_neg, if_neg]
    · exact fun same => notPath (congrArg some same.symm)
    · exact fun same => notSource (same ▸ double)
  | purged rows => exact absurd rfl notAll

theorem Announcements.exists_concerns {told : List Event} (h : Announcements index told index')
    (hp : Path.Valid path) (changed : index'.last? path ≠ index.last? path) :
    ∃ event ∈ told, event.Concerns path := by
  induction h with
  | nil index => exact absurd rfl changed
  | @cons index middle index' event told first rest ih =>
    by_cases concerns : event.Concerns path
    · exact ⟨event, List.mem_cons_self, concerns⟩
    · rw [← first.last?_eq hp concerns] at changed
      obtain ⟨event, mem, concerns⟩ := ih changed
      exact ⟨event, List.mem_cons_of_mem _ mem, concerns⟩

end

section

variable {site site' : Site}

theorem tells_nil (events : site'.directory.events = site.directory.events)
    (index : site'.directory.index = site.directory.index) : site.Tells [] site' := by
  refine ⟨events, ?_⟩
  rw [index]
  exact .nil _

theorem tells_nothing (events : site'.directory.events = site.directory.events)
    (index : site'.directory.index = site.directory.index) : site.TellsPlainly site' :=
  ⟨[], tells_nil events index, by simp⟩

theorem tells_of_rests (rests : site.Rests site' []) : site.TellsPlainly site' :=
  tells_nothing rests.events rests.index

theorem tells_one {event : Event} (events : site'.directory.events =
      site.directory.events.broadcast event)
    (first : Announcement site.directory.index event site'.directory.index)
    (plain : event.source? = none) : site.TellsPlainly site' :=
  ⟨[event], ⟨events, first.single⟩, by simpa using plain⟩

theorem tells_two {event other : Event} (events : site'.directory.events =
      (site.directory.events.broadcast event).broadcast other) {middle : RowIndex}
    (first : Announcement site.directory.index event middle)
    (second : Announcement middle other site'.directory.index)
    (plain : event.source? = none ∧ other.source? = none) : site.TellsPlainly site' :=
  ⟨[event, other], ⟨events, first.pair second⟩, by simpa using plain⟩

end

section

variable {site : Site} {commits : List Commit} {path : String} {now : Timepoint}

theorem tells_create (h : site.directory.index.Valid now) (hp : Path.Valid path) :
    site.TellsPlainly (afterwards (create path site)) := by
  have out := create_outcome h hp
  generalize create path site = result at out ⊢
  cases out with
  | existing row last => exact tells_nothing rfl rfl
  | orphan parent last above missing => exact tells_nothing rfl rfl
  | refused base e host last inherits kept => exact tells_nothing rfl rfl
  | created base host last inherits kept => exact tells_one rfl (.created _ _ _ _ hp) rfl

theorem events_of_lock_error {e : StoreError} {site' : Site}
    (out : LockOutcome path site (.error e site')) :
    site'.directory.events = site.directory.events := by
  cases out with
  | absent last => rfl
  | held row last locked => rfl
  | refused row e host last unlocked kept => rfl

theorem tells_of_lock_error {e : StoreError} {site' : Site}
    (out : LockOutcome path site.ticked (.error e site')) : site.TellsPlainly site' := by
  have events := events_of_lock_error out
  have index := out.index_of_error
  exact tells_nothing events index

theorem tells_lock (h : site.directory.index.Valid now) (hp : Path.Valid path) :
    site.TellsPlainly (afterwards (lock path site)) := by
  have out := lock_outcome h hp
  generalize lock path site = result at out ⊢
  cases out with
  | absent last => exact tells_nothing rfl rfl
  | held row last locked => exact tells_nothing rfl rfl
  | refused row e host last unlocked kept => exact tells_nothing rfl rfl
  | taken row host last unlocked kept => exact tells_one rfl (.locked _ _ row hp last) rfl

theorem tells_unlock (h : site.directory.index.Valid now) (hp : Path.Valid path) :
    site.TellsPlainly (afterwards (unlock path site)) := by
  cases entry : site.directory.openCommits.get? path with
  | some t =>
    rw [unlock_of_open entry]
    exact tells_nothing rfl rfl
  | none =>
    have out := release_outcome h hp
    rw [unlock_of_free entry, releaseAnnounced_eq]
    generalize release path site = result at out ⊢
    cases out with
    | absent last => exact tells_nothing rfl rfl
    | refused row e host last kept => exact tells_nothing rfl rfl
    | done row host last kept => exact tells_one rfl (.unlocked _ _ row false hp last) rfl

/--
Both branches are unlocked before anyone hears of the first, and everyone hears of both.
-/
theorem tells_forceUnlock (sound : site.Sound commits) (hp : Path.Valid path) :
    site.TellsPlainly (afterwards (forceUnlock path site)) := by
  have consistent := sound.consistent
  have out := forceUnlock_outcome consistent.valid hp (partners_of_consistent consistent path)
  cases result : forceUnlock path site with
  | error e site' =>
    have refused := release_error_of_forceUnlock_error sound result
    exact tells_of_rests (retreats_release path refused)
  | ok u site' =>
    rw [result] at out
    cases out with
    | alone row host last kept others =>
      exact tells_one rfl (.unlocked _ _ row true hp last) rfl
    | together row host partner t other host' last kept others last' kept' =>
      have hq := consistent.valid_of_entry (get?_of_partners others).2.1
      exact tells_two rfl (.unlocked _ _ row true hp last) (.unlocked _ _ other true hq last')
        ⟨rfl, rfl⟩

theorem tells_openCommit (h : site.directory.index.Valid site.directory.clock.last)
    (agrees : site.directory.history.Agrees site.directory.index) (hp : Path.Valid path)
    (kind : CommitKind) : site.TellsPlainly (afterwards (openCommit path kind site)) := by
  have out := openCommit_outcome h agrees hp kind
  generalize openCommit path kind site = result at out ⊢
  cases out with
  | notLocked e site' lock => exact tells_of_lock_error lock
  | opened row host history last unlocked kept agrees =>
    exact tells_one rfl (.locked _ _ row hp last) rfl

/--
If the source cannot be locked, everyone hears that the branch was locked and unlocked again.
-/
theorem tells_openPromotion {source : String}
    (h : site.directory.index.Valid site.directory.clock.last) (hp : Path.Valid path)
    (hs : Path.Valid source) :
    site.TellsPlainly (afterwards (openPromotion path source site)) := by
  have out := openPromotion_outcome h hp hs
  generalize openPromotion path source site = result at out ⊢
  cases out with
  | itself same => exact tells_nothing rfl rfl
  | notLocked e site' lock => exact tells_of_lock_error lock
  | stuck row host e e' site' site'' last unlocked kept lock release =>
    have events := events_of_lock_error lock
    have index := lock.index_of_error
    have first := Announcement.locked site.directory.index path row hp last
    cases release with
    | absent last' =>
      refine tells_one events ?_ rfl
      rw [afterwards, index]
      exact first
    | refused row' e' host' last' kept' =>
      refine tells_one events ?_ rfl
      change Announcement _ _ site'.directory.index
      rw [index]
      exact first
  | givenBack row host e site' site'' wasLocked last unlocked kept lock release =>
    have events := events_of_lock_error lock
    have index := lock.index_of_error
    have first := Announcement.locked site.directory.index path row hp last
    cases release with
    | done row' host' last' kept' =>
      have both := congrArg (·.broadcast (.unlocked path false)) events
      rw [index] at last'
      have second := Announcement.unlocked _ path row' false hp last'
      refine tells_two both first ?_ ⟨rfl, rfl⟩
      change Announcement _ _ (site'.directory.index.setLocked path false)
      rw [index]
      exact second
  | opened row other host host' distinct last unlocked kept last' unlocked' kept' =>
    exact tells_two rfl (.locked _ _ row hp last) (.locked _ _ other hs last') ⟨rfl, rfl⟩

theorem tells_complete {commit : Commit} (sound : site.Sound commits) (hc : commit ∈ commits) :
    site.Tells [] (afterwards (complete commit site)) ∨
      site.Tells [.completed commit.branchPath commit.timepoint commit.kind commit.source]
        (afterwards (complete commit site)) := by
  have out := sound.consistent.complete_cases hc
  have hp := (sound.consistent.formed commit hc).valid
  generalize complete commit site = result at out ⊢
  cases out with
  | refused reason not => exact .inl (tells_nil rfl rfl)
  | alone row _ held replaced kind single written =>
    cases written with
    | refused e host kept => exact .inl (tells_nil rfl rfl)
    | completed host kept =>
      exact .inr ⟨rfl, Announcement.single (.completed _ commit row hp held.last single)⟩
  | promotion row source sourceRow _ held replaced double valid distinct sourceHeld written =>
    cases written with
    | refused e host kept => exact .inl (tells_nil rfl rfl)
    | completed host kept =>
      exact .inr ⟨rfl, Announcement.single (.promoted _ commit row source sourceRow hp held.last
        double valid distinct sourceHeld.last)⟩

theorem tells_purge (site : Site) : site.TellsPlainly (afterwards (purge site)) := by
  have out := purge_outcome site
  generalize purge site = result at out ⊢
  cases out with
  | refused e host kept => exact tells_nothing rfl rfl
  | done host kept => exact tells_one rfl (.purged _ _) rfl

theorem tells_save (site : Site) : site.TellsPlainly (afterwards (save site)) := by
  rw [save_eq]
  cases kept : site.persisted site.directory.index with
  | error e host =>
    rw [persist_error kept]
    exact tells_nothing rfl rfl
  | ok u host =>
    rw [persist_ok kept]
    exact tells_nothing rfl rfl

theorem tells_look {α : Type} {x : DirectoryM α}
    (looks : Upholds (fun site site' => site.Rests site' []) x) :
    site.TellsPlainly (afterwards (x site)) := by
  cases result : x site with
  | ok a site' => exact tells_of_rests (looks.of_ok result)
  | error e site' => exact tells_of_rests (looks.of_error result)

end

end Directory

end TemporalStore
