import TemporalStore.Proofs.Directory.Failure
import TemporalStore.Proofs.Session.Sound

/-!
This module contains what an action does to the rows, the open commits and the handles of a session.
Whatever is kept by all actions can be shown by cases on that.
-/

namespace TemporalStore

/--
Those actions that change rows, open commits or handles when they succeed, wherever the directory is
kept.
-/
def Action.Stirs : Action → Prop
  | .create _ | .lock _ | .unlock _ | .forceUnlock _ | .openCommit _ _ | .openPromotion _ _
  | .complete _ | .purge => True
  | _ => False

namespace Session

open Directory

inductive Effect (session : Session) : Action → Except StoreError Unit × Session → Prop where
  | still (action : Action) (answer : Except StoreError Unit) (next : Session)
    (quiet : answer = .ok () → ¬ action.Stirs)
    (index : next.site.directory.index = session.site.directory.index)
    (openCommits : next.site.directory.openCommits = session.site.directory.openCommits)
    (handles : next.commits.map Commit.bare = session.commits.map Commit.bare) :
    Effect session action (answer, next)
  | created (path : String) (base : Timepoint) (next : Session) (valid : Path.Valid path)
    (last : session.site.directory.index.last? path = none)
    (inherits : InheritsFrom session.site.directory.index path (nextTimepoint session.site) base)
    (index : next.site.directory.index = session.site.directory.index.put path
      [BranchRow.fresh path base (nextTimepoint session.site)])
    (openCommits : next.site.directory.openCommits = session.site.directory.openCommits)
    (handles : next.commits = session.commits) :
    Effect session (.create path) (.ok (), next)
  | locked (path : String) (row : BranchRow) (next : Session) (valid : Path.Valid path)
    (last : session.site.directory.index.last? path = some row) (unlocked : row.locked = false)
    (index : next.site.directory.index = session.site.directory.index.setLocked path true)
    (openCommits : next.site.directory.openCommits = session.site.directory.openCommits)
    (handles : next.commits = session.commits) :
    Effect session (.lock path) (.ok (), next)
  | unlocked (path : String) (row : BranchRow) (next : Session) (valid : Path.Valid path)
    (last : session.site.directory.index.last? path = some row)
    (free : session.site.directory.openCommits.get? path = none)
    (index : next.site.directory.index = session.site.directory.index.setLocked path false)
    (openCommits : next.site.directory.openCommits = session.site.directory.openCommits)
    (handles : next.commits = session.commits) :
    Effect session (.unlock path) (.ok (), next)
  | forced (path : String) (row : BranchRow) (next : Session) (valid : Path.Valid path)
    (last : session.site.directory.index.last? path = some row)
    (alone : partners session.site.directory.openCommits path = [])
    (index : next.site.directory.index = session.site.directory.index.setLocked path false)
    (openCommits :
      next.site.directory.openCommits = session.site.directory.openCommits.erase path)
    (handles : next.commits = session.commits) :
    Effect session (.forceUnlock path) (.ok (), next)
  | forcedBoth (path : String) (row : BranchRow) (partner : String) (t : Timepoint)
    (next : Session) (valid : Path.Valid path) (validPartner : Path.Valid partner)
    (last : session.site.directory.index.last? path = some row)
    (both : partners session.site.directory.openCommits path = [(partner, t)])
    (index : next.site.directory.index =
      (session.site.directory.index.setLocked path false).setLocked partner false)
    (openCommits : next.site.directory.openCommits =
      (session.site.directory.openCommits.erase path).erase partner)
    (handles : next.commits = session.commits) :
    Effect session (.forceUnlock path) (.ok (), next)
  | opened (path : String) (kind : CommitKind) (row : BranchRow) (next : Session)
    (valid : Path.Valid path) (last : session.site.directory.index.last? path = some row)
    (unlocked : row.locked = false)
    (index : next.site.directory.index = session.site.directory.index.setLocked path true)
    (openCommits : next.site.directory.openCommits =
      session.site.directory.openCommits.insert path (nextTimepoint session.site))
    (handles : next.commits = session.commits ++ [openedCommit session.site path kind row]) :
    Effect session (.openCommit path kind) (.ok (), next)
  | openedBoth (path source : String) (row sourceRow : BranchRow) (next : Session)
    (valid : Path.Valid path) (validSource : Path.Valid source) (distinct : path ≠ source)
    (last : session.site.directory.index.last? path = some row) (unlocked : row.locked = false)
    (sourceLast : session.site.directory.index.last? source = some sourceRow)
    (sourceUnlocked : sourceRow.locked = false)
    (index : next.site.directory.index =
      (session.site.directory.index.setLocked path true).setLocked source true)
    (openCommits : next.site.directory.openCommits =
      (session.site.directory.openCommits.insert path (nextTimepoint session.site)).insert source
        (nextTimepoint session.site))
    (handles : next.commits = session.commits ++ [openedPromotion session.site source row]) :
    Effect session (.openPromotion path source) (.ok (), next)
  | completed (handle : Nat) (commit : Commit) (row : BranchRow) (next : Session)
    (there : session.commits[handle]? = some commit)
    (held : Held session.site.directory.index session.site.directory.openCommits commit row)
    (kind : commit.kind ≠ .promotion) (single : commit.source = none)
    (index : next.site.directory.index = completedIndex session.site.directory.index commit row)
    (openCommits : next.site.directory.openCommits =
      remaining session.site.directory.openCommits commit)
    (handles : next.commits = session.commits) :
    Effect session (.complete handle) (.ok (), next)
  | promoted (handle : Nat) (commit : Commit) (row : BranchRow) (source : String)
    (sourceRow : BranchRow) (next : Session)
    (there : session.commits[handle]? = some commit)
    (held : Held session.site.directory.index session.site.directory.openCommits commit row)
    (double : commit.source = some source) (validSource : Path.Valid source)
    (distinct : source ≠ commit.branchPath)
    (sourceHeld : SourceHeld session.site.directory.index session.site.directory.openCommits commit
      source sourceRow)
    (index : next.site.directory.index =
      promotedIndex session.site.directory.index commit row source sourceRow)
    (openCommits : next.site.directory.openCommits =
      remaining session.site.directory.openCommits commit)
    (handles : next.commits = session.commits) :
    Effect session (.complete handle) (.ok (), next)
  | purged (next : Session) (index : next.site.directory.index = {})
    (openCommits : next.site.directory.openCommits = ∅) (handles : next.commits = session.commits) :
    Effect session .purge (.ok (), next)
  | reopened (cacheSize : Nat) (next : Session) (file : session.site.directory.file ≠ none)
    (index : next.site.directory.index = session.site.directory.index)
    (openCommits : next.site.directory.openCommits = ∅) (handles : next.commits = []) :
    Effect session (.reopen cacheSize) (.ok (), next)

section

variable {session : Session} {action : Action} {path : String}

theorem effect_unchanged {answer : Except StoreError Unit} {next : Session}
    (quiet : answer = .ok () → ¬ action.Stirs)
    (index : next.site.directory.index = session.site.directory.index)
    (openCommits : next.site.directory.openCommits = session.site.directory.openCommits)
    (handles : next.commits = session.commits) : session.Effect action (answer, next) :=
  .still action answer next quiet index openCommits (congrArg _ handles)

theorem effect_call {α : Type} {keep : α → Session → Session} (op : Operation α)
    (sound : session.Sound)
    (ok : ∀ a site, op.perform session.site = .ok a site →
      session.Effect action (.ok (), keep a { session with site })) :
    session.Effect action (session.call op.perform keep) := by
  cases result : op.perform session.site with
  | ok a site =>
    rw [call_ok result]
    exact ok a site result
  | error e site =>
    obtain ⟨heard, rests, -⟩ := (unharmed_of_error sound.site result).heard
    rw [call_error result]
    exact effect_unchanged (by simp) rests.index rests.openCommits rfl

theorem effect_look {α : Type} (op : Operation α) (sound : session.Sound)
    (looks : Upholds (fun site site' => site.Rests site' []) op.perform)
    (quiet : ¬ action.Stirs) : session.Effect action (session.call op.perform) := by
  apply effect_call op sound
  intro a site ok
  have rests := looks.of_ok ok
  exact effect_unchanged (fun _ => quiet) rests.index rests.openCommits rfl

theorem effect_withHandle {handle : Nat} {act : Commit → Except StoreError Unit × Session}
    (effect : ∀ commit, session.commits[handle]? = some commit →
      session.Effect action (act commit)) :
    session.Effect action (session.withHandle handle act) := by
  unfold withHandle
  cases there : session.commits[handle]? with
  | some commit => exact effect commit there
  | none => exact effect_unchanged (by simp) rfl rfl rfl

theorem effect_hidden {handle : Nat} {commit : Commit} {next : Session}
    (there : session.commits[handle]? = some commit) (quiet : ¬ action.Stirs)
    (index : next.site.directory.index = session.site.directory.index)
    (openCommits : next.site.directory.openCommits = session.site.directory.openCommits)
    {ids : List VersionId} (handles : next.commits = session.commits.set handle (commit.hide ids)) :
    session.Effect action (.ok (), next) := by
  have same : (commit.hide ids).bare = commit.bare := rfl
  refine .still action _ next (fun _ => quiet) index openCommits ?_
  rw [handles, map_bare_set there same]

theorem effect_create (sound : session.Sound) (hp : Path.Valid path) :
    session.Effect (.create path) (session.call (create path)) := by
  refine effect_call (.create path) sound ?_
  intro row site ok
  have out := create_outcome sound.site.consistent.valid hp
  change create path session.site = _ at ok
  rw [ok] at out
  cases out with
  | created base host last inherits kept =>
    exact .created path base _ hp last inherits rfl rfl rfl

theorem effect_lock (sound : session.Sound) (hp : Path.Valid path) :
    session.Effect (.lock path) (session.call (lock path)) := by
  refine effect_call (.lock path) sound ?_
  intro row site ok
  have out := lock_outcome sound.site.consistent.valid hp
  change lock path session.site = _ at ok
  rw [ok] at out
  cases out with
  | taken row host last unlocked kept => exact .locked path row _ hp last unlocked rfl rfl rfl

theorem effect_unlock (sound : session.Sound) (hp : Path.Valid path) :
    session.Effect (.unlock path) (session.call (unlock path)) := by
  refine effect_call (.unlock path) sound ?_
  intro u site ok
  change unlock path session.site = _ at ok
  cases entry : session.site.directory.openCommits.get? path with
  | some t =>
    rw [unlock_of_open entry] at ok
    cases ok
  | none =>
    have out := release_outcome sound.site.consistent.valid hp
    rw [unlock_of_free entry, releaseAnnounced_eq] at ok
    cases released : release path session.site with
    | error e middle => simp [released] at ok
    | ok wasLocked middle =>
      rw [released] at ok out
      cases ok
      cases out with
      | done row host last kept => exact .unlocked path row _ hp last entry rfl rfl rfl

theorem effect_forceUnlock (sound : session.Sound) (hp : Path.Valid path) :
    session.Effect (.forceUnlock path) (session.call (forceUnlock path)) := by
  refine effect_call (.forceUnlock path) sound ?_
  intro u site ok
  have consistent := sound.site.consistent
  have out := forceUnlock_outcome consistent.valid hp (partners_of_consistent consistent path)
  change forceUnlock path session.site = _ at ok
  rw [ok] at out
  cases out with
  | alone row host last kept others => exact .forced path row _ hp last others rfl rfl rfl
  | together row host partner t other host' last kept others last' kept' =>
    have hq := consistent.valid_of_entry (get?_of_partners others).2.1
    exact .forcedBoth path row partner t _ hp hq last others rfl rfl rfl

theorem effect_openCommit (sound : session.Sound) (hp : Path.Valid path) (kind : CommitKind) :
    session.Effect (.openCommit path kind)
      (session.call (openCommit path kind) addCommit) := by
  refine effect_call (.openCommit path kind) sound ?_
  intro commit site ok
  have out := openCommit_outcome sound.site.consistent.valid sound.site.agrees hp kind
  change openCommit path kind session.site = _ at ok
  rw [ok] at out
  cases out with
  | opened row host history last unlocked kept agrees =>
    exact .opened path kind row _ hp last unlocked rfl rfl rfl

theorem effect_openPromotion {source : String} (sound : session.Sound) (hp : Path.Valid path)
    (hs : Path.Valid source) :
    session.Effect (.openPromotion path source)
      (session.call (openPromotion path source) addCommit) := by
  refine effect_call (.openPromotion path source) sound ?_
  intro commit site ok
  have out := openPromotion_outcome sound.site.consistent.valid hp hs
  change openPromotion path source session.site = _ at ok
  rw [ok] at out
  cases out with
  | opened row other host host' distinct last unlocked kept last' unlocked' kept' =>
    rw [RowIndex.last?_setLocked _ _ hp hs, if_neg (Ne.symm distinct)] at last'
    exact .openedBoth path source row other _ hp hs distinct last unlocked last' unlocked' rfl rfl
      rfl

theorem effect_complete {handle : Nat} {commit : Commit} (sound : session.Sound)
    (there : session.commits[handle]? = some commit) :
    session.Effect (.complete handle) (session.call (complete commit)) := by
  refine effect_call (.complete commit) sound ?_
  intro row site ok
  have out := sound.site.consistent.complete_cases (List.mem_of_getElem? there)
  change complete commit session.site = _ at ok
  rw [ok] at out
  cases out with
  | alone row _ held _ kind single written =>
    cases written with
    | completed host kept => exact .completed handle commit row _ there held kind single rfl rfl rfl
  | promotion row source sourceRow _ held _ double valid distinct sourceHeld written =>
    cases written with
    | completed host kept =>
      exact .promoted handle commit row source sourceRow _ there held double valid distinct
        sourceHeld rfl rfl rfl

theorem effect_purge (sound : session.Sound) :
    session.Effect .purge (session.call purge) := by
  refine effect_call .purge sound ?_
  intro n site ok
  have out := purge_outcome session.site
  change purge session.site = _ at ok
  rw [ok] at out
  cases out with
  | done host kept => exact .purged _ rfl rfl rfl

theorem effect_save (sound : session.Sound) : session.Effect .save (session.call save) := by
  refine effect_call .save sound ?_
  intro u site ok
  change save session.site = _ at ok
  rw [save_eq] at ok
  cases kept : session.site.persisted session.site.directory.index with
  | error e host => simp [persist_error kept] at ok
  | ok u host =>
    rw [persist_ok kept] at ok
    cases ok
    exact effect_unchanged (fun _ => id) rfl rfl rfl

theorem effect_reopen (sound : session.Sound) {cacheSize : Nat}
    (allowed : (Action.reopen cacheSize).Allowed session) :
    session.Effect (.reopen cacheSize) (session.reopen cacheSize) := by
  unfold reopen
  cases file : session.site.directory.file with
  | none => exact effect_unchanged (fun _ => id) rfl rfl rfl
  | some name =>
    simp only
    cases loaded : load name cacheSize session.site.host with
    | error e host => exact effect_unchanged (by simp) rfl rfl rfl
    | ok directory host =>
      have read := eq_ofIndex_of_load_ok sound.site file allowed.1 allowed.2 loaded
      rw [read]
      exact .reopened cacheSize _ (by simp [file]) rfl rfl rfl

theorem effect_criteria (sound : session.Sound) (hp : Path.Valid path) :
    session.Effect (.criteria path) (session.call (Criteria.ofBranch path)) := by
  obtain ⟨answer, history, found⟩ := exists_criteria sound hp
  rw [found]
  exact effect_unchanged (fun _ => id) rfl rfl rfl

theorem effect_retire {handle : Nat} {commit : Commit} (sound : session.Sound)
    (there : session.commits[handle]? = some commit) (field : String)
    (values : OrderedSet String) :
    session.Effect (.retire handle field values)
      (session.retire handle field values commit) := by
  have out := retire_outcome sound there field values
  generalize session.retire handle field values commit = result at out ⊢
  cases out with
  | nothing none => exact effect_unchanged (fun _ => id) rfl rfl rfl
  | uncovered path t history agrees missing => exact effect_unchanged (by simp) rfl rfl rfl
  | retired history agrees some covered => exact effect_hidden there id rfl rfl rfl

theorem effect_step (sound : session.Sound) (allowed : action.Allowed session) :
    session.Effect action (session.step action) := by
  have lasting := Site.lasting_rests
  cases action with
  | surroundings host => exact effect_unchanged (fun _ => id) rfl rfl rfl
  | subscribers events => exact effect_unchanged (fun _ => id) rfl rfl rfl
  | create path => exact effect_create sound allowed
  | lock path => exact effect_lock sound allowed
  | unlock path => exact effect_unlock sound allowed
  | forceUnlock path => exact effect_forceUnlock sound allowed
  | openCommit path kind => exact effect_openCommit sound allowed kind
  | openPromotion path source => exact effect_openPromotion sound allowed.1 allowed.2
  | complete handle =>
    apply effect_withHandle
    intro commit there
    exact effect_complete sound there
  | purge => exact effect_purge sound
  | save => exact effect_save sound
  | reopen cacheSize => exact effect_reopen sound allowed
  | latest path =>
    exact effect_look (.latestWithStanding? path) sound (upholds_latestWithStanding? lasting path)
      id
  | rowAt path t => exact effect_look (.rowAt path t) sound (upholds_rowAt lasting path t) id
  | criteria path => exact effect_criteria sound allowed
  | hide handle ids =>
    apply effect_withHandle
    intro commit there
    rw [List.modify_eq_set_getElem?, there]
    exact effect_hidden there id rfl rfl rfl
  | retire handle field values =>
    apply effect_withHandle
    intro commit there
    exact effect_retire sound there field values
  | write handle docs =>
    apply effect_withHandle
    intro commit _
    exact effect_unchanged (fun _ => id) rfl rfl rfl
  | endVersions ids t => exact effect_unchanged (fun _ => id) rfl rfl rfl

/--
An action gives out one handle at most.
-/
theorem Effect.handles {result : Except StoreError Unit × Session}
    (effect : session.Effect action result) :
    result.2.commits.map Commit.bare = session.commits.map Commit.bare ∨
      (∃ commit, result.2.commits = session.commits ++ [commit] ∧ commit.bare = commit) ∨
        session.site.directory.file ≠ none ∧ result.2.commits = [] := by
  cases effect with
  | still _ _ _ _ _ _ handles => exact .inl handles
  | opened _ _ _ _ _ _ _ _ _ handles => exact .inr (.inl ⟨_, handles, rfl⟩)
  | openedBoth _ _ _ _ _ _ _ _ _ _ _ _ _ _ handles => exact .inr (.inl ⟨_, handles, rfl⟩)
  | reopened _ _ file _ _ handles => exact .inr (.inr ⟨file, handles⟩)
  | _ => exact .inl (congrArg _ (by assumption))

end

end Session

end TemporalStore
