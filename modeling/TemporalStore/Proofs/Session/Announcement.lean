import TemporalStore.Proofs.Directory.Announcement
import TemporalStore.Proofs.Session.Sound

/-!
This module contains what subscribers are told of each action on a session.
-/

namespace TemporalStore.Session

open Directory

/--
What subscribers are told of an action. Only the completion of a commit is told of two branches in
one event.
-/
inductive Announces (session : Session) (action : Action) (next : Session) : Prop where
  | nothing (told : session.site.Tells [] next.site)
  | plainly (other : ∀ handle, action ≠ .complete handle)
    (told : session.site.TellsPlainly next.site)
  | completed (handle : Nat) (commit : Commit) (completes : action = .complete handle)
    (there : session.commits[handle]? = some commit)
    (told : session.site.Tells
      [.completed commit.branchPath commit.timepoint commit.kind commit.source] next.site)

section

variable {session next : Session} {action : Action}

theorem Announces.exists_told (h : session.Announces action next) :
    ∃ told, session.site.Tells told next.site := by
  cases h with
  | nothing told => exact ⟨_, told⟩
  | plainly other plain =>
    obtain ⟨told, tells, -⟩ := plain
    exact ⟨told, tells⟩
  | completed handle commit completes there told => exact ⟨_, told⟩

theorem announces_nothing (events : next.site.directory.events = session.site.directory.events)
    (index : next.site.directory.index = session.site.directory.index) :
    session.Announces action next :=
  .nothing (tells_nil events index)

theorem announces_call {α : Type} {act : DirectoryM α} {keep : α → Session → Session}
    (same : ∀ a s, (keep a s).site = s.site) (other : ∀ handle, action ≠ .complete handle)
    (tells : session.site.TellsPlainly (afterwards (act session.site))) :
    session.Announces action (session.call act keep).2 := by
  apply Announces.plainly other
  cases result : act session.site with
  | ok a site =>
    rw [result] at tells
    rw [call_ok result, same]
    exact tells
  | error e site =>
    rw [result] at tells
    rw [call_error result]
    exact tells

theorem announces_withHandle {handle : Nat} {act : Commit → Except StoreError Unit × Session}
    (announces : ∀ commit, session.commits[handle]? = some commit →
      session.Announces action (act commit).2) :
    session.Announces action (session.withHandle handle act).2 := by
  cases there : session.commits[handle]? with
  | some commit =>
    rw [withHandle_of_getElem? there]
    exact announces commit there
  | none =>
    rw [withHandle_of_absent there]
    exact announces_nothing rfl rfl

theorem announces_complete {handle : Nat} {commit : Commit} (sound : session.Sound)
    (there : session.commits[handle]? = some commit) :
    session.Announces (.complete handle) (session.call (complete commit)).2 := by
  have tells := tells_complete sound.site (List.mem_of_getElem? there)
  have site : (session.call (complete commit)).2.site =
      afterwards (complete commit session.site) := by
    cases result : complete commit session.site with
    | ok row site => exact congrArg (·.2.site) (call_ok result)
    | error e site => exact congrArg (·.2.site) (call_error result)
  rw [← site] at tells
  exact tells.elim .nothing (.completed handle commit rfl there)

theorem announces_criteria {path : String} (sound : session.Sound) (hp : Path.Valid path) :
    session.Announces action (session.call (Criteria.ofBranch path)).2 := by
  obtain ⟨answer, history, found⟩ := exists_criteria sound hp
  rw [found]
  exact announces_nothing rfl rfl

theorem announces_reopen (cacheSize : Nat) (memory : session.site.directory.file = none) :
    session.Announces action (session.reopen cacheSize).2 := by
  unfold reopen
  rw [memory]
  exact announces_nothing rfl rfl

theorem announces_retire {handle : Nat} {commit : Commit} (sound : session.Sound)
    (there : session.commits[handle]? = some commit) (field : String)
    (values : OrderedSet String) :
    session.Announces action (session.retire handle field values commit).2 := by
  have out := retire_outcome sound there field values
  generalize session.retire handle field values commit = result at out ⊢
  cases out with
  | nothing none => exact announces_nothing rfl rfl
  | uncovered path t history agrees missing => exact announces_nothing rfl rfl
  | retired history agrees some covered => exact announces_nothing rfl rfl

/--
Subscribers who stay are told of every change to the rows.
-/
theorem announces_step (sound : session.Sound) (allowed : action.Allowed session)
    (memory : ∀ cacheSize, action = .reopen cacheSize → session.site.directory.file = none)
    (same : ∀ events, action ≠ .subscribers events) :
    session.Announces action (session.step action).2 := by
  have valid := sound.site.consistent.valid
  have agrees := sound.site.agrees
  have lasting := Site.lasting_rests
  cases action with
  | surroundings host => exact announces_nothing rfl rfl
  | subscribers events => exact absurd rfl (same events)
  | create path => exact announces_call (fun _ _ => rfl) nofun (tells_create valid allowed)
  | lock path => exact announces_call (fun _ _ => rfl) nofun (tells_lock valid allowed)
  | unlock path => exact announces_call (fun _ _ => rfl) nofun (tells_unlock valid allowed)
  | forceUnlock path =>
    exact announces_call (fun _ _ => rfl) nofun (tells_forceUnlock sound.site allowed)
  | openCommit path kind =>
    exact announces_call (fun _ _ => rfl) nofun (tells_openCommit valid agrees allowed kind)
  | openPromotion path source =>
    exact announces_call (fun _ _ => rfl) nofun (tells_openPromotion valid allowed.1 allowed.2)
  | complete handle =>
    apply announces_withHandle
    intro commit there
    exact announces_complete sound there
  | purge => exact announces_call (fun _ _ => rfl) nofun (tells_purge session.site)
  | save => exact announces_call (fun _ _ => rfl) nofun (tells_save session.site)
  | reopen cacheSize =>
    exact announces_reopen cacheSize (memory cacheSize rfl)
  | latest path =>
    exact announces_call (fun _ _ => rfl) nofun
      (tells_look (upholds_latestWithStanding? lasting path))
  | rowAt path t =>
    exact announces_call (fun _ _ => rfl) nofun (tells_look (upholds_rowAt lasting path t))
  | criteria path => exact announces_criteria sound allowed
  | hide handle ids =>
    apply announces_withHandle
    intro commit there
    exact announces_nothing rfl rfl
  | retire handle field values =>
    apply announces_withHandle
    intro commit there
    exact announces_retire sound there field values
  | write handle docs =>
    apply announces_withHandle
    intro commit there
    exact announces_nothing rfl rfl
  | endVersions ids t => exact announces_nothing rfl rfl

end

end TemporalStore.Session
