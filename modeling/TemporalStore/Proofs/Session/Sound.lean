import TemporalStore.Proofs.Directory.Load
import TemporalStore.Proofs.Directory.SoundCommit
import TemporalStore.Proofs.Document.Collection
import TemporalStore.Proofs.Session.Basic
import TemporalStore.Proofs.Visibility.Edit

/-!
This module contains the proof that a session stays sound whatever is done in it, and that no
action ever finds a contradiction.
-/

namespace TemporalStore.Session

open Directory

structure Sound (session : Session) : Prop where
  site : session.site.Sound session.commits
  keyed : session.documents.Keyed

/--
An action leaves a sound session behind, and finds no contradiction.
-/
structure Stays (result : Except StoreError Unit × Session) : Prop where
  sound : result.2.Sound
  plain : ∀ e, result.1 = .error e → e.Plain

variable {session : Session}

theorem stays_ok (sound : session.Sound) : Stays (.ok (), session) := by
  constructor
  · exact sound
  · intro e h
    simp at h

theorem stays_error {e : StoreError} (plain : e.Plain) (sound : session.Sound) :
    Stays (.error e, session) := by
  constructor
  · exact sound
  · intro e' h
    simp only [Except.error.injEq] at h
    rw [← h]
    exact plain

theorem stays_call {α : Type} {act : DirectoryM α} (h : session.Sound)
    (kept : Kept session.commits (act session.site)) : Stays (session.call act) := by
  unfold call
  generalize act session.site = result at kept ⊢
  cases kept with
  | ok a site sound => exact stays_ok ⟨sound, h.keyed⟩
  | error e site plain sound => exact stays_error plain ⟨sound, h.keyed⟩

theorem stays_opened {act : DirectoryM Commit} (h : session.Sound)
    (opened : Opened session.commits (act session.site)) :
    Stays (session.call act addCommit) := by
  unfold call
  generalize act session.site = result at opened ⊢
  cases opened with
  | ok commit site sound => exact stays_ok ⟨sound, h.keyed⟩
  | error e site plain sound => exact stays_error plain ⟨sound, h.keyed⟩

theorem stays_withHandle {handle : Nat} {act : Commit → Except StoreError Unit × Session}
    (h : session.Sound)
    (stays : ∀ commit, session.commits[handle]? = some commit → Stays (act commit)) :
    Stays (session.withHandle handle act) := by
  unfold withHandle
  cases there : session.commits[handle]? with
  | some commit => exact stays commit there
  | none =>
    apply stays_error _ h
    intro violation
    simp

/-! ## What surrounds the directory -/

theorem sound_of_keeps {host : Host} (h : session.Sound)
    (keeps : ∀ name, session.site.directory.file = some name →
      session.site.host.disk.Keeps host.disk name) :
    Sound { session with site := { session.site with host } } where
  site := ⟨h.site.consistent, h.site.agrees, h.site.stored.of_keeps rfl rfl keeps⟩
  keyed := h.keyed

theorem sound_withHistory {history : HistoryCache} (h : session.Sound)
    (agrees : history.Agrees session.site.directory.index) :
    Sound { session with site := session.site.withHistory history } where
  site := ⟨h.site.consistent, agrees, h.site.stored⟩
  keyed := h.keyed

theorem stays_rowAt (h : session.Sound) (path : String) (t : Timepoint) :
    Stays (session.call (rowAt path t)) := by
  obtain ⟨history, agrees, answer⟩ := rowAt_eq h.site.consistent.valid h.site.agrees path t
  cases covering : session.site.directory.index.covering? path t with
  | some row =>
    rw [covering] at answer
    rw [call_ok answer]
    exact stays_ok (sound_withHistory h agrees)
  | none =>
    rw [covering] at answer
    rw [call_error answer]
    apply stays_error _ (sound_withHistory h agrees)
    intro violation
    simp

theorem stays_criteria {path : String} (h : session.Sound) (hp : Path.Valid path) :
    Stays (session.call (Criteria.ofBranch path)) := by
  have valid := h.site.consistent.valid
  cases last : session.site.directory.index.last? path with
  | some row =>
    obtain ⟨history, agrees, answer⟩ := Criteria.ofBranch_eq valid h.site.agrees hp last
    rw [call_ok answer]
    exact stays_ok (sound_withHistory h agrees)
  | none =>
    rw [call_error (Criteria.ofBranch_of_absent valid hp last)]
    apply stays_error _ h
    intro violation
    simp

/--
Building criteria changes nothing but the history cache.
-/
theorem exists_criteria {path : String} (h : session.Sound) (hp : Path.Valid path) :
    ∃ answer history, session.call (Criteria.ofBranch path) =
      (answer, { session with site := session.site.withHistory history }) := by
  have valid := h.site.consistent.valid
  cases last : session.site.directory.index.last? path with
  | some row =>
    obtain ⟨history, -, answer⟩ := Criteria.ofBranch_eq valid h.site.agrees hp last
    exact ⟨_, history, call_ok answer⟩
  | none =>
    exact ⟨_, session.site.directory.history,
      call_error (Criteria.ofBranch_of_absent valid hp last)⟩

theorem stays_reopen (h : session.Sound) (cacheSize : Nat)
    (small : session.site.directory.clock.last < 0x8000000000000000)
    (size : (MessagePack.encode (Record.indexValue session.site.directory.index)).length <
      0x10000000000000000) :
    Stays (session.reopen cacheSize) := by
  unfold reopen
  cases file : session.site.directory.file with
  | none => exact stays_ok h
  | some name =>
    have out := load_outcome h.site file cacheSize small size
    simp only
    generalize load name cacheSize session.site.host = result at out ⊢
    cases out with
    | read directory sound => exact stays_ok ⟨sound, h.keyed⟩
    | refused e plain => exact stays_error plain h

/-! ## Editing documents -/

theorem sound_of_bare {commits : List Commit} (h : session.Sound)
    (same : session.commits.map Commit.bare = commits.map Commit.bare) :
    Sound { session with commits } where
  site := ⟨h.site.consistent.of_bare same, h.site.agrees, h.site.stored⟩
  keyed := h.keyed

theorem map_bare_set {handle : Nat} {commit commit' : Commit}
    (there : session.commits[handle]? = some commit) (same : commit'.bare = commit.bare) :
    (session.commits.set handle commit').map Commit.bare = session.commits.map Commit.bare := by
  have there' : (session.commits.map Commit.bare)[handle]? = some commit.bare := by
    rw [List.getElem?_map, there]
    rfl
  obtain ⟨lt, eq⟩ := List.getElem?_eq_some_iff.1 there'
  rw [List.map_set, same, ← eq, List.set_getElem_self]

theorem sound_hidden {handle : Nat} {commit : Commit} (h : session.Sound)
    (there : session.commits[handle]? = some commit) (ids : List VersionId) :
    Sound { session with commits := session.commits.set handle (commit.hide ids) } := by
  have same : (commit.hide ids).bare = commit.bare := rfl
  apply sound_of_bare h
  exact (map_bare_set there same).symm

theorem sound_documents {documents : Collection} (h : session.Sound) (keyed : documents.Keyed) :
    Sound { session with documents } := ⟨h.site, keyed⟩

theorem set_self {handle : Nat} {commit : Commit}
    (there : session.commits[handle]? = some commit) :
    session.commits.set handle commit = session.commits := by
  obtain ⟨lt, eq⟩ := List.getElem?_eq_some_iff.1 there
  rw [← eq, List.set_getElem_self]

def ownEnded (session : Session) (commit : Commit) (field : String)
    (values : OrderedSet String) : Collection :=
  ((session.editing commit).ownEnded field values).documents

def inheritedIds (session : Session) (commit : Commit) (field : String)
    (values : OrderedSet String) : List VersionId :=
  ((session.editing commit).ownEnded field values).inheritedIds field values

inductive Retiring (session : Session) (handle : Nat) (commit : Commit) (field : String)
    (values : OrderedSet String) : Except StoreError Unit × Session → Prop where
  | nothing (none : values = ∅) : Retiring session handle commit field values (.ok (), session)
  | uncovered (path : String) (t : Timepoint) (history : HistoryCache)
      (agrees : history.Agrees session.site.directory.index)
      (missing : ¬ session.site.directory.index.Covered (Path.ancestors commit.branchPath)
        commit.branch.base) :
      Retiring session handle commit field values (.error (.branchNotFoundAt path t), { session with
        site := session.site.withHistory history
        documents := session.ownEnded commit field values })
  | retired (history : HistoryCache) (agrees : history.Agrees session.site.directory.index)
      (some : values ≠ ∅)
      (covered : session.site.directory.index.Covered (Path.ancestors commit.branchPath)
        commit.branch.base) :
      Retiring session handle commit field values (.ok (), { session with
        site := session.site.withHistory history
        commits := session.commits.set handle
          (commit.hide (session.inheritedIds commit field values))
        documents := session.ownEnded commit field values })

theorem retire_outcome {handle : Nat} {commit : Commit} (h : session.Sound)
    (there : session.commits[handle]? = some commit) (field : String)
    (values : OrderedSet String) :
    Retiring session handle commit field values (session.retire handle field values commit) := by
  have out := @Edit.retire_outcome (session.editing commit) _ h.site.consistent.valid h.site.agrees
    field values
  have same := set_self there
  unfold retire
  generalize Edit.retire field values (session.editing commit) = result at out ⊢
  cases out with
  | nothing none =>
    have unchanged : session.edited handle (session.editing commit) = session := by
      unfold edited editing
      rw [same]
    simp only
    rw [unchanged]
    exact .nothing none
  | uncovered path t history agrees missing =>
    have ended : session.edited handle
        (((session.editing commit).ownEnded field values).withHistory history) =
        { session with
          site := session.site.withHistory history
          documents := session.ownEnded commit field values } := by
      change { session with
        site := _, commits := session.commits.set handle commit, documents := _ } = _
      rw [same]
      rfl
    simp only
    rw [ended]
    exact .uncovered path t history agrees missing
  | retired counts history agrees some covered => exact .retired history agrees some covered

theorem keyed_ownEnded (h : session.Sound) (commit : Commit) (field : String)
    (values : OrderedSet String) : (session.ownEnded commit field values).Keyed :=
  h.keyed.endVersions _ _

theorem stays_retire {handle : Nat} {commit : Commit} (h : session.Sound)
    (there : session.commits[handle]? = some commit) (field : String)
    (values : OrderedSet String) : Stays (session.retire handle field values commit) := by
  have out := retire_outcome h there field values
  have keyed := keyed_ownEnded h commit field values
  generalize session.retire handle field values commit = result at out ⊢
  cases out with
  | nothing none => exact stays_ok h
  | uncovered path t history agrees missing =>
    apply stays_error
    · intro violation
      simp
    · exact sound_documents (sound_withHistory h agrees) keyed
  | retired history agrees some covered =>
    apply stays_ok
    exact sound_documents (sound_withHistory (sound_hidden h there _) agrees) keyed

theorem stays_write (h : session.Sound) (commit : Commit) (docs : List Document) :
    Stays (.ok (), session.write commit docs) := by
  apply stays_ok
  constructor
  · exact ⟨h.site.consistent, h.site.agrees, h.site.stored.of_keeps rfl rfl
      fun name _ => Disk.Keeps.refl session.site.host.disk name⟩
  · exact h.keyed.saveAll _ _

/-! ## Runs -/

theorem stays_step (h : session.Sound) {action : Action} (allowed : action.Allowed session) :
    Stays (session.step action) := by
  have valid := h.site.consistent.valid
  cases action with
  | surroundings host =>
    apply stays_ok
    apply sound_of_keeps h
    intro name file
    exact ⟨(allowed name file).1, (allowed name file).2⟩
  | subscribers events =>
    apply stays_ok
    exact ⟨⟨h.site.consistent, h.site.agrees, h.site.stored⟩, h.keyed⟩
  | create path => exact stays_call h (kept_create h.site allowed)
  | lock path => exact stays_call h (kept_of_lock h.site allowed (lock_outcome valid allowed))
  | unlock path => exact stays_call h (kept_unlock h.site allowed)
  | forceUnlock path => exact stays_call h (kept_forceUnlock h.site allowed)
  | openCommit path kind => exact stays_opened h (kept_openCommit h.site allowed kind)
  | openPromotion path source =>
    exact stays_opened h (kept_openPromotion h.site allowed.1 allowed.2)
  | complete handle =>
    apply stays_withHandle h
    intro commit there
    apply stays_call h
    exact kept_complete h.site (List.mem_of_getElem? there)
  | purge => exact stays_call h (kept_purge h.site)
  | save => exact stays_call h (kept_save h.site)
  | reopen cacheSize => exact stays_reopen h cacheSize allowed.1 allowed.2
  | latest path =>
    obtain ⟨answer, found⟩ := latestWithStanding?_eq valid allowed
    apply stays_call h
    rw [found]
    exact .ok answer _ h.site
  | rowAt path t => exact stays_rowAt h path t
  | criteria path => exact stays_criteria h allowed
  | hide handle ids =>
    apply stays_withHandle h
    intro commit there
    rw [List.modify_eq_set_getElem?, there]
    exact stays_ok (sound_hidden h there ids)
  | retire handle field values =>
    apply stays_withHandle h
    intro commit there
    exact stays_retire h there field values
  | write handle docs =>
    apply stays_withHandle h
    intro commit _
    exact stays_write h commit docs
  | endVersions ids t =>
    exact stays_ok (sound_documents h (h.keyed.endVersions ids t))

theorem sound_run (h : session.Sound) {actions : List Action}
    (permitted : session.Permits actions) : (session.run actions).Sound := by
  induction actions generalizing session with
  | nil => exact h
  | cons action actions ih =>
    obtain ⟨allowed, rest⟩ := permitted
    exact ih (stays_step h allowed).sound rest

theorem plain_answers (h : session.Sound) {actions : List Action}
    (permitted : session.Permits actions) :
    ∀ answer ∈ session.answers actions, ∀ e, answer.2 = .error e → e.Plain := by
  induction actions generalizing session with
  | nil =>
    intro answer mem
    simp [answers] at mem
  | cons action actions ih =>
    obtain ⟨allowed, rest⟩ := permitted
    have stays := stays_step h allowed
    intro answer mem
    rcases List.mem_cons.1 mem with rfl | mem
    · exact stays.plain
    · exact ih stays.sound rest answer mem

theorem New.sound (h : session.New) : session.Sound := by
  obtain ⟨commits, documents, file, cacheSize, directory, absent⟩ := h
  have stored : Site.Stored
      { directory := ofIndex file {} cacheSize, host := session.site.host } := by
    intro name hf
    exact .inl ⟨absent name hf, rfl⟩
  have sound := sound_ofIndex (RowIndex.valid_empty 0) file cacheSize stored
  constructor
  · rw [commits]
    rw [← directory] at sound
    exact sound
  · rw [documents]
    exact Collection.keyed_empty

end TemporalStore.Session
