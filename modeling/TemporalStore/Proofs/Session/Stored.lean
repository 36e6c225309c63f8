import TemporalStore.Proofs.Session.Retired
import TemporalStore.Proofs.Visibility.Written

/-!
This module contains what an action does to the documents of a session, and from that where a
version that is stored after an action comes from.
-/

namespace TemporalStore.Session

open Directory

/--
What an action makes of the documents. Only three kinds of actions change any.
-/
inductive Edits (session : Session) : Action → Collection → Prop where
  | still (action : Action) : Edits session action session.documents
  | ended (ids : List VersionId) (t : Timepoint) :
    Edits session (.endVersions ids t) (session.documents.endVersions ids t)
  | retired (handle : Nat) (commit : Commit) (field : String) (values : OrderedSet String)
    (there : session.commits[handle]? = some commit) :
    Edits session (.retire handle field values) (session.ownEnded commit field values)
  | written (handle : Nat) (commit : Commit) (docs : List Document)
    (there : session.commits[handle]? = some commit) :
    Edits session (.write handle docs) (session.write commit docs).documents

/--
Where a stored version comes from when an action was done.
-/
inductive Stems (session : Session) (id : VersionId) : Action → Document → Prop where
  | kept (action : Action) (d : Document) (found : session.documents.get? id = some d) :
    Stems session id action d
  | ended (ids : List VersionId) (t : Timepoint) (d : Document)
    (found : session.documents.get? id = some d) (mem : id ∈ ids) :
    Stems session id (.endVersions ids t) { d with ended := some t }
  | retired (handle : Nat) (commit : Commit) (field : String) (values : OrderedSet String)
    (d : Document) (there : session.commits[handle]? = some commit)
    (found : session.documents.get? id = some d) (path : d.path = commit.flatBranchPath)
    (older : d.Older commit.timepoint field values) (current : d.ended = none) :
    Stems session id (.retire handle field values) { d with ended := some commit.timepoint }
  | written (handle : Nat) (commit : Commit) (docs : List Document) (d : Document)
    (there : session.commits[handle]? = some commit)
    (stamped : (id, d) ∈
      (Collection.identify (docs.map commit.stamp) session.site.host.ids).1) :
    Stems session id (.write handle docs) d

section

variable {session : Session} {action : Action} {id : VersionId} {d : Document}

theorem documents_call {α : Type} (act : DirectoryM α) {keep : α → Session → Session}
    (same : ∀ a other, (keep a other).documents = other.documents) :
    (session.call act keep).2.documents = session.documents := by
  unfold call
  cases act session.site with
  | ok a site => exact same a _
  | error e site => rfl

theorem documents_reopen (session : Session) (cacheSize : Nat) :
    (session.reopen cacheSize).2.documents = session.documents := by
  unfold reopen
  cases session.site.directory.file with
  | none => rfl
  | some name =>
    simp only
    cases Directory.load name cacheSize session.site.host with
    | ok directory host => rfl
    | error e host => rfl

theorem edits_of_same {documents : Collection} (same : documents = session.documents) :
    session.Edits action documents := by
  rw [same]
  exact .still action

theorem edits_withHandle {handle : Nat} {act : Commit → Except StoreError Unit × Session}
    (edits : ∀ commit, session.commits[handle]? = some commit →
      session.Edits action (act commit).2.documents) :
    session.Edits action (session.withHandle handle act).2.documents := by
  unfold withHandle
  cases there : session.commits[handle]? with
  | some commit => exact edits commit there
  | none => exact .still action

theorem edits_retire {handle : Nat} {commit : Commit} (sound : session.Sound)
    (there : session.commits[handle]? = some commit) (field : String)
    (values : OrderedSet String) :
    session.Edits (.retire handle field values)
      (session.retire handle field values commit).2.documents := by
  have out := retire_outcome sound there field values
  generalize session.retire handle field values commit = result at out ⊢
  cases out with
  | nothing none => exact .still _
  | uncovered path t history agrees missing => exact .retired handle commit field values there
  | retired history agrees some covered => exact .retired handle commit field values there

theorem edits_step (sound : session.Sound) (action : Action) :
    session.Edits action (session.step action).2.documents := by
  have stay {α : Type} (act : DirectoryM α) : session.Edits action (session.call act).2.documents :=
    edits_of_same (documents_call act fun _ _ => rfl)
  cases action with
  | surroundings host => exact .still _
  | subscribers events => exact .still _
  | create path => exact stay (create path)
  | lock path => exact stay (lock path)
  | unlock path => exact stay (unlock path)
  | forceUnlock path => exact stay (forceUnlock path)
  | openCommit path kind => exact edits_of_same (documents_call _ fun _ _ => rfl)
  | openPromotion path source => exact edits_of_same (documents_call _ fun _ _ => rfl)
  | complete handle =>
    apply edits_withHandle
    intro commit _
    exact stay (complete commit)
  | purge => exact stay purge
  | save => exact stay save
  | reopen cacheSize => exact edits_of_same (documents_reopen session cacheSize)
  | latest path => exact stay (latestWithStanding? path)
  | rowAt path t => exact stay (rowAt path t)
  | criteria path => exact stay (Criteria.ofBranch path)
  | hide handle ids =>
    apply edits_withHandle
    intro commit _
    exact .still _
  | retire handle field values =>
    apply edits_withHandle
    intro commit there
    exact edits_retire sound there field values
  | write handle docs =>
    apply edits_withHandle
    intro commit there
    exact .written handle commit docs there
  | endVersions ids t => exact .ended ids t

/--
What is stored on the branch of a commit after old versions were ended there.
-/
theorem exists_of_ownEnded {commit : Commit} {field : String} {values : OrderedSet String}
    (sound : session.Sound) (found : (session.ownEnded commit field values).get? id = some d) :
    (session.documents.get? id = some d ∧ ¬ (d.path = commit.flatBranchPath ∧
        d.Older commit.timepoint field values ∧ d.ended = none)) ∨
      ∃ d', session.documents.get? id = some d' ∧ d'.path = commit.flatBranchPath ∧
        d'.Older commit.timepoint field values ∧ d'.ended = none ∧
          d = { d' with ended := some commit.timepoint } := by
  have ended := Collection.get?_endVersions session.documents
    ((session.editing commit).ownIds field values) commit.timepoint id
  change (session.ownEnded commit field values).get? id = _ at ended
  rw [found, @eq_comm _ (some d), Option.map_eq_some_iff] at ended
  obtain ⟨d', found', rfl⟩ := ended
  have own := @mem_ownIds_iff session commit field values id d' sound found'
  split
  · rename_i mem
    obtain ⟨path, older, current⟩ := own.1 mem
    exact .inr ⟨d', found', path, older, current, rfl⟩
  · rename_i not
    exact .inl ⟨found', fun old => not (own.2 old)⟩

theorem Edits.stems {documents : Collection} (edits : session.Edits action documents)
    (sound : session.Sound) (found : documents.get? id = some d) : session.Stems id action d := by
  cases edits with
  | still => exact .kept _ d found
  | ended ids t =>
    rw [Collection.get?_endVersions, Option.map_eq_some_iff] at found
    obtain ⟨d', found', rfl⟩ := found
    split
    · rename_i mem
      exact .ended ids t d' found' mem
    · exact .kept _ d' found'
  | retired handle commit field values there =>
    rcases exists_of_ownEnded sound found with ⟨found', -⟩ | ⟨d', found', path, older, current, rfl⟩
    · exact .kept _ d found'
    · exact .retired handle commit field values d' there found' path older current
  | written handle commit docs there =>
    rcases Collection.eq_or_mem_of_get?_insertMany found with stamped | ⟨found', -⟩
    · exact .written handle commit docs d there stamped
    · exact .kept _ d found'

theorem stems_step (sound : session.Sound)
    (found : (session.step action).2.documents.get? id = some d) : session.Stems id action d :=
  (edits_step sound action).stems sound found

/--
Once old versions were retired, none of them is without end on the branch.
-/
theorem not_older_of_retire {handle : Nat} {commit : Commit} {field : String}
    {values : OrderedSet String} (sound : session.Sound)
    (there : session.commits[handle]? = some commit)
    (found : (session.step (.retire handle field values)).2.documents.get? id = some d)
    (path : d.path = commit.flatBranchPath) (current : d.ended = none) :
    ¬ d.Older commit.timepoint field values := by
  intro older
  have left : (session.ownEnded commit field values).get? id = some d → False := by
    intro found
    rcases exists_of_ownEnded sound found with ⟨-, not⟩ | ⟨d', -, -, -, -, rfl⟩
    · exact not ⟨path, older, current⟩
    · simp at current
  have out := retire_outcome sound there field values
  rw [step_retire there] at found
  generalize session.retire handle field values commit = result at out found
  cases out with
  | nothing none =>
    -- without values there is nothing that could be older
    obtain ⟨-, value, mem, -⟩ := older
    rw [none] at mem
    simp at mem
  | uncovered => exact left found
  | retired => exact left found

end

end TemporalStore.Session

/-! ## Versions that stay -/

namespace TemporalStore

/--
New versions get identities that no stored version has.
-/
def Action.Fresh (action : Action) (session : Session) : Prop :=
  match action with
  | .write handle docs => ∀ commit, session.commits[handle]? = some commit →
    ∀ id ∈ (session.site.host.ids.drawMany docs.length).1, session.documents.get? id = none
  | _ => True

namespace Session

def Fresh (session : Session) : List Action → Prop
  | [] => True
  | action :: actions => action.Fresh session ∧ (session.step action).2.Fresh actions

section

variable {session : Session} {action : Action} {id : VersionId} {d : Document}

/--
Of a version that is stored nothing ever changes but its end.
-/
theorem exists_ended_step (sound : session.Sound) (fresh : action.Fresh session)
    (found : session.documents.get? id = some d) :
    ∃ ended, (session.step action).2.documents.get? id = some { d with ended } := by
  have edits := edits_step sound action
  generalize (session.step action).2.documents = documents at edits ⊢
  cases edits with
  | still => exact ⟨d.ended, found⟩
  | ended ids t =>
    rw [Collection.get?_endVersions, found, Option.map_some]
    split
    · exact ⟨some t, rfl⟩
    · exact ⟨d.ended, rfl⟩
  | retired handle commit field values there =>
    rw [get?_ownEnded commit field values found]
    split
    · exact ⟨some commit.timepoint, rfl⟩
    · exact ⟨d.ended, rfl⟩
  | written handle commit docs there =>
    have absent : id ∉ (session.site.host.ids.drawMany docs.length).1 := by
      intro drawn
      simp [fresh commit there id drawn] at found
    exact ⟨d.ended, (Commit.get?_saveAll_of_not_mem absent).trans found⟩

theorem exists_ended_run (sound : session.Sound) (found : session.documents.get? id = some d)
    {actions : List Action} (permitted : session.Permits actions)
    (fresh : session.Fresh actions) :
    ∃ ended, (session.run actions).documents.get? id = some { d with ended } := by
  induction actions generalizing session d with
  | nil => exact ⟨d.ended, found⟩
  | cons action actions ih =>
    obtain ⟨allowed, permitted⟩ := permitted
    obtain ⟨first, fresh⟩ := fresh
    obtain ⟨ended, found'⟩ := exists_ended_step sound first found
    have kept := ih (stays_step sound allowed).sound found' permitted fresh
    exact kept

end

end Session

end TemporalStore
