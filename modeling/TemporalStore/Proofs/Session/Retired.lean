import TemporalStore.Proofs.Session.Visible
import TemporalStore.Proofs.Visibility.Retire

/-!
This module contains what a writer sees under a commit after old versions were retired.
-/

namespace TemporalStore

namespace Session

variable {session : Session} {handle : Nat} {commit : Commit} {field : String}
  {values : OrderedSet String} {id : VersionId} {d : Document}

theorem mem_ownIds_iff (sound : session.Sound) (found : session.documents.get? id = some d) :
    id ∈ (session.editing commit).ownIds field values ↔
      d.path = commit.flatBranchPath ∧ d.Older commit.timepoint field values ∧ d.ended = none := by
  have ids := @Collection.Keyed.mem_ids_iff session.documents id sound.keyed
    ((Predicate.pathEq commit.flatBranchPath).both
      (Edit.superseded commit.timepoint field values))
  refine ids.trans ?_
  rw [← Edit.accepts_superseded_iff]
  simp [found, Predicate.accepts]

theorem get?_ownEnded (commit : Commit) (field : String) (values : OrderedSet String)
    (found : session.documents.get? id = some d) :
    (session.ownEnded commit field values).get? id =
      some (if id ∈ (session.editing commit).ownIds field values then
        { d with ended := some commit.timepoint } else d) := by
  change (session.documents.endVersions _ commit.timepoint).get? id = _
  rw [Collection.get?_endVersions, found]
  rfl

theorem mem_inheritedIds_iff (sound : session.Sound)
    (found : (session.ownEnded commit field values).get? id = some d) :
    id ∈ session.inheritedIds commit field values ↔
      (Criteria.within session.site.directory.index commit).toPredicate.accepts d ∧
        (d.Older commit.timepoint field values ∧ d.ended = none) ∧
          d.path ≠ commit.flatBranchPath := by
  have keyed := keyed_ownEnded sound commit field values
  change id ∈ (session.ownEnded commit field values).ids
    (((Criteria.within session.site.directory.index commit).toPredicate.both
      (Edit.superseded commit.timepoint field values)).both
        (.not (.pathEq commit.flatBranchPath))) ↔ _
  rw [keyed.mem_ids_iff, ← Edit.accepts_superseded_iff]
  simp [found, Predicate.accepts, and_assoc]

/--
What a writer sees of a stored version after the old ones were retired: it is left out if it is an
older one that had not ended.
-/
theorem accepts_within_hide_iff (sound : session.Sound) (hp : Path.Valid commit.branchPath)
    (found : session.documents.get? id = some d) :
    (∃ d', (session.ownEnded commit field values).get? id = some d' ∧
      (Criteria.within session.site.directory.index
        (commit.hide (session.inheritedIds commit field values))).toPredicate.accepts d') ↔
      (Criteria.within session.site.directory.index commit).toPredicate.accepts d ∧
        ¬ (d.Older commit.timepoint field values ∧ d.ended = none) := by
  have valid := sound.site.consistent.valid
  have known := sound.keyed id d found
  have ended := get?_ownEnded commit field values found
  have own := @mem_ownIds_iff session commit field values id d sound found
  have elsewhere : ∀ d' hidden, session.site.directory.index.Inherits commit.branch hidden d' →
      d'.path ≠ commit.flatBranchPath := fun _ _ => valid.path_ne_of_inherits hp
  have within : ∀ commit' : Commit, commit'.branch = commit.branch →
      commit'.timepoint = commit.timepoint → ∀ d' : Document,
      ((Criteria.within session.site.directory.index commit').toPredicate.accepts d' ↔
        (d'.path = commit.flatBranchPath ∧ d'.start ≤ commit.timepoint ∧ d'.ended = none) ∨
          session.site.directory.index.Inherits commit.branch commit'.allReplaced d') := by
    intro commit' branch time d'
    unfold Criteria.within
    rw [RowIndex.accepts_criteria_iff, branch, time]
    rfl
  rw [ended]
  simp only [Option.some.injEq, exists_eq_left']
  rw [within (commit.hide _) rfl rfl, within commit rfl rfl, Commit.allReplaced_hide]
  by_cases here : d.path = commit.flatBranchPath
  · -- on the branch itself nothing is hidden, but an older version without end has one now
    have notInherited :
        ¬ session.site.directory.index.Inherits commit.branch commit.allReplaced d :=
      fun inherits => elsewhere d _ inherits here
    split
    · rename_i mem
      have older := (own.1 mem).2
      constructor
      · rintro (⟨-, -, current⟩ | inherits)
        · simp at current
        · have other := elsewhere _ _ inherits
          exact absurd here other
      · rintro ⟨-, other⟩
        exact absurd older other
    · rename_i not
      rw [own] at not
      rw [valid.inherits_insertMany_iff hp known]
      simp only [here, true_and] at not ⊢
      simp only [notInherited, false_and, or_false, not, not_false_eq_true, and_true]
  · -- elsewhere nothing is ended, but what is superseded without end is hidden
    have kept : id ∉ (session.editing commit).ownIds field values := fun mem => here (own.1 mem).1
    rw [if_neg kept] at ended ⊢
    have hidden := mem_inheritedIds_iff sound ended
    rw [within commit rfl rfl] at hidden
    rw [valid.inherits_insertMany_iff hp known, hidden]
    simp only [here, false_and, false_or, ne_eq, not_false_eq_true, and_true]
    grind

theorem visibleWithin_retire (sound : session.Sound)
    (there : session.commits[handle]? = some commit)
    (open' : commit.IsOpen session.site.directory.openCommits) (field : String)
    (values : OrderedSet String) :
    (session.step (.retire handle field values)).1 = .ok () ∧
      ∃ before after, session.visibleWithin handle = .ok before ∧
        (session.step (.retire handle field values)).2.visibleWithin handle = .ok after ∧
        ∀ id, id ∈ after ↔ id ∈ before ∧ ∀ d, session.documents.get? id = some d →
          ¬ (d.Older commit.timepoint field values ∧ d.ended = none) := by
  have hc := List.mem_of_getElem? there
  have hp := (sound.site.consistent.formed commit hc).valid
  have covered := covered_of_isOpen sound hc open'
  have before := visibleWithin_eq sound there open'
  have out := retire_outcome sound there field values
  have stays := @stays_step session sound (.retire handle field values) trivial
  rw [step_retire there] at stays ⊢
  generalize session.retire handle field values commit = result at out stays ⊢
  cases out with
  | nothing none =>
    refine ⟨rfl, _, _, before, before, ?_⟩
    intro id
    simp [Document.Older, Document.Matches, none]
  | uncovered path t history agrees missing => exact absurd covered missing
  | retired history agrees some covered =>
    obtain ⟨lt, -⟩ := List.getElem?_eq_some_iff.1 there
    have there' : (session.commits.set handle
        (commit.hide (session.inheritedIds commit field values)))[handle]? =
        .some (commit.hide (session.inheritedIds commit field values)) :=
      List.getElem?_set_self lt
    have after := visibleWithin_eq stays.sound there' open'
    refine ⟨rfl, _, _, before, after, ?_⟩
    intro id
    rw [stays.sound.keyed.mem_ids_iff, sound.keyed.mem_ids_iff]
    constructor
    · rintro ⟨d', found', accepted⟩
      have stored := found'
      change (session.documents.endVersions _ _).get? id = _ at stored
      rw [Collection.get?_endVersions, Option.map_eq_some_iff] at stored
      obtain ⟨d, found, -⟩ := stored
      obtain ⟨accepted, other⟩ := (accepts_within_hide_iff sound hp found).1 ⟨d', found', accepted⟩
      refine ⟨⟨d, found, accepted⟩, ?_⟩
      intro d'' found''
      rw [found, Option.some.injEq] at found''
      rw [← found'']
      exact other
    · rintro ⟨⟨d, found, accepted⟩, other⟩
      exact (accepts_within_hide_iff sound hp found).2 ⟨accepted, other d found⟩

/--
Retiring old versions changes neither the rows nor which commits are open, and of the documents
only when they end.
-/
structure Retired (session next : Session) (handle : Nat) (commit : Commit) : Prop where
  handle : ∃ commit', next.commits[handle]? = some commit' ∧ commit'.bare = commit.bare ∧
    commit'.IsOpen next.site.directory.openCommits
  index : next.site.directory.index = session.site.directory.index
  host : next.site.host = session.site.host
  documents : ∀ id, ∃ end? : Document → Option Timepoint,
    next.documents.get? id = (session.documents.get? id).map fun d => { d with ended := end? d }

theorem retired_retire (sound : session.Sound) (there : session.commits[handle]? = some commit)
    (open' : commit.IsOpen session.site.directory.openCommits) (field : String)
    (values : OrderedSet String) :
    Retired session (session.step (.retire handle field values)).2 handle commit := by
  have out := retire_outcome sound there field values
  have ended : ∀ id, ∃ end? : Document → Option Timepoint,
      (session.ownEnded commit field values).get? id =
        (session.documents.get? id).map fun d => { d with ended := end? d } := by
    intro id
    change ∃ end?, (session.documents.endVersions _ commit.timepoint).get? id = _
    rw [Collection.get?_endVersions]
    by_cases mem : id ∈ (session.editing commit).ownIds field values
    · exact ⟨fun _ => some commit.timepoint, by simp only [mem, if_true]⟩
    · exact ⟨Document.ended, by simp only [mem, if_false]⟩
  rw [step_retire there]
  generalize session.retire handle field values commit = result at out ⊢
  cases out with
  | nothing none =>
    exact ⟨⟨commit, there, rfl, open'⟩, rfl, rfl, fun id => ⟨Document.ended, by simp⟩⟩
  | uncovered path t history agrees missing =>
    exact ⟨⟨commit, there, rfl, open'⟩, rfl, rfl, ended⟩
  | retired history agrees some covered =>
    obtain ⟨lt, -⟩ := List.getElem?_eq_some_iff.1 there
    exact ⟨⟨_, List.getElem?_set_self lt, rfl, open'⟩, rfl, rfl, ended⟩

/--
Older versions are out of sight if and only if none of them had ended before.
-/
theorem Retired.gone_iff {next : Session} (retired : Retired session next handle commit)
    {before after : List VersionId}
    (rest : ∀ id, id ∈ after ↔ id ∈ before ∧ ∀ d, session.documents.get? id = some d →
      ¬ (d.Older commit.timepoint field values ∧ d.ended = none)) :
    (∀ id ∈ after, ∀ d, next.documents.get? id = some d →
        ¬ d.Older commit.timepoint field values) ↔
      ∀ id ∈ before, ∀ d, session.documents.get? id = some d →
        d.Older commit.timepoint field values → d.ended = none := by
  constructor
  · intro gone id mem d found older
    by_contra ended
    have still : id ∈ after := by
      rw [rest]
      refine ⟨mem, ?_⟩
      rintro d' found' ⟨-, current⟩
      rw [found, Option.some.injEq] at found'
      rw [found'] at ended
      exact ended current
    obtain ⟨end?, same⟩ := retired.documents id
    rw [found] at same
    exact gone id still _ same older
  · intro current id mem d' found' older
    obtain ⟨mem, other⟩ := (rest id).1 mem
    obtain ⟨end?, same⟩ := retired.documents id
    rw [found', @eq_comm _ (some d'), Option.map_eq_some_iff] at same
    obtain ⟨d, found, rfl⟩ := same
    exact other d found ⟨older, current id mem d found older⟩

end Session

end TemporalStore
