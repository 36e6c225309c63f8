import TemporalStore.Proofs.Document.Collection
import TemporalStore.Proofs.Visibility.Levels
import TemporalStore.Visibility.Edit

/-!
This module contains the outcomes of retiring the versions that a commit is about to supersede.
-/

namespace TemporalStore

namespace Criteria

def within (index : RowIndex) (commit : Commit) : Criteria :=
  index.criteria commit.branch commit.timepoint commit.allReplaced

end Criteria

namespace Edit

variable {edit : Edit} {field : String} {values : OrderedSet String}

def ownIds (edit : Edit) (field : String) (values : OrderedSet String) : List VersionId :=
  (edit.documents.find ((Predicate.pathEq edit.commit.flatBranchPath).both
    (superseded edit.commit.timepoint field values))).filterMap Document.id

def ownEnded (edit : Edit) (field : String) (values : OrderedSet String) : Edit :=
  { edit with documents :=
      edit.documents.endVersions (edit.ownIds field values) edit.commit.timepoint }

def inheritedIds (edit : Edit) (field : String) (values : OrderedSet String) : List VersionId :=
  (edit.documents.find (((Criteria.within edit.site.directory.index edit.commit).toPredicate.both
    (superseded edit.commit.timepoint field values)).both
      (.not (.pathEq edit.commit.flatBranchPath)))).filterMap Document.id

def withHistory (edit : Edit) (history : HistoryCache) : Edit :=
  { edit with site := edit.site.withHistory history }

def hidden (edit : Edit) (history : HistoryCache) (ids : List VersionId) : Edit :=
  { edit.withHistory history with commit := edit.commit.hide ids }

inductive RetireOutcome (field : String) (values : OrderedSet String) (edit : Edit) :
    EStateM.Result StoreError Edit RetiredVersions → Prop where
  | nothing (none : values = ∅) : RetireOutcome field values edit (.ok {} edit)
  | uncovered (path : String) (t : Timepoint) (history : HistoryCache)
      (agrees : history.Agrees edit.site.directory.index)
      (missing : ¬ edit.site.directory.index.Covered (Path.ancestors edit.commit.branchPath)
        edit.commit.branch.base) :
      RetireOutcome field values edit
        (.error (.branchNotFoundAt path t) ((edit.ownEnded field values).withHistory history))
  | retired (counts : RetiredVersions) (history : HistoryCache)
      (agrees : history.Agrees edit.site.directory.index) (some : values ≠ ∅)
      (covered : edit.site.directory.index.Covered (Path.ancestors edit.commit.branchPath)
        edit.commit.branch.base) :
      RetireOutcome field values edit
        (.ok counts ((edit.ownEnded field values).hidden history
          ((edit.ownEnded field values).inheritedIds field values)))

theorem onDirectory_ok {α : Type} {act : DirectoryM α} {a : α} {site : Site}
    (h : act edit.site = .ok a site) :
    (monadLift act : EditM α) edit = .ok a { edit with site } := by
  simp only [monadLift, MonadLift.monadLift, h]

theorem onDirectory_error {α : Type} {act : DirectoryM α} {e : StoreError} {site : Site}
    (h : act edit.site = .error e site) :
    (monadLift act : EditM α) edit = .error e { edit with site } := by
  simp only [monadLift, MonadLift.monadLift, h]

theorem endOwn_eq : endOwn (superseded edit.commit.timepoint field values) edit =
    .ok ((edit.ownEnded field values).documents.countStored (edit.ownIds field values))
      (edit.ownEnded field values) := rfl

/-! ## Any directory -/

section

variable {criteria : Criteria} {site : Site} {e : StoreError}

/--
The versions elsewhere that the commit is about to hide, if `criteria` tell what it sees.
-/
def acceptedIds (edit : Edit) (criteria : Criteria) (field : String)
    (values : OrderedSet String) : List VersionId :=
  edit.documents.ids ((criteria.toPredicate.both
    (superseded edit.commit.timepoint field values)).both
      (.not (.pathEq edit.commit.flatBranchPath)))

theorem hideInherited_ok (answer : Criteria.ofCommit edit.commit edit.site = .ok criteria site) :
    hideInherited (superseded edit.commit.timepoint field values) edit =
      .ok (edit.acceptedIds criteria field values).length { edit with
        site, commit := edit.commit.hide (edit.acceptedIds criteria field values) } := by
  have found : (monadLift (Criteria.ofCommit edit.commit) : EditM Criteria) edit = _ :=
    onDirectory_ok answer
  unfold hideInherited
  rw [get_bind, bind_ok found]
  rfl

theorem hideInherited_error (answer : Criteria.ofCommit edit.commit edit.site = .error e site) :
    hideInherited (superseded edit.commit.timepoint field values) edit =
      .error e { edit with site } := by
  have found : (monadLift (Criteria.ofCommit edit.commit) : EditM Criteria) edit = _ :=
    onDirectory_error answer
  unfold hideInherited
  rw [get_bind, bind_error found]

theorem retire_ok (some : values ≠ ∅)
    (answer : Criteria.ofCommit edit.commit edit.site = .ok criteria site) :
    retire field values edit =
      .ok { replaced := ((edit.ownEnded field values).acceptedIds criteria field values).length
            ended := (edit.ownEnded field values).documents.countStored (edit.ownIds field values) }
        { edit.ownEnded field values with
          site
          commit := edit.commit.hide
            ((edit.ownEnded field values).acceptedIds criteria field values) } := by
  have hides := @hideInherited_ok (edit.ownEnded field values) field values criteria site answer
  unfold retire
  rw [if_neg some, get_bind, bind_ok endOwn_eq]
  have hides : hideInherited (superseded edit.commit.timepoint field values)
      (edit.ownEnded field values) = _ := hides
  rw [bind_ok hides]
  rfl

/--
The versions on the branch itself have been ended when the ancestors are looked up.
-/
theorem retire_error (some : values ≠ ∅)
    (answer : Criteria.ofCommit edit.commit edit.site = .error e site) :
    retire field values edit = .error e { edit.ownEnded field values with site } := by
  have failed : hideInherited (superseded edit.commit.timepoint field values)
      (edit.ownEnded field values) = _ := hideInherited_error answer
  unfold retire
  rw [if_neg some, get_bind, bind_ok endOwn_eq, bind_error failed]

end

/-! ## Valid directories -/

theorem retire_outcome {now : Timepoint} (h : edit.site.directory.index.Valid now)
    (agrees : edit.site.directory.history.Agrees edit.site.directory.index) (field : String)
    (values : OrderedSet String) : RetireOutcome field values edit (retire field values edit) := by
  by_cases none : values = ∅
  · unfold retire
    rw [if_pos none]
    exact .nothing none
  · obtain ⟨history, agrees', outcome⟩ := Criteria.build_eq h agrees edit.commit.branch
      edit.commit.timepoint edit.commit.allReplaced
    rcases outcome with ⟨covered, answer⟩ | ⟨missing, path, t, answer⟩
    · rw [retire_ok none answer]
      exact .retired _ history agrees' none covered
    · rw [retire_error none answer]
      exact .uncovered path t history agrees' missing

end Edit

end TemporalStore
