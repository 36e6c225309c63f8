import TemporalStore.Document.Collection
import TemporalStore.Visibility.Build

/-!
This module contains what a writer does to documents under an open commit: retire the versions
that are about to be superseded, and stamp the new ones.
-/

namespace TemporalStore

/--
An open commit with the collection that is edited under it.
-/
structure Edit where
  site : Site
  commit : Commit
  documents : Collection
  deriving DecidableEq

/--
An operation on an edit. What it did before it failed stays done.
-/
abbrev EditM := EStateM StoreError Edit

instance : MonadLift DirectoryM EditM where
  monadLift act := fun edit =>
    match act edit.site with
    | .ok a site => .ok a { edit with site }
    | .error e site => .error e { edit with site }

structure RetiredVersions where
  /-- Versions of ancestors, hidden by the commit. -/
  replaced : Nat := 0
  /-- Versions on the branch itself, ended at the timepoint of the commit. -/
  ended : Nat := 0
  deriving DecidableEq, Repr, Inhabited

namespace Edit

/--
Accepts the versions that a commit at `t` supersedes: older ones, not ended, in which the field
has one of the values.
-/
def superseded (t : Timepoint) (field : String) (values : OrderedSet String) : Predicate :=
  ((Predicate.startLt t).both .endUnset).both (.fieldIn field values)

def findIds (p : Predicate) : EditM (List VersionId) := do
  return ((← get).documents.find p).filterMap Document.id

def endOwn (old : Predicate) : EditM Nat := do
  let commit := (← get).commit
  let ids ← findIds ((Predicate.pathEq commit.flatBranchPath).both old)
  modify fun edit => { edit with documents := edit.documents.endVersions ids commit.timepoint }
  return (← get).documents.countStored ids

def hideInherited (old : Predicate) : EditM Nat := do
  let commit := (← get).commit
  let criteria ← Criteria.ofCommit commit
  let ids ← findIds
    ((criteria.toPredicate.both old).both (.not (.pathEq commit.flatBranchPath)))
  modify fun edit => { edit with commit := edit.commit.hide ids }
  return ids.length

/--
Retires the versions that the commit is about to supersede, before the new ones are saved. Those
on the branch itself are ended; those of ancestors are left alone, because others still inherit
them, and hidden by the commit.
-/
def retire (field : String) (values : OrderedSet String) : EditM RetiredVersions := do
  if values = ∅ then
    return {}
  let old := superseded (← get).commit.timepoint field values
  let ended ← endOwn old
  let replaced ← hideInherited old
  return { replaced, ended }

end Edit

namespace Commit

/--
The document as a version written under the commit, whose identity is yet to be assigned.
-/
def stamp (commit : Commit) (d : Document) : Document :=
  { d with id := none, path := commit.flatBranchPath, start := commit.timepoint, ended := none }

end Commit

def withoutDeleted (docs : List Document) : List Document := docs.filter (!·.deleted)

end TemporalStore
