import TemporalStore.Proofs.Directory.Open
import TemporalStore.Proofs.Session.Sound

/-!
This module contains what is seen of the documents of a session: on a branch, and under a commit.
-/

namespace TemporalStore.Session

def visible (session : Session) (path : String) : Except StoreError (List VersionId) :=
  match Criteria.ofBranch path session.site with
  | .ok criteria _ => .ok (session.documents.ids criteria.toPredicate)
  | .error e _ => .error e

def visibleWithin (session : Session) (handle : Nat) : Except StoreError (List VersionId) :=
  match session.commits[handle]? with
  | none => .error (.commitState s!"There is no commit {handle}")
  | some commit =>
    match Criteria.ofCommit commit session.site with
    | .ok criteria _ => .ok (session.documents.ids criteria.toPredicate)
    | .error e _ => .error e

section

variable {session : Session} {path : String} {row : BranchRow}

theorem visible_eq (sound : session.Sound) (hp : Path.Valid path)
    (last : session.site.directory.index.last? path = some row) :
    session.visible path = .ok (session.documents.ids
      (session.site.directory.index.criteria row row.head row.replaced).toPredicate) := by
  obtain ⟨history, -, answer⟩ :=
    Criteria.ofBranch_eq sound.site.consistent.valid sound.site.agrees hp last
  unfold visible
  rw [answer]

theorem visible_of_absent (sound : session.Sound) (hp : Path.Valid path)
    (last : session.site.directory.index.last? path = none) :
    session.visible path = .error (.branchNotFound path) := by
  unfold visible
  rw [Criteria.ofBranch_of_absent sound.site.consistent.valid hp last]

theorem covered_of_isOpen {commit : Commit} (sound : session.Sound) (hc : commit ∈ session.commits)
    (open' : commit.IsOpen session.site.directory.openCommits) :
    session.site.directory.index.Covered (Path.ancestors commit.branchPath)
      commit.branch.base := by
  have valid := (sound.site.consistent.formed commit hc).valid
  have live := sound.site.consistent.live commit hc open'
  exact sound.site.consistent.valid.covered valid live.begins

theorem visibleWithin_eq {handle : Nat} {commit : Commit} (sound : session.Sound)
    (there : session.commits[handle]? = some commit)
    (open' : commit.IsOpen session.site.directory.openCommits) :
    session.visibleWithin handle = .ok (session.documents.ids
      (Criteria.within session.site.directory.index commit).toPredicate) := by
  have covered := covered_of_isOpen sound (List.mem_of_getElem? there) open'
  obtain ⟨history, -, answer⟩ := Criteria.build_of_covered sound.site.consistent.valid
    sound.site.agrees covered commit.timepoint commit.allReplaced
  unfold visibleWithin Criteria.ofCommit
  rw [there]
  simp only [answer]
  rfl

end

end TemporalStore.Session
