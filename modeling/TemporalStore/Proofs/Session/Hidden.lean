import TemporalStore.Proofs.Session.Completed
import TemporalStore.Proofs.Session.Settled

/-!
This module contains where the versions come from that are hidden under a handle or on a branch
after an action. As long as only edits hide anything, a branch hides nothing that was written on it.
-/

namespace TemporalStore.Session

open Directory

/--
Why a version is hidden under a handle after an action was done.
-/
inductive Hides (session : Session) (id : VersionId) : Action → Commit → Prop where
  | kept (action : Action) (commit before : Commit) (hb : before ∈ session.commits)
    (same : before.bare = commit.bare) (mem : id ∈ before.replaced) :
    Hides session id action commit
  | hidden (handle : Nat) (ids : List VersionId) (commit : Commit) (mem : id ∈ ids) :
    Hides session id (.hide handle ids) commit
  | retired (handle : Nat) (field : String) (values : OrderedSet String) (commit : Commit)
    (d : Document) (found : session.documents.get? id = some d)
    (elsewhere : d.path ≠ commit.flatBranchPath) :
    Hides session id (.retire handle field values) commit

section

variable {session : Session} {action : Action} {commit : Commit} {id : VersionId}

/-! ## Under a handle -/

theorem hides_of_same {commits : List Commit} (same : commits = session.commits)
    (hc : commit ∈ commits) (mem : id ∈ commit.replaced) : session.Hides id action commit := by
  rw [same] at hc
  exact .kept action commit commit hc rfl mem

theorem hides_reopen {cacheSize : Nat} (hc : commit ∈ (session.reopen cacheSize).2.commits)
    (mem : id ∈ commit.replaced) : session.Hides id (.reopen cacheSize) commit := by
  unfold reopen at hc
  cases file : session.site.directory.file with
  | none =>
    rw [file] at hc
    exact hides_of_same rfl hc mem
  | some name =>
    simp only [file] at hc
    cases loaded : load name cacheSize session.site.host with
    | ok directory host => simp [loaded] at hc
    | error e host =>
      rw [loaded] at hc
      exact hides_of_same rfl hc mem

/--
A commit hides nothing when it is opened.
-/
theorem hides_opened {act : DirectoryM Commit} (sound : session.Sound)
    (effect : session.Effect action (session.call act addCommit))
    (hc : commit ∈ (session.call act addCommit).2.commits) (mem : id ∈ commit.replaced) :
    session.Hides id action commit := by
  cases answer : act session.site with
  | error e site =>
    rw [call_error answer] at hc
    exact hides_of_same rfl hc mem
  | ok opened site =>
    rw [call_ok answer] at effect hc
    rcases List.mem_append.1 hc with hc | hc
    · exact hides_of_same rfl hc mem
    · rw [List.mem_singleton.1 hc, ← (effect.issued sound rfl).bare] at mem
      simp [Commit.bare] at mem

theorem hides_set {handle : Nat} {before : Commit} {ids : List VersionId}
    (there : session.commits[handle]? = some before)
    (listed : ∀ id ∈ ids, session.Hides id action (before.hide ids))
    (hc : commit ∈ session.commits.set handle (before.hide ids)) (mem : id ∈ commit.replaced) :
    session.Hides id action commit := by
  rcases List.mem_or_eq_of_mem_set hc with hc | rfl
  · exact hides_of_same rfl hc mem
  · rcases OrderedSet.mem_insertMany.1 mem with old | new
    · exact .kept action _ before (List.mem_of_getElem? there) rfl old
    · exact listed id new

theorem hides_withHandle {handle : Nat} {act : Commit → Except StoreError Unit × Session}
    (hides : ∀ before, session.commits[handle]? = some before → commit ∈ (act before).2.commits →
      session.Hides id action commit)
    (hc : commit ∈ (session.withHandle handle act).2.commits) (mem : id ∈ commit.replaced) :
    session.Hides id action commit := by
  unfold withHandle at hc
  cases there : session.commits[handle]? with
  | some before =>
    rw [there] at hc
    exact hides before there hc
  | none =>
    rw [there] at hc
    exact hides_of_same rfl hc mem

/--
Old versions are hidden if they were not written on the branch, and ended if they were.
-/
theorem exists_elsewhere_of_mem_inheritedIds {field : String} {values : OrderedSet String}
    (sound : session.Sound) (mem : id ∈ session.inheritedIds commit field values) :
    ∃ d, session.documents.get? id = some d ∧ d.path ≠ commit.flatBranchPath := by
  have keyed := keyed_ownEnded sound commit field values
  obtain ⟨d, found, -⟩ := keyed.mem_ids_iff.1 mem
  obtain ⟨-, -, elsewhere⟩ := (mem_inheritedIds_iff sound found).1 mem
  rcases exists_of_ownEnded sound found with ⟨found', -⟩ | ⟨d', -, here, -, -, rfl⟩
  · exact ⟨d, found', elsewhere⟩
  · exact absurd here elsewhere

theorem hides_retire {handle : Nat} {before : Commit} {field : String}
    {values : OrderedSet String} (sound : session.Sound)
    (there : session.commits[handle]? = some before)
    (hc : commit ∈ (session.retire handle field values before).2.commits)
    (mem : id ∈ commit.replaced) : session.Hides id (.retire handle field values) commit := by
  have out := retire_outcome sound there field values
  generalize session.retire handle field values before = result at out hc
  cases out with
  | nothing none => exact hides_of_same rfl hc mem
  | uncovered path t history agrees missing => exact hides_of_same rfl hc mem
  | retired history agrees some covered =>
    apply hides_set there _ hc mem
    intro id listed
    obtain ⟨d, found, elsewhere⟩ := exists_elsewhere_of_mem_inheritedIds sound listed
    exact .retired handle field values _ d found elsewhere

theorem hides_step (sound : session.Sound) (allowed : action.Allowed session)
    (hc : commit ∈ (session.step action).2.commits) (mem : id ∈ commit.replaced) :
    session.Hides id action commit := by
  have stay {α : Type} (act : DirectoryM α) (hc : commit ∈ (session.call act).2.commits) :
      session.Hides id action commit := hides_of_same commits_call hc mem
  cases action with
  | surroundings host => exact hides_of_same rfl hc mem
  | subscribers events => exact hides_of_same rfl hc mem
  | create path => exact stay (create path) hc
  | lock path => exact stay (lock path) hc
  | unlock path => exact stay (unlock path) hc
  | forceUnlock path => exact stay (forceUnlock path) hc
  | openCommit path kind => exact hides_opened sound (effect_step sound allowed) hc mem
  | openPromotion path source => exact hides_opened sound (effect_step sound allowed) hc mem
  | complete handle =>
    apply hides_withHandle _ hc mem
    intro before _ hc
    exact stay (complete before) hc
  | purge => exact stay purge hc
  | save => exact stay save hc
  | reopen cacheSize => exact hides_reopen hc mem
  | latest path => exact stay (latestWithStanding? path) hc
  | rowAt path t => exact stay (rowAt path t) hc
  | criteria path => exact stay (Criteria.ofBranch path) hc
  | hide handle ids =>
    apply hides_withHandle _ hc mem
    intro before there hc
    rw [List.modify_eq_set_getElem?, there] at hc
    exact hides_set there (fun id listed => .hidden handle ids _ listed) hc mem
  | retire handle field values =>
    apply hides_withHandle _ hc mem
    intro before there hc
    exact hides_retire sound there hc mem
  | write handle docs =>
    apply hides_withHandle _ hc mem
    intro before _ hc
    exact hides_of_same rfl hc mem
  | endVersions ids t => exact hides_of_same rfl hc mem

/-! ## On a branch -/

theorem exists_hiding_of_setLocked {index : RowIndex} {path q : String} {locked : Bool}
    {row : BranchRow} (hq : Path.Valid q) (hp : Path.Valid path)
    (last : (index.setLocked q locked).last? path = some row) (mem : id ∈ row.replaced) :
    ∃ before, index.last? path = some before ∧ id ∈ before.replaced := by
  rw [RowIndex.last?_setLocked _ _ hq hp] at last
  split at last
  · rename_i same
    obtain ⟨before, last', rfl⟩ := Option.map_eq_some_iff.1 last
    exact ⟨before, same ▸ last', mem⟩
  · exact ⟨row, last, mem⟩

theorem mem_replaced_nextRow {row : BranchRow} {source : Option BranchRow} :
    id ∈ (nextRow commit (row.close commit.timepoint) source).replaced ↔
      id ∈ row.replaced ∨ id ∈ commit.replaced ∨ id ∈ source.elim ∅ BranchRow.replaced := by
  unfold nextRow BranchRow.close
  simp only [OrderedSet.mem_union, or_assoc]

/--
What a branch hides after an action: what it has hidden before, and what was hidden under a commit
that has just been completed on it, or on the source of that commit.
-/
theorem Effect.hidden {result : Except StoreError Unit × Session} {path : String} {row : BranchRow}
    (effect : session.Effect action result) (sound : session.Sound) (hp : Path.Valid path)
    (last : result.2.site.directory.index.last? path = some row) (mem : id ∈ row.replaced) :
    (∃ before, session.site.directory.index.last? path = some before ∧ id ∈ before.replaced) ∨
      ∃ commit ∈ session.commits, commit.branchPath = path ∧
        (id ∈ commit.replaced ∨ id ∈ sourceReplaced session.site.directory.index commit) := by
  cases effect with
  | still _ _ _ _ index =>
    rw [index] at last
    exact .inl ⟨row, last, mem⟩
  | created q base next hq absent inherits index =>
    rw [index, RowIndex.last?_put_singleton _ _ hq hp] at last
    split at last
    · rw [← Option.some.inj last] at mem
      simp [BranchRow.fresh] at mem
    · exact .inl ⟨row, last, mem⟩
  | locked q _ _ hq _ _ index =>
    rw [index] at last
    exact .inl (exists_hiding_of_setLocked hq hp last mem)
  | unlocked q _ _ hq _ _ index =>
    rw [index] at last
    exact .inl (exists_hiding_of_setLocked hq hp last mem)
  | forced q _ _ hq _ _ index =>
    rw [index] at last
    exact .inl (exists_hiding_of_setLocked hq hp last mem)
  | forcedBoth q _ partner _ _ hq hr _ _ index =>
    rw [index] at last
    obtain ⟨middle, last', mem'⟩ := exists_hiding_of_setLocked hr hp last mem
    exact .inl (exists_hiding_of_setLocked hq hp last' mem')
  | opened q kind _ _ hq _ _ index =>
    rw [index] at last
    exact .inl (exists_hiding_of_setLocked hq hp last mem)
  | openedBoth q source _ _ _ hq hs _ _ _ _ _ index =>
    rw [index] at last
    obtain ⟨middle, last', mem'⟩ := exists_hiding_of_setLocked hs hp last mem
    exact .inl (exists_hiding_of_setLocked hq hp last' mem')
  | completed handle commit before next there held kind single index =>
    have hc := List.mem_of_getElem? there
    have hq := (sound.site.consistent.formed commit hc).valid
    rw [index, completedIndex, RowIndex.last?_advance _ _ _ hq hp] at last
    split at last
    · rename_i same
      rw [← Option.some.inj last] at mem
      rcases mem_replaced_nextRow.1 mem with old | new | none
      · exact .inl ⟨before, same ▸ held.last, old⟩
      · exact .inr ⟨commit, hc, same.symm, .inl new⟩
      · simp at none
    · exact .inl ⟨row, last, mem⟩
  | promoted handle commit before source sourceRow next there held double hs distinct sourceHeld
      index =>
    have hc := List.mem_of_getElem? there
    have hq := (sound.site.consistent.formed commit hc).valid
    rw [index, promotedIndex, RowIndex.last?_advance _ _ _ hs hp] at last
    split at last
    · -- the source starts anew with nothing hidden
      rw [← Option.some.inj last] at mem
      simp [BranchRow.fresh] at mem
    · rw [RowIndex.last?_advance _ _ _ hq hp] at last
      split at last
      · rename_i same
        rw [← Option.some.inj last] at mem
        rcases mem_replaced_nextRow.1 mem with old | new | above
        · exact .inl ⟨before, same ▸ held.last, old⟩
        · exact .inr ⟨commit, hc, same.symm, .inl new⟩
        · refine .inr ⟨commit, hc, same.symm, .inr ?_⟩
          rw [sourceReplaced_of_last? double sourceHeld.last]
          exact above
      · exact .inl ⟨row, last, mem⟩
  | purged next index =>
    rw [index] at last
    simp [RowIndex.last?, RowIndex.timeline] at last
  | reopened _ _ _ index =>
    rw [index] at last
    exact .inl ⟨row, last, mem⟩

end

end TemporalStore.Session
