import TemporalStore.Proofs.Session.Visible
import TemporalStore.Proofs.Visibility.Hiding

/-!
This module contains what a branch shows after a commit was completed on it.
-/

namespace TemporalStore.Session

open Directory

variable {session : Session} {handle : Nat} {commit : Commit}

/--
What is hidden on the source of a promotion.
-/
def sourceReplaced (index : RowIndex) (commit : Commit) : OrderedSet VersionId :=
  commit.source.elim ∅ fun source => (index.last? source).elim ∅ BranchRow.replaced

theorem sourceReplaced_of_single {index : RowIndex} (single : commit.source = none) :
    sourceReplaced index commit = ∅ := by
  unfold sourceReplaced
  rw [single]
  rfl

theorem sourceReplaced_of_last? {index : RowIndex} {source : String} {row : BranchRow}
    (double : commit.source = some source) (last : index.last? source = some row) :
    sourceReplaced index commit = row.replaced := by
  unfold sourceReplaced
  rw [double, Option.elim_some, last, Option.elim_some]

structure Completed (index index' : RowIndex) (commit : Commit) (row : BranchRow) : Prop where
  last : index'.last? commit.branchPath = some row
  path : row.path = commit.branchPath
  base : row.base = commit.branch.base
  head : row.head = commit.timepoint
  replaced : row.replaced = commit.allReplaced ∪ sourceReplaced index commit
  before : index.SameBefore index' commit.timepoint

theorem replaced_nextRow {row : BranchRow} {source : Option BranchRow}
    {hidden : OrderedSet VersionId} (same : row.replaced = commit.branch.replaced)
    (sourceHidden : source.elim ∅ BranchRow.replaced = hidden) :
    (nextRow commit (row.close commit.timepoint) source).replaced =
      commit.allReplaced ∪ hidden := by
  unfold nextRow BranchRow.close Commit.allReplaced
  rw [same, sourceHidden]

theorem exists_completed (sound : session.Sound) (hc : commit ∈ session.commits)
    {site : Site} {row : BranchRow}
    (done : Directory.complete commit session.site = .ok row site) :
    Completed session.site.directory.index site.directory.index commit row := by
  have valid := sound.site.consistent.valid
  have formed := sound.site.consistent.formed commit hc
  have out := sound.site.consistent.complete_cases hc
  rw [done] at out
  cases out with
  | alone held _ isHeld replaced _ single written =>
    cases written with
    | completed host kept =>
      constructor
      · exact RowIndex.last?_advance_self _ _ _ formed.valid
      · rfl
      · rfl
      · rfl
      · exact replaced_nextRow replaced (sourceReplaced_of_single single).symm
      · exact valid.sameBefore_advance formed.valid isHeld.last rfl
  | promotion held source sourceRow _ isHeld replaced double validSource distinct sourceHeld
      written =>
    have first := valid.sameBefore_advance formed.valid isHeld.last
      (rfl : (nextRow commit (held.close commit.timepoint)
        (some (sourceRow.close commit.timepoint))).start = commit.timepoint)
    -- the source goes on in an index in which the branch has gone on
    have middle := (sound.site.consistent.advanced hc isHeld
      (some (sourceRow.close commit.timepoint))).valid
    have sourceLast := (RowIndex.last?_advance_of_ne session.site.directory.index
      (held.close commit.timepoint) (nextRow commit (held.close commit.timepoint)
        (some (sourceRow.close commit.timepoint))) formed.valid validSource distinct).trans
          sourceHeld.last
    cases written with
    | completed host kept =>
      constructor
      · exact (RowIndex.last?_advance_of_ne _ _ _ validSource formed.valid
          (Ne.symm distinct)).trans (RowIndex.last?_advance_self _ _ _ formed.valid)
      · rfl
      · rfl
      · rfl
      · exact replaced_nextRow replaced (sourceReplaced_of_last? double sourceHeld.last).symm
      · exact first.trans (middle.sameBefore_advance validSource sourceLast rfl)

theorem Completed.accepts_iff {index index' : RowIndex} {now : Timepoint} {row : BranchRow}
    {d : Document} {id : VersionId} (h : Completed index index' commit row)
    (valid : index.Valid now) (formed : commit.Formed now) (known : d.id = some id) :
    (index'.criteria row row.head row.replaced).toPredicate.accepts d ↔
      (Criteria.within index commit).toPredicate.accepts d ∧
        (d.path = commit.flatBranchPath ∨ id ∉ sourceReplaced index commit) := by
  have hidden : row.replaced = commit.allReplaced.insertMany (sourceReplaced index commit).toList :=
    h.replaced
  have flat : row.flatPath = commit.flatBranchPath := congrArg Path.flatten h.path
  have elsewhere : index.Inherits commit.branch commit.allReplaced d →
      d.path ≠ commit.flatBranchPath := valid.path_ne_of_inherits formed.valid
  -- the new row inherits as the old one did, and from before the commit
  have inherits : index'.Inherits row row.replaced d ↔
      index.Inherits commit.branch row.replaced d := by
    rw [← RowIndex.inherits_of_sameBefore valid formed.valid h.before formed.base_lt]
    unfold RowIndex.Inherits
    rw [h.path, h.base]
    rfl
  unfold Criteria.within
  rw [RowIndex.accepts_criteria_iff, RowIndex.accepts_criteria_iff, flat, h.head, inherits, hidden,
    valid.inherits_insertMany_iff formed.valid known, ← OrderedSet.mem_def]
  change (d.path = commit.flatBranchPath ∧ _) ∨ _ ↔
    ((d.path = commit.flatBranchPath ∧ _) ∨ _) ∧ _
  grind

/--
What was seen under a commit is seen on its branch once it is completed, apart from what was hidden
on the source of a promotion.
-/
theorem visible_complete (sound : session.Sound)
    (there : session.commits[handle]? = some commit)
    (open' : commit.IsOpen session.site.directory.openCommits)
    (done : (session.step (.complete handle)).1 = .ok ()) :
    ∃ before after, session.visibleWithin handle = .ok before ∧
      (session.step (.complete handle)).2.visible commit.branchPath = .ok after ∧
      ∀ id, id ∈ after ↔ id ∈ before ∧ ∀ d, session.documents.get? id = some d →
        d.path = commit.flatBranchPath ∨
          id ∉ sourceReplaced session.site.directory.index commit := by
  have hc := List.mem_of_getElem? there
  have valid := sound.site.consistent.valid
  have formed := sound.site.consistent.formed commit hc
  have before := visibleWithin_eq sound there open'
  have stays := @stays_step session sound (.complete handle) trivial
  rw [step_complete there] at stays done ⊢
  cases answer : Directory.complete commit session.site with
  | error e site =>
    rw [call_error answer] at done
    simp at done
  | ok row site =>
    have completed := exists_completed sound hc answer
    rw [call_ok answer] at stays ⊢
    have after := visible_eq stays.sound formed.valid completed.last
    refine ⟨_, _, before, after, ?_⟩
    intro id
    rw [stays.sound.keyed.mem_ids_iff, sound.keyed.mem_ids_iff]
    constructor
    · rintro ⟨d, found, accepted⟩
      have known := sound.keyed id d found
      obtain ⟨accepted, shown⟩ := (completed.accepts_iff valid formed known).1 accepted
      refine ⟨⟨d, found, accepted⟩, ?_⟩
      intro d' found'
      have same := found.symm.trans found'
      rw [← Option.some.inj same]
      exact shown
    · rintro ⟨⟨d, found, accepted⟩, shown⟩
      have known := sound.keyed id d found
      exact ⟨d, found, (completed.accepts_iff valid formed known).2 ⟨accepted, shown d found⟩⟩

end TemporalStore.Session
