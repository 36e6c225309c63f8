import TemporalStore.Proofs.Session.Timeline
import TemporalStore.Proofs.Session.Visible
import TemporalStore.Proofs.Visibility.Lineage

/-!
This module contains the criteria of all rows and open commits after any run.
-/

namespace TemporalStore.Session

/--
Whatever was done in a session that started out empty, the criteria of every row, history
included, and of every open commit can be built, and are those of the steps up to the root.
-/
theorem criteria_of_run {session : Session} {actions : List Action} (new : session.New)
    (permitted : session.Permits actions) :
    (∀ row ∈ (session.run actions).site.directory.index.allRows, ∃ criteria history,
      Criteria.ofRow row (session.run actions).site =
        .ok criteria ((session.run actions).site.withHistory history) ∧
      criteria.Inherits (session.run actions).site.directory.index row row.head row.replaced) ∧
    (∀ commit ∈ (session.run actions).commits,
      commit.IsOpen (session.run actions).site.directory.openCommits → ∃ criteria history,
        Criteria.ofCommit commit (session.run actions).site =
          .ok criteria ((session.run actions).site.withHistory history) ∧
        criteria.Inherits (session.run actions).site.directory.index commit.branch
          commit.timepoint commit.allReplaced) := by
  have sound := sound_run new.sound permitted
  have valid := sound.site.consistent.valid
  constructor
  · intro row mem
    obtain ⟨hp, mem⟩ := valid.mem_allRows_iff.1 mem
    have fits := valid.fits row.path hp row mem
    have le : row.base ≤ row.head := by
      rw [fits.head]
      exact fits.base_le
    exact Criteria.build_inherits valid sound.site.agrees hp (valid.covered_of_mem hp mem) le
      row.replaced
  · intro commit hc open'
    have formed := sound.site.consistent.formed commit hc
    exact Criteria.build_inherits valid sound.site.agrees formed.valid
      (covered_of_isOpen sound hc open') (Int.le_of_lt formed.base_lt) commit.allReplaced

def branchOff : List Action := firstCommit ++ [.create "M/A", .openCommit "M/A" .content]

/--
A new branch shows its own versions and what its parent had committed by then, and so does the
commit that is opened on it.
-/
theorem criteria_of_branchOff :
    empty.New ∧ empty.Permits branchOff ∧
      ∃ row ∈ (empty.run branchOff).site.directory.index.allRows,
      ∃ commit ∈ (empty.run branchOff).commits, ∃ criteria within history history',
        row.path = "M/A" ∧ commit.branchPath = "M/A" ∧
        Criteria.ofRow row (empty.run branchOff).site =
          .ok criteria ((empty.run branchOff).site.withHistory history) ∧
        Criteria.ofCommit commit (empty.run branchOff).site =
          .ok within ((empty.run branchOff).site.withHistory history') ∧
        criteria.levels.map Level.timepoint = [3, 2] ∧
        within.levels.map Level.timepoint = [4, 2] := by
  have valid : Path.Valid "M" := by decide
  have valid' : Path.Valid "M/A" := by decide
  have permitted : empty.Permits branchOff :=
    ⟨valid, valid, trivial, valid', valid', trivial⟩
  obtain ⟨rows, commits⟩ := criteria_of_run new_empty permitted
  obtain ⟨row, mem, rowPath, head, base⟩ : ∃ row ∈
      (empty.run branchOff).site.directory.index.allRows,
      row.path = "M/A" ∧ row.head = 3 ∧ row.base = 2 := by
    decide +kernel
  obtain ⟨commit, hc, commitPath, time, base', open'⟩ : ∃ commit ∈
      (empty.run branchOff).commits, commit.branch.path = "M/A" ∧ commit.timepoint = 4 ∧
      commit.branch.base = 2 ∧ commit.IsOpen (empty.run branchOff).site.directory.openCommits := by
    unfold Commit.IsOpen
    decide +kernel
  have above : Path.ancestors "M/A" = ["M"] := by
    rw [Path.ancestors_of_parent?_eq_some (by decide : Path.parent? "M/A" = some "M"),
      Path.ancestors_of_parent?_eq_none (by decide)]
  obtain ⟨criteria, history, built, lineage, ascends, first, asOf, -, levels, -⟩ := rows row mem
  obtain ⟨within, history', built', lineage', ascends', first', asOf', -, levels', -⟩ :=
    commits commit hc open'
  refine ⟨new_empty, permitted, row, mem, commit, hc, criteria, within, history, history', rowPath,
    commitPath, built, built', ?_, ?_⟩
  · rw [levels, rowPath]
    unfold Lineage.levels
    rw [above]
    simp [Lineage.inheritedLevel, asOf, head, ascends.asOf 0 (Nat.zero_le _), first, base]
  · rw [levels', commitPath]
    unfold Lineage.levels
    rw [above]
    simp [Lineage.inheritedLevel, asOf', time, ascends'.asOf 0 (Nat.zero_le _), first', base']

end TemporalStore.Session
