import TemporalStore.Proofs.Directory.Sound
import TemporalStore.Visibility.Build

/-!
This module contains the criteria of rows and commits as functions of the index alone.
-/

namespace TemporalStore

namespace RowIndex

/--
Whether every ancestor has a row as of the timepoint from which it is inherited.
-/
def Covered (index : RowIndex) : List String → Timepoint → Prop
  | [], _ => True
  | path :: paths, base =>
    ∃ row, index.covering? path base = some row ∧ index.Covered paths row.base

/--
The clauses of the given ancestors, where the first is inherited as of `base`.
-/
def levels (index : RowIndex) : List String → Timepoint → OrderedSet VersionId → List Level
  | [], _, _ => []
  | path :: paths, base, hidden =>
    match index.covering? path base with
    | none => []
    | some row =>
      { path := row.path, timepoint := base, inherited := true,
        excluded := hidden ∪ row.replaced } ::
          index.levels paths row.base (hidden ∪ row.replaced)

/--
What is visible on a row at `t`, when `hidden` is replaced.
-/
def criteria (index : RowIndex) (row : BranchRow) (t : Timepoint)
    (hidden : OrderedSet VersionId) : Criteria :=
  ⟨{ path := row.path, timepoint := t, inherited := false } ::
    index.levels (Path.ancestors row.path) row.base hidden⟩

/--
What a branch inherits reaches up to its root, if it inherits nothing from before its parent began.
-/
theorem Valid.covered {index : RowIndex} {now base : Timepoint} {path : String}
    (h : index.Valid now) (hp : Path.Valid path)
    (begins : ∀ parent, Path.parent? path = some parent →
      ∃ b, index.begin? parent = some b ∧ b ≤ base) :
    index.Covered (Path.ancestors path) base := by
  cases above : Path.parent? path with
  | none =>
    rw [Path.ancestors_of_parent?_eq_none above]
    exact trivial
  | some parent =>
    have shorter := Path.length_lt_of_parent? above
    obtain ⟨b, hb, hle⟩ := begins parent above
    obtain ⟨first, hf, rfl⟩ := begin?_eq_some_iff.1 hb
    obtain ⟨row, covering⟩ := h.exists_covering_iff.2 ⟨first, hf, hle⟩
    have valid := Path.valid_of_parent? hp above
    obtain ⟨mem, -⟩ := h.covering?_eq_some_iff.1 covering
    rw [Path.ancestors_of_parent?_eq_some above]
    refine ⟨row, covering, h.covered valid ?_⟩
    intro grandparent above'
    obtain ⟨f, hf', base, -⟩ := h.parents parent grandparent valid above' row mem
    exact ⟨f.start, begin?_eq_some_iff.2 ⟨f, hf', rfl⟩, base⟩
termination_by path.toList.length

theorem Valid.covered_of_mem {index : RowIndex} {now : Timepoint} {path : String}
    {row : BranchRow} (h : index.Valid now) (hp : Path.Valid path)
    (mem : row ∈ index.timeline path) : index.Covered (Path.ancestors path) row.base := by
  apply h.covered hp
  intro parent above
  obtain ⟨first, hf, base, -⟩ := h.parents path parent hp above row mem
  exact ⟨first.start, begin?_eq_some_iff.2 ⟨first, hf, rfl⟩, base⟩

end RowIndex

namespace Criteria

variable {site : Site} {now : Timepoint}

theorem inheritedLevels_eq (h : site.directory.index.Valid now)
    (agrees : site.directory.history.Agrees site.directory.index) (paths : List String)
    (base : Timepoint) (hidden : OrderedSet VersionId) :
    ∃ history : HistoryCache, history.Agrees site.directory.index ∧
      ((site.directory.index.Covered paths base ∧
          inheritedLevels paths base hidden site =
            .ok (site.directory.index.levels paths base hidden) (site.withHistory history)) ∨
        (¬ site.directory.index.Covered paths base ∧ ∃ path t,
          inheritedLevels paths base hidden site =
            .error (.branchNotFoundAt path t) (site.withHistory history))) := by
  induction paths generalizing site base hidden with
  | nil => exact ⟨_, agrees, .inl ⟨trivial, rfl⟩⟩
  | cons path paths ih =>
    obtain ⟨history, agrees', answer⟩ := Directory.rowAt_eq h agrees path base
    unfold inheritedLevels RowIndex.Covered RowIndex.levels
    cases covering : site.directory.index.covering? path base with
    | none =>
      rw [covering] at answer
      refine ⟨history, agrees', .inr ⟨by simp, path, base, ?_⟩⟩
      rw [bind_error answer]
    | some row =>
      rw [covering] at answer
      simp only [Option.some.injEq, exists_eq_left']
      rw [bind_ok answer]
      obtain ⟨history', agrees'', outcome⟩ :=
        @ih (site.withHistory history) h agrees' row.base (hidden ∪ row.replaced)
      refine ⟨history', agrees'', ?_⟩
      rcases outcome with ⟨covered, levels⟩ | ⟨missing, path', t, failed⟩
      · left
        refine ⟨covered, ?_⟩
        rw [bind_ok levels]
        rfl
      · right
        refine ⟨missing, path', t, ?_⟩
        rw [bind_error failed]
        rfl

theorem build_eq (h : site.directory.index.Valid now)
    (agrees : site.directory.history.Agrees site.directory.index) (row : BranchRow)
    (t : Timepoint) (hidden : OrderedSet VersionId) :
    ∃ history : HistoryCache, history.Agrees site.directory.index ∧
      ((site.directory.index.Covered (Path.ancestors row.path) row.base ∧
          build row t hidden site =
            .ok (site.directory.index.criteria row t hidden) (site.withHistory history)) ∨
        (¬ site.directory.index.Covered (Path.ancestors row.path) row.base ∧ ∃ path t',
          build row t hidden site =
            .error (.branchNotFoundAt path t') (site.withHistory history))) := by
  obtain ⟨history, agrees', outcome⟩ :=
    inheritedLevels_eq h agrees (Path.ancestors row.path) row.base hidden
  refine ⟨history, agrees', ?_⟩
  unfold build
  rcases outcome with ⟨covered, levels⟩ | ⟨missing, path, t', failed⟩
  · left
    refine ⟨covered, ?_⟩
    rw [bind_ok levels]
    rfl
  · right
    refine ⟨missing, path, t', ?_⟩
    rw [bind_error failed]

theorem build_of_covered (h : site.directory.index.Valid now)
    (agrees : site.directory.history.Agrees site.directory.index) {row : BranchRow}
    (covered : site.directory.index.Covered (Path.ancestors row.path) row.base)
    (t : Timepoint) (hidden : OrderedSet VersionId) :
    ∃ history : HistoryCache, history.Agrees site.directory.index ∧
      build row t hidden site =
        .ok (site.directory.index.criteria row t hidden) (site.withHistory history) := by
  obtain ⟨history, agrees', outcome⟩ := build_eq h agrees row t hidden
  refine ⟨history, agrees', ?_⟩
  rcases outcome with ⟨-, answer⟩ | ⟨missing, -⟩
  · exact answer
  · exact absurd covered missing

theorem ofRow_eq {path : String} {row : BranchRow} (h : site.directory.index.Valid now)
    (agrees : site.directory.history.Agrees site.directory.index) (hp : Path.Valid path)
    (mem : row ∈ site.directory.index.timeline path) :
    ∃ history : HistoryCache, history.Agrees site.directory.index ∧
      ofRow row site =
        .ok (site.directory.index.criteria row row.head row.replaced)
          (site.withHistory history) := by
  have covered := h.covered_of_mem hp mem
  rw [← (h.fits path hp row mem).path] at covered
  exact build_of_covered h agrees covered row.head row.replaced

theorem ofBranch_eq {path : String} {row : BranchRow} (h : site.directory.index.Valid now)
    (agrees : site.directory.history.Agrees site.directory.index) (hp : Path.Valid path)
    (last : site.directory.index.last? path = some row) :
    ∃ history : HistoryCache, history.Agrees site.directory.index ∧
      ofBranch path site =
        .ok (site.directory.index.criteria row row.head row.replaced)
          (site.withHistory history) := by
  have latest := Directory.latest_eq h hp
  rw [last] at latest
  obtain ⟨closed, hc⟩ := RowIndex.eq_append_of_last? last
  have mem : row ∈ site.directory.index.timeline path := by simp [hc]
  obtain ⟨history, agrees', answer⟩ := ofRow_eq h agrees hp mem
  refine ⟨history, agrees', ?_⟩
  unfold ofBranch
  rw [bind_ok latest]
  exact answer

theorem ofBranch_of_absent {path : String} (h : site.directory.index.Valid now)
    (hp : Path.Valid path) (last : site.directory.index.last? path = none) :
    ofBranch path site = .error (.branchNotFound path) site := by
  have latest := Directory.latest_eq h hp
  rw [last] at latest
  unfold ofBranch
  rw [bind_error latest]

end Criteria

end TemporalStore
