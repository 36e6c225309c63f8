import TemporalStore.Proofs.Session.Completed
import TemporalStore.Proofs.Session.Ledger

/-!
This module contains that the criteria under an open commit are those of the row that the commit
leaves behind when it is completed.
-/

namespace TemporalStore

namespace Criteria

/--
The same criteria with more versions of ancestors hidden.
-/
def hide (criteria : Criteria) (ids : List VersionId) : Criteria :=
  ⟨criteria.levels.map fun level => if level.inherited then level.hide ids else level⟩

theorem hide_nil (criteria : Criteria) : criteria.hide [] = criteria := by
  have same : ∀ level : Level, (if level.inherited then level.hide [] else level) = level := by
    intro level
    split
    · rfl
    · rfl
  unfold hide
  simp only [same, List.map_id']

end Criteria

namespace RowIndex

variable {index : RowIndex} {now t : Timepoint} {row : BranchRow}

theorem Valid.criteria_insertMany (h : index.Valid now) (hp : Path.Valid row.path)
    (t : Timepoint) (hidden : OrderedSet VersionId) (ids : List VersionId) :
    index.criteria row t (hidden.insertMany ids) = (index.criteria row t hidden).hide ids := by
  have valid : ∀ path ∈ Path.ancestors row.path, Path.Valid path :=
    fun path => Path.valid_of_mem_ancestors hp
  have inherited : ∀ level ∈ index.levels (Path.ancestors row.path) row.base hidden,
      level.hide ids = if level.inherited then level.hide ids else level := by
    intro level mem
    rw [(h.of_mem_levels valid mem).1, if_pos rfl]
  unfold criteria Criteria.hide
  rw [levels_insertMany, List.map_cons, if_neg (by simp), List.map_congr_left inherited]

end RowIndex

namespace Session

section

variable {session : Session} {commit : Commit} {row : BranchRow}

theorem Completed.criteria_eq {index index' : RowIndex} {now : Timepoint}
    (h : Completed index index' commit row) (valid : index.Valid now) (formed : commit.Formed now) :
    index'.criteria row row.head row.replaced =
      (Criteria.within index commit).hide (sourceReplaced index commit).toList := by
  have hidden : row.replaced = commit.allReplaced.insertMany (sourceReplaced index commit).toList :=
    h.replaced
  -- what is inherited is inherited from before the commit, where no row has changed
  have earlier : row.base < commit.timepoint := h.base ▸ formed.base_lt
  rw [RowIndex.criteria_of_sameBefore valid h.before (h.path ▸ formed.valid) earlier]
  unfold Criteria.within
  rw [← valid.criteria_insertMany formed.valid, ← hidden]
  unfold RowIndex.criteria
  rw [h.path, h.base, h.head]
  rfl

/--
In memory an open commit can be completed, unless it is a promotion without a source.
-/
theorem exists_complete (sound : session.Sound) (hc : commit ∈ session.commits)
    (open' : commit.IsOpen session.site.directory.openCommits)
    (sourced : ¬ (commit.kind = .promotion ∧ commit.source = none))
    (memory : session.site.directory.file = none) :
    ∃ row site, Directory.complete commit session.site = .ok row site := by
  have out := Directory.completing_complete sound.site hc memory
  generalize Directory.complete commit session.site = result at out ⊢
  cases out with
  | ok row site => exact ⟨row, site, rfl⟩
  | refused _ not => exact absurd ⟨open', sourced⟩ not

theorem exists_ofRow_of_complete (sound : session.Sound) (hc : commit ∈ session.commits)
    {site : Site} (done : Directory.complete commit session.site = .ok row site) :
    ∃ site', Criteria.ofRow row site =
      .ok ((Criteria.within session.site.directory.index commit).hide
        (sourceReplaced session.site.directory.index commit).toList) site' := by
  obtain ⟨handle, there⟩ := List.mem_iff_getElem?.1 hc
  have formed := sound.site.consistent.formed commit hc
  have completed := exists_completed sound hc done
  have sound' := (@stays_step session sound (.complete handle) trivial).sound
  rw [step_complete there, call_ok done] at sound'
  obtain ⟨closed, timeline⟩ := RowIndex.eq_append_of_last? completed.last
  have mem : row ∈ site.directory.index.timeline commit.branchPath := by simp [timeline]
  obtain ⟨history, -, answer⟩ :=
    Criteria.ofRow_eq sound'.site.consistent.valid sound'.site.agrees formed.valid mem
  rw [completed.criteria_eq sound.site.consistent.valid formed] at answer
  exact ⟨_, answer⟩

end

/--
The criteria that a writer has under an open commit are, clause by clause, those of the row with
which the branch goes on when the commit is completed at that point. Only a promotion hides more
then: what is hidden on its source is hidden on all ancestors from then on.
-/
theorem ofRow_of_complete {start session : Session} {actions : List Action} {commit : Commit}
    (new : start.New) (permitted : start.Permits actions) (reached : start.run actions = session)
    (hc : commit ∈ session.commits) (open' : commit.IsOpen session.site.directory.openCommits) :
    ∃ seen site, Criteria.ofCommit commit session.site = .ok seen site ∧
      (site.directory.file = none → ¬ (commit.kind = .promotion ∧ commit.source = none) →
        ∃ row site', Directory.complete commit site = .ok row site') ∧
      ∀ row site', Directory.complete commit site = .ok row site' →
        ∃ shown site'', Criteria.ofRow row site' = .ok shown site'' ∧
          (commit.kind ≠ .promotion → shown = seen) ∧
          ∀ source, commit.source = some source → ∃ sourceRow,
            session.site.directory.index.current source = .ok (some sourceRow) ∧
              shown = seen.hide sourceRow.replaced.toList := by
  have sound := sound_run new.sound permitted
  have accounts := accounts_run new.sound new.accounts permitted
  rw [reached] at sound accounts
  have valid := sound.site.consistent.valid
  have covered := covered_of_isOpen sound hc open'
  obtain ⟨history, agrees, answer⟩ := Criteria.build_of_covered valid sound.site.agrees covered
    commit.timepoint commit.allReplaced
  have sound' := sound_withHistory sound agrees
  refine ⟨_, _, answer, ?_, ?_⟩
  · intro memory sourced
    exact exists_complete sound' hc open' sourced memory
  · intro row site done
    obtain ⟨site', shown⟩ := exists_ofRow_of_complete sound' hc done
    refine ⟨_, site', shown, ?_, ?_⟩
    · intro kind
      have single := (accounts.sources commit hc).resolve_left kind
      rw [sourceReplaced_of_single single]
      exact Criteria.hide_nil _
    · intro source double
      obtain ⟨sourceRow, held⟩ :=
        (sound.site.consistent.live commit hc open').source source double
      refine ⟨sourceRow, ?_, ?_⟩
      · rw [valid.current_eq, held.last]
      · exact congrArg (fun hidden => Criteria.hide _ hidden.toList)
          (sourceReplaced_of_last? double held.last)

/--
On the branch that is promoted a version of the root is superseded.
-/
def supersededBelow : List Action :=
  [.create "M", .openCommit "M" .content, .write 0 [{ businessId := some "1" }], .complete 0,
    .create "M/A", .create "M/A/B", .openCommit "M/A/B" .content,
    .retire 1 "businessId" (.ofList ["1"]), .write 1 [{ businessId := some "1" }], .complete 1,
    .openPromotion "M/A" "M/A/B"]

theorem ofRow_of_supersededBelow :
    empty.New ∧ empty.Permits supersededBelow ∧
      ∃ commit ∈ (empty.run supersededBelow).commits,
        commit.IsOpen (empty.run supersededBelow).site.directory.openCommits ∧
        ∃ seen site row site' shown site'',
          Criteria.ofCommit commit (empty.run supersededBelow).site = .ok seen site ∧
          Directory.complete commit site = .ok row site' ∧
          Criteria.ofRow row site' = .ok shown site'' ∧
          seen.levels.map (·.excluded.toList) = [[], []] ∧
          shown = seen.hide [.generated 1] := by
  have m : Path.Valid "M" := by decide
  have a : Path.Valid "M/A" := by decide
  have b : Path.Valid "M/A/B" := by decide
  have permitted : empty.Permits supersededBelow :=
    ⟨m, m, trivial, trivial, a, b, b, trivial, trivial, trivial, ⟨a, b⟩, trivial⟩
  obtain ⟨commit, hc, source, open', excluded⟩ :
      ∃ commit ∈ (empty.run supersededBelow).commits, commit.source = some "M/A/B" ∧
        commit.IsOpen (empty.run supersededBelow).site.directory.openCommits ∧
        (Criteria.within (empty.run supersededBelow).site.directory.index commit).levels.map
          (·.excluded.toList) = [[], []] := by
    unfold Commit.IsOpen
    decide +kernel
  have memory : (empty.run supersededBelow).site.directory.file = none := by decide +kernel
  have hidden : ((empty.run supersededBelow).site.directory.index.current "M/A/B").map
      (·.map (·.replaced.toList)) = .ok (some [.generated 1]) := by
    decide +kernel
  obtain ⟨seen, site, sees, completes, shows⟩ :=
    ofRow_of_complete new_empty permitted rfl hc open'
  have sound := sound_run new_empty.sound permitted
  obtain ⟨history, -, within⟩ := Criteria.build_of_covered sound.site.consistent.valid
    sound.site.agrees (covered_of_isOpen sound hc open') commit.timepoint commit.allReplaced
  obtain ⟨rfl, rfl⟩ := EStateM.Result.ok.inj (sees.symm.trans within)
  obtain ⟨row, site', done⟩ := completes memory (by simp [source])
  obtain ⟨shown, site'', answer, -, promoted⟩ := shows row site' done
  obtain ⟨sourceRow, current, same⟩ := promoted "M/A/B" source
  rw [current] at hidden
  have replaced : sourceRow.replaced.toList = [.generated 1] :=
    Option.some.inj (Except.ok.inj hidden)
  rw [replaced] at same
  exact ⟨new_empty, permitted, commit, hc, open', _, _, row, site', shown, site'', sees, done,
    answer, excluded, same⟩

end Session

end TemporalStore
