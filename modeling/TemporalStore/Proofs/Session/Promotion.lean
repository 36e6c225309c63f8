import TemporalStore.Proofs.Session.Completed
import TemporalStore.Proofs.Session.Drafts
import TemporalStore.Proofs.Session.Growth

/-!
This module contains who sees the content that a promotion has received once it is completed: the
branch itself, and its source if the branch is the parent of the source. The source starts anew from
its parent, whichever branch the content has gone to.
-/

namespace TemporalStore.Session

open Directory

/-! ## No row begins before its commit is completed -/

/--
No row starts at the timepoint of a commit that is still open.
-/
def Unbegun (session : Session) : Prop :=
  ∀ commit ∈ session.commits, commit.IsOpen session.site.directory.openCommits →
    ∀ path core, Path.Valid path → session.site.directory.index.Stores path core →
      core.start ≠ commit.timepoint

section

variable {session : Session} {action : Action} {result : Except StoreError Unit × Session}

theorem Effect.unbegun (effect : session.Effect action result) (sound : session.Sound)
    (unbegun : session.Unbegun) : result.2.Unbegun := by
  intro commit hc open' path core hp stored
  have consistent := sound.site.consistent
  have later : session.site.directory.clock.last < nextTimepoint session.site :=
    last_lt_ticked session.site
  obtain ⟨handle, there⟩ := List.mem_iff_getElem?.1 hc
  rcases effect.commit_cases sound there with ⟨before, was, bare, opens⟩ | ⟨new, issued⟩
  · have hb := List.mem_of_getElem? was
    obtain ⟨-, time, -⟩ := Commit.bare_eq_iff.1 bare
    rw [← time]
    rcases effect.rows sound hp stored with
      stored | ⟨fresh, -⟩ | ⟨other, completed, -, there', -, closed, start⟩
    · exact unbegun before hb (opens open') path core hp stored
    · have := (consistent.formed before hb).le_now
      lia
    · -- the commit that begins a row is not open any more
      rw [start]
      intro same
      rw [consistent.eq_of_timepoint_eq (List.mem_of_getElem? there') hb same,
        isOpen_iff_of_bare bare] at closed
      exact closed open'
  · rw [issued.timepoint]
    rcases effect.rows sound hp stored with
      stored | ⟨-, handles⟩ | ⟨other, completed, -, there', -, -, start⟩
    · have := start_le_of_stores sound hp stored
      lia
    · rw [new, handles] at there
      simp at there
    · have := (consistent.formed completed (List.mem_of_getElem? there')).le_now
      lia

theorem unbegun_run (sound : session.Sound) (unbegun : session.Unbegun) {actions : List Action}
    (permitted : session.Permits actions) : (session.run actions).Unbegun := by
  induction actions generalizing session with
  | nil => exact unbegun
  | cons action actions ih =>
    obtain ⟨allowed, rest⟩ := permitted
    exact ih (stays_step sound allowed).sound
      ((effect_step sound allowed).unbegun sound unbegun) rest

theorem New.unbegun (new : session.New) : session.Unbegun := by
  intro commit hc
  simp [new.1] at hc

end

/-! ## What a promotion leaves behind -/

/--
What has become of the rows when a promotion is completed.
-/
structure Merged (index index' : RowIndex) (commit : Commit) (source : String) (row : BranchRow) :
    Prop where
  target : Completed index index' commit row
  restarted : index'.last? source = some (.fresh source commit.timepoint commit.timepoint)
  others : ∀ q, Path.Valid q → q ≠ commit.branchPath → q ≠ source →
    index'.timeline q = index.timeline q

section

variable {session after : Session} {commit : Commit} {source : String}

theorem exists_merged (sound : session.Sound) (hc : commit ∈ session.commits)
    (double : commit.source = some source) {site : Site} {row : BranchRow}
    (done : Directory.complete commit session.site = .ok row site) :
    Merged session.site.directory.index site.directory.index commit source row := by
  have completed := exists_completed sound hc done
  have formed := sound.site.consistent.formed commit hc
  have out := sound.site.consistent.complete_cases hc
  rw [done] at out
  cases out with
  | alone _ _ _ _ _ single => simp [double] at single
  | promotion held source' sourceRow _ isHeld replaced double' validSource distinct sourceHeld
      written =>
    rw [double, Option.some.injEq] at double'
    rw [← double'] at validSource written
    cases written with
    | completed host kept =>
      refine ⟨completed, ?_, ?_⟩
      · exact RowIndex.last?_advance_self _ _ _ validSource
      · intro q hq notTarget notSource
        exact (RowIndex.timeline_advance_of_ne _ _ _ validSource hq notSource).trans
          (RowIndex.timeline_advance_of_ne _ _ _ formed.valid hq notTarget)

/--
What the branch and the source show once a promotion is completed.
-/
theorem exists_merged_of_complete {handle : Nat} (sound : session.Sound)
    (there : session.commits[handle]? = some commit) (double : commit.source = some source)
    (done : (session.step (.complete handle)).1 = .ok ())
    (arrived : (session.step (.complete handle)).2 = after) :
    after.Sound ∧ after.documents = session.documents ∧
      commit.Formed after.site.directory.clock.last ∧
      ∃ row, Merged session.site.directory.index after.site.directory.index commit source row ∧
        after.site.directory.index.current commit.branchPath = .ok (some row) ∧
        after.visible commit.branchPath = .ok (after.documents.ids
          (after.site.directory.index.criteria row row.head row.replaced).toPredicate) ∧
        after.visible source = .ok (after.documents.ids (after.site.directory.index.criteria
          (.fresh source commit.timepoint commit.timepoint) commit.timepoint ∅).toPredicate) := by
  have stays := @stays_step session sound (.complete handle) trivial
  have hc := List.mem_of_getElem? there
  have hs := ((sound.site.consistent.formed commit hc).source source double).1
  rw [step_complete there] at done arrived stays
  cases answer : Directory.complete commit session.site with
  | error e site =>
    rw [call_error answer] at done
    cases done
  | ok row site =>
    have merged := exists_merged sound hc double answer
    rw [call_ok answer] at arrived stays
    rw [← arrived]
    have sound' := stays.sound
    have formed := sound'.site.consistent.formed commit hc
    refine ⟨sound', rfl, formed, row, merged, ?_, ?_, ?_⟩
    · rw [sound'.site.consistent.valid.current_eq]
      exact congrArg Except.ok merged.target.last
    · exact visible_eq sound' formed.valid merged.target.last
    · exact visible_eq sound' hs merged.restarted

end

section

variable {index index' : RowIndex} {now : Timepoint} {commit : Commit} {source parent : String}
  {row parentRow : BranchRow} {id : VersionId} {d : Document}

theorem Merged.start_eq (h : Merged index index' commit source row) (valid' : index'.Valid now)
    (formed : commit.Formed now) : row.start = commit.timepoint := by
  rw [← (valid'.fits_last formed.valid h.target.last).head, h.target.head]

/--
From its parent the source inherits what the parent has at the timepoint of the promotion. Only the
branch that was promoted to has anything that begins at that timepoint.
-/
theorem Merged.covering_cases (h : Merged index index' commit source row)
    (valid' : index'.Valid now) (formed : commit.Formed now)
    (double : commit.source = some source)
    (unbegun : ∀ path core, Path.Valid path → index.Stores path core →
      core.start ≠ commit.timepoint)
    (above : Path.parent? source = some parent) :
    ∃ parentRow, index'.covering? parent commit.timepoint = some parentRow ∧
      parentRow.path = parent ∧ parentRow.base < commit.timepoint ∧
        (parent = commit.branchPath → parentRow = row) := by
  have hs := (formed.source source double).1
  have validParent := Path.valid_of_parent? hs above
  by_cases same : parent = commit.branchPath
  · have start := h.start_eq valid' formed
    refine ⟨row, ?_, h.target.path.trans same.symm, ?_, fun _ => rfl⟩
    · rw [same]
      exact valid'.covers_last h.target.last (Int.le_of_eq start)
    · rw [h.target.base]
      exact formed.base_lt
  · obtain ⟨closed, hcl⟩ := RowIndex.eq_append_of_last? h.restarted
    have mem : .fresh source commit.timepoint commit.timepoint ∈ index'.timeline source := by
      simp [hcl]
    have covered := valid'.covered_of_mem hs mem
    rw [Path.ancestors_of_parent?_eq_some above] at covered
    obtain ⟨parentRow, covering, -⟩ := covered
    obtain ⟨mem, covers⟩ := valid'.covering?_eq_some_iff.1 covering
    have fits := valid'.fits parent validParent parentRow mem
    rw [h.others parent validParent same (Path.parent?_ne above)] at mem
    have start : parentRow.start ≠ commit.timepoint :=
      unbegun parent parentRow.core validParent (RowIndex.stores_of_mem mem)
    have base_le := fits.base_le
    simp only [BranchRow.covers, Bool.and_eq_true, decide_eq_true_eq] at covers
    have started : parentRow.start ≤ commit.timepoint := covers.1
    refine ⟨parentRow, covering, fits.path, ?_, fun same' => absurd same' same⟩
    lia

theorem Merged.accepts_source_iff (h : Merged index index' commit source row)
    (valid' : index'.Valid now) (formed : commit.Formed now) (double : commit.source = some source)
    (unbegun : ∀ path core, Path.Valid path → index.Stores path core →
      core.start ≠ commit.timepoint)
    (wrote : commit.Wrote d) (current : d.ended = none) (known : d.id = some id) :
    (index'.criteria (.fresh source commit.timepoint commit.timepoint) commit.timepoint
        ∅).toPredicate.accepts d ↔
      Path.parent? source = some commit.branchPath ∧ id ∉ row.replaced := by
  obtain ⟨hs, distinct⟩ := formed.source source double
  have elsewhere : d.path ≠ Path.flatten source := by
    rw [wrote.1]
    intro same
    exact distinct (Path.flatten_injective formed.valid hs same).symm
  cases above : Path.parent? source with
  | none =>
    rw [RowIndex.accepts_criteria_iff]
    unfold RowIndex.Inherits
    change (d.path = Path.flatten source ∧ _) ∨
      (∃ level ∈ index'.levels (Path.ancestors source) _ _, _) ↔ _
    rw [Path.ancestors_of_parent?_eq_none above, RowIndex.levels]
    simp [elsewhere]
  | some parent =>
    have validParent := Path.valid_of_parent? hs above
    obtain ⟨parentRow, covering, path, base_lt, merged⟩ :=
      h.covering_cases valid' formed double unbegun above
    have beyond : ¬ ∃ level ∈ index'.levels (Path.ancestors parent) parentRow.base
        parentRow.replaced, level.toPredicate.accepts d := by
      rintro ⟨level, mem, accepted⟩
      obtain ⟨inherited, -, bounded⟩ :=
        valid'.of_mem_levels (fun q => Path.valid_of_mem_ancestors validParent) mem
      have started := ((Level.accepts_inherited_iff inherited).1 accepted).2.1
      rw [wrote.2] at started
      lia
    rw [RowIndex.accepts_fresh_iff above covering, Level.accepts_inherited_iff rfl]
    simp only [elsewhere, false_and, false_or, beyond, or_false, Option.some.injEq]
    constructor
    · rintro ⟨flat, -, -, shown⟩
      have same : parent = commit.branchPath := by
        apply Path.flatten_injective validParent formed.valid
        rw [← path, ← flat]
        exact wrote.1
      rw [merged same] at shown
      exact ⟨same, shown id known⟩
    · rintro ⟨same, shown⟩
      refine ⟨?_, Int.le_of_eq wrote.2, by simp [current], ?_⟩
      · rw [path, same]
        exact wrote.1
      · rw [merged same]
        intro id' known'
        rw [known, Option.some.injEq] at known'
        rw [← known']
        exact shown

end

/--
What is written under a promotion, in any state that can be reached, is shown on its branch once it
is completed. The source shows it if and only if the branch is the parent of the source, which is
not asked for when a promotion is opened, and the version is not among those hidden on the branch.
-/
theorem promoted_of_run {start : Session} {actions : List Action} {handle : Nat} {commit : Commit}
    {source : String} (new : start.New) (permitted : start.Permits actions)
    (there : (start.run actions).commits[handle]? = some commit)
    (open' : commit.IsOpen (start.run actions).site.directory.openCommits)
    (double : commit.source = some source) :
    (∀ docs, ∀ id ∈ ((start.run actions).site.host.ids.drawMany docs.length).1,
      ∃ d, ((start.run actions).step (.write handle docs)).2.documents.get? id = some d ∧
        commit.Wrote d ∧ d.ended = none) ∧
    (((start.run actions).step (.complete handle)).1 = .ok () →
      ∃ row ids ids',
        ((start.run actions).step (.complete handle)).2.site.directory.index.current
          commit.branchPath = .ok (some row) ∧
        row.replaced = commit.allReplaced ∪
          sourceReplaced (start.run actions).site.directory.index commit ∧
        ((start.run actions).step (.complete handle)).2.visible commit.branchPath = .ok ids ∧
        ((start.run actions).step (.complete handle)).2.visible source = .ok ids' ∧
        ∀ id d, ((start.run actions).step (.complete handle)).2.documents.get? id = some d →
          commit.Wrote d → d.ended = none → id ∈ ids ∧
            (id ∈ ids' ↔ Path.parent? source = some commit.branchPath ∧ id ∉ row.replaced)) := by
  have sound := sound_run new.sound permitted
  have hc := List.mem_of_getElem? there
  have unbegun := unbegun_run new.sound new.unbegun permitted commit hc open'
  constructor
  · intro docs id drawn
    rw [step_write there]
    obtain ⟨d, found, path, time, current⟩ := Commit.exists_get?_saveAll drawn
    exact ⟨d, found, ⟨path, time⟩, current⟩
  · intro done
    obtain ⟨sound', -, formed, row, merged, last, shown, shown'⟩ :=
      exists_merged_of_complete sound there double done rfl
    have valid' := sound'.site.consistent.valid
    refine ⟨row, _, _, last, merged.target.replaced, shown, shown', ?_⟩
    intro id d found wrote current
    have known := sound'.keyed id d found
    rw [sound'.keyed.mem_ids_iff, sound'.keyed.mem_ids_iff]
    constructor
    · refine ⟨d, found, RowIndex.accepts_criteria_iff.2 (.inl ⟨?_, ?_, current⟩)⟩
      · exact wrote.1.trans (congrArg Path.flatten merged.target.path).symm
      · rw [merged.target.head]
        exact Int.le_of_eq wrote.2
    · rw [← merged.accepts_source_iff valid' formed double unbegun wrote current known]
      constructor
      · rintro ⟨d', found', accepted⟩
        have same := found.symm.trans found'
        rw [Option.some.inj same]
        exact accepted
      · intro accepted
        exact ⟨d, found, accepted⟩

/--
A version is written under a promotion of the branch into its parent.
-/
def promotedUp : List Action :=
  promotionOpen ++ [.write 0 [{ businessId := some "1", term := "promoted" }]]

/--
The branch and the source both show what was promoted.
-/
theorem promoted_of_promotedUp :
    empty.New ∧ empty.Permits promotedUp ∧ ∃ ids ids',
      ((empty.run promotedUp).step (.complete 0)).2.visible "M" = .ok ids ∧
      ((empty.run promotedUp).step (.complete 0)).2.visible "M/A" = .ok ids' ∧
      .generated 1 ∈ ids ∧ .generated 1 ∈ ids' := by
  have m : Path.Valid "M" := by decide
  have a : Path.Valid "M/A" := by decide
  have n : Path.Valid "N" := by decide
  have permitted : empty.Permits promotedUp := ⟨m, a, n, ⟨m, a⟩, trivial, trivial⟩
  have opened : (empty.run promotedUp).commits[0]?.map (fun commit =>
      (decide (commit.IsOpen (empty.run promotedUp).site.directory.openCommits), commit.branchPath,
        commit.source, commit.flatBranchPath, commit.timepoint)) =
          some (true, "M", some "M/A", "M", 4) := by decide +kernel
  have stored : (((empty.run promotedUp).step (.complete 0)).2.documents.get?
      (.generated 1)).map (fun d => (d.path, d.start, d.ended)) = some ("M", 4, none) := by
    decide +kernel
  have hidden : (((empty.run promotedUp).step (.complete 0)).2.site.directory.index.current
      "M").map (·.map BranchRow.replaced) = .ok (some ∅) := by decide +kernel
  have done : ((empty.run promotedUp).step (.complete 0)).1 = .ok () := by decide +kernel
  obtain ⟨commit, there, parts⟩ := Option.map_eq_some_iff.1 opened
  obtain ⟨d, found, parts'⟩ := Option.map_eq_some_iff.1 stored
  simp only [Prod.mk.injEq, decide_eq_true_eq] at parts parts'
  obtain ⟨open', branch, source, flat, time⟩ := parts
  obtain ⟨path, start, current⟩ := parts'
  obtain ⟨-, shows⟩ := promoted_of_run new_empty permitted there open' source
  obtain ⟨row, ids, ids', last, -, shown, shown', all⟩ := shows done
  rw [branch] at last shown
  rw [last] at hidden
  simp only [Except.map, Option.map_some, Except.ok.injEq, Option.some.injEq] at hidden
  obtain ⟨mem, iff⟩ := all _ d found ⟨path.trans flat.symm, start.trans time.symm⟩ current
  refine ⟨new_empty, permitted, ids, ids', shown, shown', mem, iff.2 ⟨?_, ?_⟩⟩
  · rw [branch]
    decide
  · rw [hidden]
    simp

/--
The branch at the bottom is promoted to the top, past its parent.
-/
def promotedPast : List Action :=
  [.create "M", .create "M/A", .create "M/A/B", .openPromotion "M" "M/A/B",
    .write 0 [{ businessId := some "1", term := "promoted" }], .complete 0]

/--
The source does not show what was written under the promotion, because its parent does not have it.
-/
theorem promoted_not_shown_on_source :
    empty.New ∧ empty.Permits promotedPast ∧ ∃ commit d,
      (empty.run promotedPast).commits[0]? = some commit ∧ commit.source = some "M/A/B" ∧
      (empty.run promotedPast).documents.get? (.generated 1) = some d ∧ commit.Wrote d ∧
      d.ended = none ∧ (empty.run promotedPast).visible "M" = .ok [.generated 1] ∧
      (empty.run promotedPast).visible "M/A/B" = .ok [] := by
  have m : Path.Valid "M" := by decide
  have a : Path.Valid "M/A" := by decide
  have b : Path.Valid "M/A/B" := by decide
  have permitted : empty.Permits promotedPast := ⟨m, a, b, ⟨m, b⟩, trivial, trivial, trivial⟩
  have opened : (empty.run promotedPast).commits[0]?.map (fun commit => (commit.source,
      ((empty.run promotedPast).documents.get? (.generated 1)).map fun d =>
        (decide (commit.Wrote d), d.ended))) = some (some "M/A/B", some (true, none)) := by
    decide +kernel
  obtain ⟨commit, there, parts⟩ := Option.map_eq_some_iff.1 opened
  obtain ⟨source, written⟩ := Prod.mk.inj parts
  obtain ⟨d, found, parts'⟩ := Option.map_eq_some_iff.1 written
  simp only [Prod.mk.injEq, decide_eq_true_eq] at parts'
  exact ⟨new_empty, permitted, commit, d, there, source, found, parts'.1, parts'.2,
    by decide +kernel, by decide +kernel⟩

end TemporalStore.Session
