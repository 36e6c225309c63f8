import TemporalStore.Proofs.Session.Completed
import TemporalStore.Proofs.Session.Isolation
import TemporalStore.Proofs.Session.Retired

/-!
This module contains the proof of which versions an edit leaves in sight: under its commit after the
old ones were retired, and on the branch after the commit was completed.
-/

namespace TemporalStore.Session

variable {session : Session} {handle : Nat} {commit : Commit} {field : String}
  {values : OrderedSet String} {id : VersionId} {d : Document}

/--
Nothing is seen under a commit that starts after it.
-/
theorem exists_get?_of_visibleWithin (sound : session.Sound)
    (there : session.commits[handle]? = some commit)
    (open' : commit.IsOpen session.site.directory.openCommits) {seen : List VersionId}
    (h : session.visibleWithin handle = .ok seen) (mem : id ∈ seen) :
    ∃ d, session.documents.get? id = some d ∧ d.start ≤ commit.timepoint := by
  have formed := sound.site.consistent.formed commit (List.mem_of_getElem? there)
  rw [visibleWithin_eq sound there open', Except.ok.injEq] at h
  rw [← h, sound.keyed.mem_ids_iff] at mem
  obtain ⟨d, found, accepted⟩ := mem
  refine ⟨d, found, ?_⟩
  rcases RowIndex.accepts_criteria_iff.1 accepted with ⟨-, start, -⟩ | ⟨level, mem, accepted⟩
  · exact start
  · have valid := fun q => @Path.valid_of_mem_ancestors commit.branch.path q formed.valid
    obtain ⟨inherited, -, time⟩ := sound.site.consistent.valid.of_mem_levels valid mem
    obtain ⟨-, start, -⟩ := (Level.accepts_inherited_iff inherited).1 accepted
    have before := formed.base_lt
    lia

theorem visibleWithin_write {docs : List Document} (sound : session.Sound)
    (there : session.commits[handle]? = some commit)
    (open' : commit.IsOpen session.site.directory.openCommits) :
    ∃ before after, session.visibleWithin handle = .ok before ∧
      (session.step (.write handle docs)).2.visibleWithin handle = .ok after ∧
      ∀ id, id ∈ after ↔
        id ∈ before ∨ id ∈ (session.site.host.ids.drawMany docs.length).1 := by
  have stays := @stays_step session sound (.write handle docs) trivial
  have before := visibleWithin_eq sound there open'
  rw [step_write there] at stays ⊢
  have after := visibleWithin_eq stays.sound there open'
  refine ⟨_, _, before, after, ?_⟩
  intro id
  rw [stays.sound.keyed.mem_ids_iff, sound.keyed.mem_ids_iff]
  by_cases drawn : id ∈ (session.site.host.ids.drawMany docs.length).1
  · obtain ⟨d, found, path, start, current⟩ :=
      @Commit.exists_get?_saveAll commit docs _ session.documents id drawn
    simp only [drawn, or_true, iff_true]
    refine ⟨d, found, ?_⟩
    -- the clause of the branch itself reaches up to the timepoint of the commit
    apply RowIndex.accepts_criteria_iff.2
    left
    exact ⟨path, Int.le_of_eq start, current⟩
  · have same : (session.write commit docs).documents.get? id = session.documents.get? id :=
      Commit.get?_saveAll_of_not_mem drawn
    simp only [drawn, or_false, same]
    rfl

/--
The versions that are shown after an edit was completed: those that were seen under its commit when
the old ones had been retired, and the new ones.
-/
theorem visible_of_steps {docs : List Document} {after : List VersionId} (sound : session.Sound)
    (there : session.commits[handle]? = some commit)
    (open' : commit.IsOpen session.site.directory.openCommits)
    (seen : session.visibleWithin handle = .ok after)
    (done : ((session.step (.write handle docs)).2.step (.complete handle)).1 = .ok ()) :
    ∃ shown, ((session.step (.write handle docs)).2.step (.complete handle)).2.visible
        commit.branchPath = .ok shown ∧
      ∀ id, id ∈ shown ↔
        (id ∈ after ∧ ∀ d, session.documents.get? id = some d → d.path = commit.flatBranchPath ∨
          id ∉ sourceReplaced session.site.directory.index commit) ∨
        id ∈ (session.site.host.ids.drawMany docs.length).1 := by
  have sound' := (@stays_step session sound (.write handle docs) trivial).sound
  obtain ⟨before, after', seen', seenToo, written⟩ :=
    @visibleWithin_write session handle commit docs sound there open'
  rw [seen, Except.ok.injEq] at seen'
  rw [step_write there] at sound' done seenToo ⊢
  obtain ⟨before', shown, seenToo', shows, rest⟩ :=
    @visible_complete (session.write commit docs) handle commit sound' there open' done
  rw [seenToo, Except.ok.injEq] at seenToo'
  refine ⟨shown, shows, ?_⟩
  intro id
  rw [rest, ← seenToo', written, ← seen']
  by_cases drawn : id ∈ (session.site.host.ids.drawMany docs.length).1
  · obtain ⟨d, found, path, -⟩ :=
      @Commit.exists_get?_saveAll commit docs _ session.documents id drawn
    simp only [drawn, or_true, true_and, iff_true]
    intro d' found'
    left
    have same := found.symm.trans found'
    rw [← Option.some.inj same]
    exact path
  · have same : (session.write commit docs).documents.get? id = session.documents.get? id :=
      Commit.get?_saveAll_of_not_mem drawn
    simp only [drawn, or_false, same]
    rfl

/--
Which versions an edit leaves in sight, in any state that can be reached. Those that are retired are
the older ones without end; a version that was inherited and has been ended since is missed. So all
older ones are out of sight if and only if none of them had ended before. Once the edit is
completed, the new versions are shown, and with the same values only versions that were missed or
written under the commit before.
-/
theorem seen_of_edit {start : Session} {actions : List Action} (new : start.New)
    (permitted : start.Permits actions) (reached : start.run actions = session)
    (there : session.commits[handle]? = some commit)
    (open' : commit.IsOpen session.site.directory.openCommits) (field : String)
    (values : OrderedSet String) (docs : List Document) :
    (session.step (.retire handle field values)).1 = .ok () ∧
      ∃ before after, session.visibleWithin handle = .ok before ∧
        (session.step (.retire handle field values)).2.visibleWithin handle = .ok after ∧
        (∀ id, id ∈ after ↔ id ∈ before ∧ ∀ d, session.documents.get? id = some d →
          ¬ (d.Older commit.timepoint field values ∧ d.ended = none)) ∧
        ((∀ id ∈ after, ∀ d,
            (session.step (.retire handle field values)).2.documents.get? id = some d →
              ¬ d.Older commit.timepoint field values) ↔
          ∀ id ∈ before, ∀ d, session.documents.get? id = some d →
            d.Older commit.timepoint field values → d.ended = none) ∧
        (((session.run [.retire handle field values, .write handle docs]).step
            (.complete handle)).1 = .ok () →
          ∃ shown, (session.run [.retire handle field values, .write handle docs,
              .complete handle]).visible commit.branchPath = .ok shown ∧
            (∀ id, id ∈ shown ↔
              (id ∈ after ∧ ∀ d, session.documents.get? id = some d →
                d.path = commit.flatBranchPath ∨
                  id ∉ sourceReplaced session.site.directory.index commit) ∨
              id ∈ (session.site.host.ids.drawMany docs.length).1) ∧
            ∀ id ∈ shown, id ∉ (session.site.host.ids.drawMany docs.length).1 →
              ∃ d, session.documents.get? id = some d ∧
                (d.Matches field values → d.start = commit.timepoint ∨ d.ended ≠ none)) := by
  have sound : session.Sound := reached ▸ sound_run new.sound permitted
  have sound' := (@stays_step session sound (.retire handle field values) trivial).sound
  obtain ⟨retires, before, after, seen, seen', rest⟩ :=
    visibleWithin_retire sound there open' field values
  have retired := retired_retire sound there open' field values
  refine ⟨retires, before, after, seen, seen', rest, retired.gone_iff rest, ?_⟩
  obtain ⟨⟨commit', there', same, open''⟩, index, host, documents⟩ := retired
  intro done
  obtain ⟨branch, -, -, source⟩ := Commit.bare_eq_iff.1 same
  have path : commit'.branchPath = commit.branchPath := congrArg BranchRow.path branch
  have flat : commit'.flatBranchPath = commit.flatBranchPath := congrArg Path.flatten path
  obtain ⟨shown, shows, all⟩ := visible_of_steps sound' there' open'' seen' done
  rw [path] at shows
  have listed : ∀ id, id ∈ shown ↔
      (id ∈ after ∧ ∀ d, session.documents.get? id = some d → d.path = commit.flatBranchPath ∨
        id ∉ sourceReplaced session.site.directory.index commit) ∨
      id ∈ (session.site.host.ids.drawMany docs.length).1 := by
    intro id
    obtain ⟨end?, same⟩ := documents id
    rw [all, host, index, flat, same]
    unfold sourceReplaced
    rw [source]
    simp
  refine ⟨shown, shows, listed, ?_⟩
  intro id mem old
  obtain ⟨mem, -⟩ := ((listed id).1 mem).resolve_right old
  obtain ⟨mem, other⟩ := (rest id).1 mem
  obtain ⟨d, found, start⟩ := exists_get?_of_visibleWithin sound there open' seen mem
  refine ⟨d, found, ?_⟩
  intro same
  rcases Int.lt_or_eq_of_le start with earlier | now
  · right
    intro current
    exact other d found ⟨⟨earlier, same⟩, current⟩
  · exact .inl now

/--
A branch inherits a version, which its parent supersedes. Then a commit is opened on the branch.
-/
def supersededAbove : List Action :=
  inheritedBelow ++ replacedAbove ++ [.openCommit "M/A" .content]

theorem seen_of_edit_below :
    ∃ after, ((empty.run supersededAbove).step
        (.retire 2 "businessId" (.ofList ["1"]))).2.visibleWithin 2 = .ok after ∧
      VersionId.generated 1 ∈ after := by
  have m : Path.Valid "M" := by decide
  have a : Path.Valid "M/A" := by decide
  have permitted : empty.Permits supersededAbove :=
    ⟨m, m, trivial, trivial, a, m, trivial, trivial, trivial, a, trivial⟩
  have opened : ((empty.run supersededAbove).commits[2]?).any (fun commit =>
      (empty.run supersededAbove).site.directory.openCommits.get? commit.branchPath =
        some commit.timepoint) := by decide +kernel
  have inherited : (empty.run supersededAbove).visibleWithin 2 = .ok [.generated 1] := by
    decide +kernel
  have ended : ((empty.run supersededAbove).documents.get? (.generated 1)).all
      (fun d => d.ended.isSome) := by decide +kernel
  obtain ⟨commit, there, open'⟩ := (Option.any_eq_true _ _).1 opened
  rw [decide_eq_true_eq] at open'
  obtain ⟨-, before, after, seen, seen', rest, -⟩ := seen_of_edit new_empty permitted rfl there
    open' "businessId" (.ofList ["1"]) []
  refine ⟨after, seen', ?_⟩
  rw [inherited, Except.ok.injEq] at seen
  rw [rest, ← seen]
  refine ⟨List.mem_singleton_self _, ?_⟩
  rintro d found ⟨-, current⟩
  rw [found] at ended
  simp [current] at ended

/--
The version that was superseded above is seen under the commit although it was to be retired, and
on the branch beside the new one.
-/
theorem shown_beside_new :
    (empty.run (supersededAbove ++ [.retire 2 "businessId" (.ofList ["1"])])).visibleWithin 2 =
        .ok [.generated 1] ∧
      ((empty.run (supersededAbove ++ [.retire 2 "businessId" (.ofList ["1"])])).documents.get?
        (.generated 1)).map (fun d => (d.start, d.fieldValue "businessId")) = some (2, some "1") ∧
      (empty.run supersededAbove).commits[2]?.map Commit.timepoint = some 5 ∧
      (empty.run (supersededAbove ++ [.retire 2 "businessId" (.ofList ["1"]),
        .write 2 [{ businessId := some "1", term := "mine" }], .complete 2])).visible "M/A" =
          .ok [.generated 1, .generated 3] := by
  decide +kernel

end TemporalStore.Session
