import TemporalStore.Proofs.Session.Completed
import TemporalStore.Proofs.Session.Growth
import TemporalStore.Proofs.Session.Stored
import TemporalStore.Proofs.Visibility.Lineage

/-!
This module contains how long a version is shown that was written under a commit: on its branch from
the completion of the commit on until the version ends, and by no row of the branch from before.
-/

namespace TemporalStore.Session

section

variable {session : Session} {path : String} {row : BranchRow} {d : Document}

theorem exists_accepting (sound : session.Sound) (hp : Path.Valid path)
    (last : session.site.directory.index.last? path = some row) (here : d.path = Path.flatten path)
    (started : d.start ≤ row.head) (current : d.ended = none) :
    ∃ criteria site, Criteria.ofBranch path session.site = .ok criteria site ∧
      criteria.accepts d := by
  have valid := sound.site.consistent.valid
  have rowPath := (valid.fits_last hp last).path
  obtain ⟨history, -, answer⟩ := Criteria.ofBranch_eq valid sound.site.agrees hp last
  refine ⟨_, _, answer, ?_⟩
  rw [Criteria.accepts_eq, RowIndex.accepts_criteria_iff]
  unfold BranchRow.flatPath
  rw [rowPath]
  exact .inl ⟨here, started, current⟩

/--
A row does not show what was written on its branch later.
-/
theorem exists_rejecting (sound : session.Sound) (hp : Path.Valid path)
    (mem : row ∈ session.site.directory.index.timeline path) (here : d.path = Path.flatten path)
    (later : row.head < d.start) :
    ∃ criteria site, Criteria.ofRow row session.site = .ok criteria site ∧
      ¬ criteria.accepts d := by
  have valid := sound.site.consistent.valid
  have rowPath := (valid.fits path hp row mem).path
  obtain ⟨history, -, answer⟩ := Criteria.ofRow_eq valid sound.site.agrees hp mem
  refine ⟨_, _, answer, ?_⟩
  rw [Criteria.accepts_eq, RowIndex.accepts_criteria_iff]
  subst rowPath
  rintro (⟨-, started, -⟩ | inherits)
  · exact absurd started (Int.not_le.2 later)
  · exact valid.path_ne_of_inherits hp inherits here

end

/--
What a commit leaves behind on its branch when it is completed is never lost, so that the branch
never falls behind the commit.
-/
theorem exists_last_of_completed {session : Session} {handle : Nat} {commit : Commit}
    {actions : List Action} (sound : session.Sound)
    (there : session.commits[handle]? = some commit)
    (completed : (session.step (.complete handle)).1 = .ok ())
    (permitted : session.Permits (.complete handle :: actions)) (keeps : .purge ∉ actions) :
    ∃ row, (session.run (.complete handle :: actions)).site.directory.index.last?
      commit.branchPath = some row ∧ commit.timepoint ≤ row.head := by
  have hc := List.mem_of_getElem? there
  have hp := (sound.site.consistent.formed commit hc).valid
  obtain ⟨-, permitted⟩ := permitted
  have sound' := (@stays_step session sound (.complete handle) trivial).sound
  rw [run]
  rw [step_complete there] at completed permitted sound' ⊢
  cases answer : Directory.complete commit session.site with
  | error e site =>
    rw [call_error answer] at completed
    simp at completed
  | ok row site =>
    have done := exists_completed sound hc answer
    rw [call_ok answer] at permitted sound' ⊢
    obtain ⟨stored, mem, same⟩ :=
      stores_run sound' hp (RowIndex.stores_of_last? done.last) permitted keeps
    obtain ⟨-, -, -, head, -⟩ := BranchRow.core_eq_iff.1 same
    have sound'' := sound_run sound' permitted
    have valid := sound''.site.consistent.valid
    obtain ⟨last, isLast, le⟩ := valid.exists_last mem
    refine ⟨last, isLast, ?_⟩
    rw [(valid.fits_last hp isLast).head, ← done.head, ← head,
      (valid.fits commit.branchPath hp stored mem).head]
    exact le

/--
A version that was written under a commit is accepted by the criteria of its branch from the
completion of the commit on, for as long as it has no end, whatever else is done on this branch and
others. No row of the branch from before the commit shows it, with or without an end.
-/
theorem accepted_of_written {start session written last : Session} {handle : Nat} {commit : Commit}
    {docs : List Document} {actions middle later : List Action} (new : start.New)
    (permitted : start.Permits actions) (reached : start.run actions = session)
    (there : session.commits[handle]? = some commit)
    (wrote : (session.step (.write handle docs)).2 = written)
    (permitted' : written.Permits (middle ++ .complete handle :: later))
    (fresh : written.Fresh (middle ++ .complete handle :: later))
    (stays : ∀ cacheSize, .reopen cacheSize ∉ middle)
    (completed : ((written.run middle).step (.complete handle)).1 = .ok ())
    (keeps : .purge ∉ later)
    (arrived : written.run (middle ++ .complete handle :: later) = last) :
    ∀ id ∈ (session.site.host.ids.drawMany docs.length).1, ∃ d ∈ docs, ∃ version,
      last.documents.get? id = some version ∧
      version = { commit.stamp d with id := some id, ended := version.ended } ∧
      (version.ended = none → ∃ criteria site,
        Criteria.ofBranch commit.branchPath last.site = .ok criteria site ∧
          criteria.accepts version) ∧
      ∀ row ∈ last.site.directory.index.timeline commit.branchPath, row.head < commit.timepoint →
        ∃ criteria site, Criteria.ofRow row last.site = .ok criteria site ∧
          ¬ criteria.accepts version := by
  intro id drawn
  have sound := sound_run new.sound permitted
  rw [reached] at sound
  have hp := (sound.site.consistent.formed commit (List.mem_of_getElem? there)).valid
  obtain ⟨d, given, found⟩ := @Commit.exists_stamp_saveAll commit docs _ session.documents id drawn
  have sound' := (@stays_step session sound (.write handle docs) trivial).sound
  rw [step_write there] at wrote sound'
  subst wrote
  obtain ⟨ended, kept⟩ := exists_ended_run sound' found permitted' fresh
  have sound'' := sound_run sound' permitted'
  rw [arrived] at kept sound''
  -- the commit is still under its handle when it is completed
  obtain ⟨before, after⟩ := (permits_append _ middle _).1 permitted'
  obtain ⟨commit', there', bare⟩ := exists_handle_run sound' there before stays
  obtain ⟨branch, time, -⟩ := Commit.bare_eq_iff.1 bare
  obtain ⟨row, isLast, reaches⟩ :=
    exists_last_of_completed (sound_run sound' before) there' completed after keeps
  have branchPath : commit'.branchPath = commit.branchPath := congrArg BranchRow.path branch
  rw [branchPath, ← run_append, arrived] at isLast
  rw [time] at reaches
  refine ⟨d, given, _, kept, rfl, ?_, ?_⟩
  · intro current
    exact exists_accepting sound'' hp isLast rfl reaches current
  · intro row' mem earlier
    exact exists_rejecting sound'' hp mem rfl earlier

def openedBelow : List Action := [.create "M", .create "M/A", .openCommit "M/A" .content]

/--
While the commit is open there is another one on the parent.
-/
def committedMeanwhile : List Action :=
  [.openCommit "M" .content, .write 1 [{ businessId := some "2" }], .complete 1]

/--
The branch is promoted to its parent, which starts it anew, and rebased after that.
-/
def promotedAndRebased : List Action :=
  [.openPromotion "M" "M/A", .complete 2, .openCommit "M/A" .rebase, .complete 3]

def writtenBelow : Session :=
  ((empty.run openedBelow).step (.write 0 [{ businessId := some "1" }])).2

def rebasedBelow : Session :=
  writtenBelow.run (committedMeanwhile ++ .complete 0 :: promotedAndRebased)

theorem accepted_of_writtenBelow :
    empty.New ∧ empty.Permits openedBelow ∧
      writtenBelow.Permits (committedMeanwhile ++ .complete 0 :: promotedAndRebased) ∧
      writtenBelow.Fresh (committedMeanwhile ++ .complete 0 :: promotedAndRebased) ∧
      (rebasedBelow.site.directory.index.timeline "M/A").map BranchRow.head = [2, 3, 5, 6] ∧
      ∃ version, rebasedBelow.documents.get? (.generated 1) = some version ∧
        version.ended = none ∧
        (∃ criteria site, Criteria.ofBranch "M/A" rebasedBelow.site = .ok criteria site ∧
          criteria.accepts version) ∧
        ∀ row ∈ rebasedBelow.site.directory.index.timeline "M/A", row.head < 3 →
          ∃ criteria site, Criteria.ofRow row rebasedBelow.site = .ok criteria site ∧
            ¬ criteria.accepts version := by
  have m : Path.Valid "M" := by decide
  have a : Path.Valid "M/A" := by decide
  have permitted : empty.Permits openedBelow := ⟨m, a, a, trivial⟩
  have permitted' : writtenBelow.Permits
      (committedMeanwhile ++ .complete 0 :: promotedAndRebased) :=
    ⟨m, trivial, trivial, trivial, ⟨m, a⟩, trivial, a, trivial, trivial⟩
  have absent : ∀ id ∈ ((writtenBelow.step (.openCommit "M" .content)).2.site.host.ids.drawMany
      1).1, (writtenBelow.step (.openCommit "M" .content)).2.documents.get? id = none := by
    decide +kernel
  have fresh : writtenBelow.Fresh (committedMeanwhile ++ .complete 0 :: promotedAndRebased) :=
    ⟨trivial, fun _ _ => absent, trivial, trivial, trivial, trivial, trivial, trivial, trivial⟩
  have completed : ((writtenBelow.run committedMeanwhile).step (.complete 0)).1 = .ok () := by
    decide +kernel
  obtain ⟨commit, there, path, time⟩ : ∃ commit,
      (empty.run openedBelow).commits[0]? = some commit ∧ commit.branchPath = "M/A" ∧
        commit.timepoint = 3 := by
    decide +kernel
  have drawn : VersionId.generated 1 ∈ ((empty.run openedBelow).site.host.ids.drawMany
      [({ businessId := some "1" } : Document)].length).1 := by
    decide +kernel
  have current : (rebasedBelow.documents.get? (.generated 1)).all (·.ended = none) := by
    decide +kernel
  have heads : (rebasedBelow.site.directory.index.timeline "M/A").map BranchRow.head =
      [2, 3, 5, 6] := by
    decide +kernel
  obtain ⟨d, -, version, found, -, accepted, rejected⟩ :=
    accepted_of_written new_empty permitted rfl there (rfl : _ = writtenBelow) permitted' fresh
      (by simp [committedMeanwhile]) completed (by simp [promotedAndRebased])
      (rfl : _ = rebasedBelow) _ drawn
  rw [path] at accepted rejected
  rw [time] at rejected
  rw [found] at current
  have current : version.ended = none := by simpa using current
  exact ⟨new_empty, permitted, permitted', fresh, heads, version, found, current,
    accepted current, rejected⟩

end TemporalStore.Session
