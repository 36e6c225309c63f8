import TemporalStore.Proofs.Session.Orderly
import TemporalStore.Proofs.Visibility.Retire

/-!
This module contains what a call that retires old versions has changed in the end: where it
succeeded, where it failed, and where it is made a second time.
-/

namespace TemporalStore

namespace Criteria

/--
Whoever has looked at a valid directory sees the same again.
-/
theorem exists_build_again {site site' : Site} {now t : Timepoint} {row : BranchRow}
    {hidden : OrderedSet VersionId} {criteria : Criteria} (h : site.directory.index.Valid now)
    (agrees : site.directory.history.Agrees site.directory.index)
    (answer : build row t hidden site = .ok criteria site') :
    ∃ site'', build row t hidden site' = .ok criteria site'' := by
  obtain ⟨history, agrees', outcome⟩ := build_eq h agrees row t hidden
  rcases outcome with ⟨covered, found⟩ | ⟨-, path, u, failed⟩
  · rw [answer] at found
    obtain ⟨rfl, rfl⟩ := EStateM.Result.ok.inj found
    obtain ⟨history', -, again⟩ :=
      @build_of_covered (site.withHistory history) now h agrees' row covered t hidden
    exact ⟨_, again⟩
  · rw [answer] at failed
    cases failed

end Criteria

namespace Edit

/--
Those versions have been ended that were written on the branch before the commit, have one of the
values and had no end, and nothing else has changed of any document.
-/
structure EndsOwn (edit after : Edit) (field : String) (values : OrderedSet String)
    (ids : List VersionId) : Prop where
  lists : edit.documents.Lists ids fun d => d.path = edit.commit.flatBranchPath ∧
    d.Older edit.commit.timepoint field values ∧ d.ended = none
  documents : ∀ id, after.documents.get? id = (edit.documents.get? id).map fun d =>
    if id ∈ ids then { d with ended := some edit.commit.timepoint } else d

/--
The commit hides, beside what it has hidden before, those versions from elsewhere that were accepted
by `criteria`, started before the commit, have one of the values and had no end, and nothing else
has changed of the commit.
-/
structure HidesInherited (edit after : Edit) (criteria : Criteria) (field : String)
    (values : OrderedSet String) (ids : List VersionId) : Prop where
  lists : edit.documents.Lists ids fun d => d.path ≠ edit.commit.flatBranchPath ∧
    (d.Older edit.commit.timepoint field values ∧ d.ended = none) ∧
      criteria.toPredicate.accepts d
  unseen : ∀ id ∈ ids, id ∉ edit.commit.allReplaced
  commit : after.commit = { edit.commit with replaced := edit.commit.replaced.insertMany ids }

variable {edit after : Edit} {field : String} {values : OrderedSet String} {criteria : Criteria}
  {site : Site} {counts : RetiredVersions} {e : StoreError}

theorem endsOwn_ownIds (keyed : edit.documents.Keyed)
    (same : after.documents = (edit.ownEnded field values).documents) :
    edit.EndsOwn after field values (edit.ownIds field values) where
  lists := lists_ownIds keyed
  documents id := by
    rw [same]
    exact get?_ownEnded edit field values id

theorem hidesInherited_retired (keyed : edit.documents.Keyed)
    (answer : Criteria.ofCommit edit.commit edit.site = .ok criteria site) :
    edit.HidesInherited (edit.retired criteria field values site) criteria field values
      (edit.acceptedIds criteria field values) where
  lists := lists_acceptedIds keyed criteria
  unseen id mem := by
    obtain ⟨d, found, elsewhere, -, accepted⟩ :=
      ((lists_acceptedIds keyed criteria).mem_iff id).1 mem
    exact Criteria.not_mem_of_accepts answer (keyed id d found) elsewhere accepted
  commit := rfl

theorem exists_criteria_of_retire_ok (keyed : edit.documents.Keyed) (some : values ≠ ∅)
    (done : retire field values edit = .ok counts after) :
    ∃ criteria, Criteria.ofCommit edit.commit edit.site = .ok criteria after.site ∧
      after = edit.retired criteria field values after.site ∧
      counts = { replaced := (edit.acceptedIds criteria field values).length
                 ended := (edit.ownIds field values).length } := by
  cases answer : Criteria.ofCommit edit.commit edit.site with
  | ok criteria site =>
    rw [retire_eq keyed some answer] at done
    obtain ⟨rfl, rfl⟩ := EStateM.Result.ok.inj done
    exact ⟨criteria, rfl, rfl, rfl⟩
  | error e site =>
    rw [retire_error some answer] at done
    cases done

/--
What a call that fails has done: it had nothing to hide, because what the commit sees could not be
told.
-/
theorem criteria_of_retire_error (failed : retire field values edit = .error e after) :
    values ≠ ∅ ∧ Criteria.ofCommit edit.commit edit.site = .error e after.site ∧
      after = { edit.ownEnded field values with site := after.site } := by
  by_cases none : values = ∅
  · rw [none] at failed
    cases failed
  · refine ⟨none, ?_⟩
    cases answer : Criteria.ofCommit edit.commit edit.site with
    | ok criteria site =>
      rw [retire_ok none answer] at failed
      cases failed
    | error e site =>
      rw [retire_error none answer] at failed
      obtain ⟨rfl, rfl⟩ := EStateM.Result.error.inj failed
      exact ⟨rfl, rfl⟩

/-! ## Calls that succeed -/

/--
What a call that succeeds has done to the documents and to the commit, whatever the directory is
like. A second call ends nothing. It has no effect at all if the ancestors are found as they were
the first time, and they always are where branch paths are valid; and it has none if it fails.
-/
theorem retire_exact (keyed : edit.documents.Keyed) (some : values ≠ ∅)
    (done : retire field values edit = .ok counts after) :
    ∃ criteria own hidden, Criteria.ofCommit edit.commit edit.site = .ok criteria after.site ∧
      edit.EndsOwn after field values own ∧
      edit.HidesInherited after criteria field values hidden ∧
      counts = { replaced := hidden.length, ended := own.length } ∧
      (∀ counts' again, retire field values after = .ok counts' again →
        counts'.ended = 0 ∧ again.documents = after.documents) ∧
      (∀ e again, retire field values after = .error e again →
        again.commit = after.commit ∧ again.documents = after.documents) ∧
      (∀ site, Criteria.ofCommit edit.commit after.site = .ok criteria site →
        retire field values after = .ok {} { after with site }) ∧
      ∀ start actions session, Session.New start → start.Permits actions →
        start.run actions = session → session.site = edit.site →
          ∃ site, retire field values after = .ok {} { after with site } := by
  obtain ⟨criteria, answer, shape, number⟩ := exists_criteria_of_retire_ok keyed some done
  have keyed' : after.documents.Keyed := by
    rw [shape]
    exact keyed_ownEnded keyed
  have nothing : after.ownEnded field values = after := by
    rw [shape]
    exact ownEnded_retired keyed
  have settled : after.ownIds field values = [] := by
    rw [shape]
    exact ownIds_ownEnded keyed
  refine ⟨criteria, edit.ownIds field values, edit.acceptedIds criteria field values, answer,
    ?_, ?_, number, ?_, ?_, ?_, ?_⟩
  · apply endsOwn_ownIds keyed
    rw [shape]
    rfl
  · rw [shape]
    exact hidesInherited_retired keyed answer
  · intro counts' again done'
    obtain ⟨criteria', -, shape', number'⟩ := exists_criteria_of_retire_ok keyed' some done'
    constructor
    · rw [number', settled]
      rfl
    · rw [shape']
      change (after.ownEnded field values).documents = _
      rw [nothing]
  · intro e again failed
    obtain ⟨-, -, shape'⟩ := criteria_of_retire_error failed
    rw [nothing] at shape'
    rw [shape']
    exact ⟨rfl, rfl⟩
  · intro site again
    rw [shape]
    exact retire_retired keyed some again
  · intro start actions session new permitted reached same
    have sound := (Session.sound_run new.sound permitted).site
    rw [reached, same] at sound
    obtain ⟨site, again⟩ :=
      Criteria.exists_build_again sound.consistent.valid sound.agrees answer
    rw [shape]
    exact ⟨site, retire_retired keyed some again⟩

end Edit

namespace Session

/--
A version on a branch and one that it inherits have the same value when a commit is opened.
-/
def writtenTwice : List Action :=
  [.create "M", .openCommit "M" .content, .write 0 [{ businessId := some "1", term := "old" }],
    .complete 0, .create "M/A", .openCommit "M/A" .content,
    .write 1 [{ businessId := some "1", term := "mine" }], .complete 1,
    .openCommit "M/A" .content]

theorem retire_exact_writtenTwice :
    ∃ commit counts after site, (empty.run writtenTwice).commits[2]? = some commit ∧
      Edit.retire "businessId" (.ofList ["1"]) ((empty.run writtenTwice).editing commit) =
        .ok counts after ∧ counts = { replaced := 1, ended := 1 } ∧
      Edit.retire "businessId" (.ofList ["1"]) after = .ok {} { after with site } := by
  have m : Path.Valid "M" := by decide
  have a : Path.Valid "M/A" := by decide
  have permitted : empty.Permits writtenTwice :=
    ⟨m, m, trivial, trivial, a, a, trivial, trivial, a, trivial⟩
  have keyed : (empty.run writtenTwice).documents.Keyed :=
    (sound_run new_empty.sound permitted).keyed
  have ran : ((empty.run writtenTwice).commits[2]?).any fun commit =>
      (Edit.retire "businessId" (.ofList ["1"])).run' ((empty.run writtenTwice).editing commit) =
        some { replaced := 1, ended := 1 } := by decide +kernel
  obtain ⟨commit, there, succeeds⟩ := (Option.any_eq_true _ _).1 ran
  rw [decide_eq_true_eq] at succeeds
  unfold EStateM.run' EStateM.run at succeeds
  cases done : Edit.retire "businessId" (.ofList ["1"])
      ((empty.run writtenTwice).editing commit) with
  | ok counts after =>
    rw [done] at succeeds
    obtain ⟨criteria, own, hidden, -, -, -, -, -, -, -, again⟩ :=
      Edit.retire_exact keyed (by decide) done
    obtain ⟨site, again⟩ := again empty writtenTwice _ new_empty permitted rfl rfl
    exact ⟨commit, counts, after, site, there, done, Option.some.inj succeeds, again⟩
  | error e after =>
    rw [done] at succeeds
    cases succeeds

/--
The cache has room for one row. It holds a row of `M/A` when a promotion is completed that names its
source by the flat path, was opened before that row began, and starts another row at its own
timepoint.
-/
def heldInCache : List Action :=
  [.create "M", .create "M/A", .openPromotion "M" "M_A", .unlock "M/A",
    .openCommit "M/A" .content, .complete 1, .create "M/A/B", .openCommit "M/A" .content,
    .complete 2, .lock "M/A", .openCommit "M/A/B" .content, .rowAt "M/A" 4, .complete 0]

def cramped : Session := { site := { directory := .ofIndex (some "b.bin") {} 1, host := {} } }

theorem new_cramped : cramped.New := by
  refine ⟨rfl, rfl, some "b.bin", 1, rfl, ?_⟩
  intro name h
  rw [← Option.some.inj h]
  rfl

/--
The second call finds a contradiction where the first one has found the row in the cache.
-/
theorem not_retired_again :
    cramped.New ∧ cramped.Undisturbed heldInCache ∧
      ((cramped.run heldInCache).step (.retire 3 "businessId" (.ofList ["x"]))).1 = .ok () ∧
      ((cramped.run (heldInCache ++ [.retire 3 "businessId" (.ofList ["x"])])).step
        (.retire 3 "businessId" (.ofList ["x"]))).1 = .error (.dataIntegrity
          "There should not be more than one version of branch M/A at timepoint 4.") := by
  refine ⟨new_cramped, ?_, by decide +kernel, by decide +kernel⟩
  exact ⟨trivial, trivial, trivial, trivial, trivial, trivial, trivial, trivial, trivial, trivial,
    trivial, trivial, trivial, trivial⟩

end Session

/-! ## Calls that fail -/

namespace Edit

/--
A call that fails leaves the commit as it was, and the documents with those on the branch itself
ended, because these come first. So everything is as it was if and only if there were none to end.
What fails is to tell what the commit sees, and nothing else.
-/
theorem retire_failed (keyed : edit.documents.Keyed)
    (failed : retire field values edit = .error e after) :
    values ≠ ∅ ∧ Criteria.ofCommit edit.commit edit.site = .error e after.site ∧
      after.commit = edit.commit ∧
      ∃ own, edit.EndsOwn after field values own ∧
        (after.documents = edit.documents ↔ own = []) := by
  obtain ⟨some, answer, shape⟩ := criteria_of_retire_error failed
  have documents : after.documents = (edit.ownEnded field values).documents := by rw [shape]
  have ends : edit.EndsOwn after field values (edit.ownIds field values) :=
    endsOwn_ownIds keyed documents
  refine ⟨some, answer, ?_, edit.ownIds field values, ends, ?_, ?_⟩
  · rw [shape]
    rfl
  · intro same
    rw [List.eq_nil_iff_forall_not_mem]
    intro id mem
    obtain ⟨d, found, -, -, current⟩ := (ends.lists.mem_iff id).1 mem
    have ended := ends.documents id
    rw [same, found, Option.map_some, if_pos mem, Option.some.injEq] at ended
    rw [ended] at current
    simp at current
  · intro none
    rw [documents]
    unfold ownEnded
    rw [none]
    rfl

end Edit

namespace Session

/--
A version has been written on a branch, and all branches are purged while a commit is open on it.
-/
def purgedBeneath : List Action :=
  [.create "M", .create "M/A", .openCommit "M/A" .content,
    .write 0 [{ businessId := some "1", term := "old" }], .complete 0,
    .openCommit "M/A" .content, .purge]

theorem permits_purgedBeneath : empty.Permits purgedBeneath :=
  ⟨rfl, rfl, rfl, trivial, trivial, rfl, trivial, trivial⟩

theorem retire_failed_purgedBeneath :
    ∃ commit after, (empty.run purgedBeneath).commits[1]? = some commit ∧
      Edit.retire "businessId" (.ofList ["1"]) ((empty.run purgedBeneath).editing commit) =
        .error (.branchNotFoundAt "M" 1) after ∧
      after.commit = commit ∧ after.documents ≠ (empty.run purgedBeneath).documents := by
  have keyed : (empty.run purgedBeneath).documents.Keyed :=
    (sound_run new_empty.sound permits_purgedBeneath).keyed
  have given : ((empty.run purgedBeneath).commits[1]?).isSome := by decide +kernel
  have refused : ((empty.run purgedBeneath).step (.retire 1 "businessId" (.ofList ["1"]))).1 =
      .error (.branchNotFoundAt "M" 1) := by decide +kernel
  have ended : (((empty.run purgedBeneath).step
      (.retire 1 "businessId" (.ofList ["1"]))).2.documents.get? (.generated 1)).map
        Document.ended = some (some 4) := by decide +kernel
  have current : ((empty.run purgedBeneath).documents.get? (.generated 1)).map
      Document.ended = some none := by decide +kernel
  obtain ⟨commit, there⟩ := Option.isSome_iff_exists.1 given
  rw [step_retire there] at refused ended
  unfold retire at refused ended
  cases failed : Edit.retire "businessId" (.ofList ["1"])
      ((empty.run purgedBeneath).editing commit) with
  | ok counts after =>
    rw [failed] at refused
    cases refused
  | error e after =>
    rw [failed] at refused ended
    obtain rfl := Except.error.inj refused
    obtain ⟨-, -, same, -⟩ := Edit.retire_failed keyed failed
    refine ⟨commit, after, there, failed, same, ?_⟩
    intro unchanged
    change (after.documents.get? (.generated 1)).map Document.ended = some (some 4) at ended
    rw [unchanged, current] at ended
    cases ended

/--
The call fails because the ancestor is gone, and the version on the branch itself has ended.
-/
theorem ended_by_failure :
    empty.New ∧ empty.Permits purgedBeneath ∧
      ((empty.run purgedBeneath).step (.retire 1 "businessId" (.ofList ["1"]))).1 =
        .error (.branchNotFoundAt "M" 1) ∧
      ((empty.run purgedBeneath).documents.get? (.generated 1)).map Document.ended =
        some none ∧
      (((empty.run purgedBeneath).step (.retire 1 "businessId" (.ofList ["1"]))).2.documents.get?
        (.generated 1)).map Document.ended = some (some 4) :=
  ⟨new_empty, permits_purgedBeneath, by decide +kernel, by decide +kernel, by decide +kernel⟩

end Session

end TemporalStore
