import TemporalStore.Proofs.Directory.Ledger
import TemporalStore.Proofs.Session.Sound

/-!
This module contains the proof that the current rows of a session can be told from the history of
its commits: from what was created, opened and completed, and when.
-/

namespace TemporalStore

/--
What an action that has succeeded is for a ledger. Its timepoint is the one that was issued last, or
that of the commit.
-/
def Action.milestone? (action : Action) (session next : Session) : Option Milestone :=
  match action with
  | .create path => some (.created path next.site.directory.clock.last)
  | .openCommit path kind =>
    if kind = .rebase then some (.rebasing path next.site.directory.clock.last) else none
  | .complete handle => session.commits[handle]?.bind Commit.milestone?
  | .purge => some .purged
  | _ => none

namespace Session

open Directory

/--
What fails is nothing for a ledger.
-/
def noted (session : Session) (action : Action) :
    Except StoreError Unit × Session → Option Milestone
  | (.ok (), next) => action.milestone? session next
  | (.error _, _) => none

def history (session : Session) : List Action → List Milestone
  | [] => []
  | action :: actions =>
    (session.noted action (session.step action)).toList ++ (session.step action).2.history actions

def ledger (session : Session) (actions : List Action) : Ledger :=
  (session.history actions).foldl Ledger.record {}

/-! ## Steps -/

def Notes (session : Session) (action : Action) (result : Except StoreError Unit × Session) : Prop :=
  Noted (session.noted action result) session.site result.2.site session.commits result.2.commits

section

variable {session : Session} {action : Action}

theorem notes_call {α : Type} (op : Operation α) (sound : session.Sound)
    (ok : ∀ a site, op.perform session.site = .ok a site →
      Noted (action.milestone? session { session with site }) session.site site session.commits
        session.commits) :
    session.Notes action (session.call op.perform) := by
  cases result : op.perform session.site with
  | ok a site =>
    rw [call_ok result]
    exact ok a site result
  | error e site =>
    rw [call_error result]
    exact noted_error sound.site result

theorem notes_opening (op : Operation Commit) (sound : session.Sound)
    (ok : ∀ commit site, op.perform session.site = .ok commit site →
      Noted (action.milestone? session (addCommit commit { session with site })) session.site site
        session.commits (session.commits ++ [commit])) :
    session.Notes action (session.call op.perform addCommit) := by
  cases result : op.perform session.site with
  | ok commit site =>
    rw [call_ok result]
    exact ok commit site result
  | error e site =>
    rw [call_error result]
    exact noted_error sound.site result

/--
Whoever only looks changes nothing that a ledger knows of.
-/
theorem notes_look {α : Type} (op : Operation α) (sound : session.Sound)
    (looks : Upholds (fun site site' => site.Rests site' []) op.perform)
    (nothing : ∀ next, action.milestone? session next = none) :
    session.Notes action (session.call op.perform) := by
  apply notes_call op sound
  intro a site ok
  rw [nothing]
  have rests := looks.of_ok ok
  exact noted_of_eq rests.index rests.openCommits

theorem notes_still {answer : Except StoreError Unit} {next : Session}
    (nothing : action.milestone? session next = none)
    (index : next.site.directory.index = session.site.directory.index)
    (openCommits : next.site.directory.openCommits = session.site.directory.openCommits)
    (same : session.commits.map Commit.bare = next.commits.map Commit.bare) :
    session.Notes action (answer, next) := by
  have none : session.noted action (answer, next) = none := by
    cases answer with
    | ok a => exact nothing
    | error e => rfl
  unfold Notes
  rw [none]
  apply noted_none
  · rw [index]
    exact .refl _
  · intro commit hc
    have mem := List.mem_map_of_mem (f := Commit.bare) hc
    rw [← same] at mem
    obtain ⟨before, hb, bare⟩ := List.mem_map.1 mem
    obtain ⟨branch, time, -⟩ := Commit.bare_eq_iff.1 bare
    refine ⟨before, hb, bare, ?_⟩
    unfold Commit.IsOpen Commit.branchPath
    rw [openCommits, branch, time]
    exact id

theorem notes_withHandle {handle : Nat} {act : Commit → Except StoreError Unit × Session}
    (notes : ∀ commit, session.commits[handle]? = some commit → session.Notes action (act commit)) :
    session.Notes action (session.withHandle handle act) := by
  unfold withHandle
  cases there : session.commits[handle]? with
  | some commit => exact notes commit there
  | none => exact noted_of_eq rfl rfl

theorem notes_complete {handle : Nat} {commit : Commit} (sound : session.Sound)
    (there : session.commits[handle]? = some commit) :
    session.Notes (.complete handle) (session.call (complete commit)) := by
  refine notes_call (.complete commit) sound ?_
  intro row site ok
  have same : (Action.complete handle).milestone? session { session with site } =
      commit.milestone? := by
    simp only [Action.milestone?, there, Option.bind_some]
  rw [same]
  exact noted_complete sound.site (List.mem_of_getElem? there) ok

theorem notes_reopen (sound : session.Sound) {cacheSize : Nat}
    (allowed : (Action.reopen cacheSize).Allowed session) :
    session.Notes (.reopen cacheSize) (session.reopen cacheSize) := by
  unfold reopen
  cases file : session.site.directory.file with
  | none => exact noted_of_eq rfl rfl
  | some name =>
    simp only
    cases loaded : load name cacheSize session.site.host with
    | error e host => exact noted_of_eq rfl rfl
    | ok directory host =>
      have read := eq_ofIndex_of_load_ok sound.site file allowed.1 allowed.2 loaded
      apply noted_none
      · rw [read]
        exact .refl _
      · simp

theorem notes_criteria {path : String} (sound : session.Sound) (hp : Path.Valid path) :
    session.Notes (.criteria path) (session.call (Criteria.ofBranch path)) := by
  obtain ⟨answer, history, found⟩ := exists_criteria sound hp
  rw [found]
  exact notes_still rfl rfl rfl rfl

theorem notes_retire {handle : Nat} {commit : Commit} (sound : session.Sound)
    (there : session.commits[handle]? = some commit) (field : String)
    (values : OrderedSet String) :
    session.Notes (.retire handle field values) (session.retire handle field values commit) := by
  have out := retire_outcome sound there field values
  generalize session.retire handle field values commit = result at out ⊢
  cases out with
  | nothing none => exact notes_still rfl rfl rfl rfl
  | uncovered path t history agrees missing => exact notes_still rfl rfl rfl rfl
  | retired history agrees some covered =>
    have same : (commit.hide (session.inheritedIds commit field values)).bare = commit.bare := rfl
    exact notes_still rfl rfl rfl (map_bare_set there same).symm

theorem notes_step (sound : session.Sound) (allowed : action.Allowed session) :
    session.Notes action (session.step action) := by
  have lasting := Site.lasting_rests
  cases action with
  | surroundings host => exact notes_still rfl rfl rfl rfl
  | subscribers events => exact notes_still rfl rfl rfl rfl
  | create path =>
    refine notes_call (.create path) sound ?_
    intro row site ok
    exact noted_create sound.site allowed ok
  | lock path =>
    refine notes_call (.lock path) sound ?_
    intro row site ok
    exact noted_lock sound.site allowed ok
  | unlock path =>
    refine notes_call (.unlock path) sound ?_
    intro u site ok
    exact noted_unlock sound.site allowed ok
  | forceUnlock path =>
    refine notes_call (.forceUnlock path) sound ?_
    intro u site ok
    exact noted_forceUnlock sound.site allowed ok
  | openCommit path kind =>
    refine notes_opening (.openCommit path kind) sound ?_
    intro commit site ok
    exact noted_openCommit sound.site allowed ok
  | openPromotion path source =>
    refine notes_opening (.openPromotion path source) sound ?_
    intro commit site ok
    exact noted_openPromotion sound.site allowed.1 allowed.2 ok
  | complete handle =>
    apply notes_withHandle
    intro commit there
    exact notes_complete sound there
  | purge =>
    refine notes_call .purge sound ?_
    intro n site ok
    exact noted_purge ok
  | save =>
    refine notes_call .save sound ?_
    intro u site ok
    exact noted_save ok
  | reopen cacheSize => exact notes_reopen sound allowed
  | latest path =>
    exact notes_look (.latestWithStanding? path) sound (upholds_latestWithStanding? lasting path)
      fun _ => rfl
  | rowAt path t =>
    exact notes_look (.rowAt path t) sound (upholds_rowAt lasting path t) fun _ => rfl
  | criteria path => exact notes_criteria sound allowed
  | hide handle ids =>
    apply notes_withHandle
    intro commit there
    have same : (commit.hide ids).bare = commit.bare := rfl
    rw [List.modify_eq_set_getElem?, there]
    exact notes_still rfl rfl rfl (map_bare_set there same).symm
  | retire handle field values =>
    apply notes_withHandle
    intro commit there
    exact notes_retire sound there field values
  | write handle docs =>
    apply notes_withHandle
    intro commit _
    exact notes_still rfl rfl rfl rfl
  | endVersions ids t => exact notes_still rfl rfl rfl rfl

/-! ## Runs -/

theorem accounts_run {ledger : Ledger} (sound : session.Sound)
    (accounts : ledger.Accounts session.site session.commits) {actions : List Action}
    (permitted : session.Permits actions) :
    ((session.history actions).foldl Ledger.record ledger).Accounts (session.run actions).site
      (session.run actions).commits := by
  induction actions generalizing session ledger with
  | nil => exact accounts
  | cons action actions ih =>
    obtain ⟨allowed, rest⟩ := permitted
    have step := (notes_step sound allowed).accounts ledger accounts
    have later := ih (stays_step sound allowed).sound step rest
    rw [history, List.foldl_append]
    cases milestone : session.noted action (session.step action) with
    | none =>
      rw [milestone] at later
      exact later
    | some milestone' =>
      rw [milestone] at later
      exact later

theorem answer_of_noted_purged {result : Except StoreError Unit × Session}
    (h : session.noted action result = some .purged) : (action, result.1) = (.purge, .ok ()) := by
  have completed : ∀ commit : Commit, commit.milestone? ≠ some .purged := by
    intro commit
    unfold Commit.milestone?
    split <;> simp
  obtain ⟨answer, next⟩ := result
  cases answer with
  | error e => cases h
  | ok u =>
    change action.milestone? session next = some .purged at h
    unfold Action.milestone? at h
    split at h
    · cases h
    · split at h <;> cases h
    · obtain ⟨commit, -, purged⟩ := Option.bind_eq_some_iff.1 h
      exact absurd purged (completed commit)
    · rfl
    · cases h

/--
Until everything is deleted, a row that is closed stays as it is.
-/
theorem keepsHistory_run (sound : session.Sound) {actions : List Action}
    (permitted : session.Permits actions)
    (unpurged : ∀ answer ∈ session.answers actions, answer ≠ (.purge, .ok ())) :
    session.site.directory.index.KeepsHistory (session.run actions).site.directory.index := by
  induction actions generalizing session with
  | nil => exact .refl _
  | cons action actions ih =>
    obtain ⟨allowed, rest⟩ := permitted
    rw [answers, List.forall_mem_cons] at unpurged
    have later := ih (stays_step sound allowed).sound rest unpurged.2
    refine ((notes_step sound allowed).keeps ?_).trans later
    intro purged
    exact unpurged.1 (answer_of_noted_purged purged)

theorem New.accounts (new : session.New) :
    ({} : Ledger).Accounts session.site session.commits := by
  obtain ⟨commits, -, file, cacheSize, directory, -⟩ := new
  constructor
  · intro path _
    rw [directory]
    rfl
  · simp [commits]
  · simp [commits]

end

/--
Whatever is done in a session that starts out empty, the base and the head of the current row of a
branch, whether it contains content, and what it hides are told by the history of its commits. A
commit that is completed closes one row and adds one on each branch that it touches, and what is
closed stays as it is until everything is deleted.
-/
theorem ledger_of_run {session : Session} {actions : List Action} (new : session.New)
    (permitted : session.Permits actions) :
    (∀ path, Path.Valid path →
      ((session.run actions).site.directory.index.current path).map (·.map BranchRow.outline) =
        .ok ((session.ledger actions).branches.get? path)) ∧
    (∀ handle commit, (session.run actions).commits[handle]? = some commit →
      ((session.run actions).step (.complete handle)).1 = .ok () →
      (session.run actions).site.directory.index.Closes
        ((session.run actions).step (.complete handle)).2.site.directory.index commit) ∧
    (∀ later, (session.run actions).Permits later →
      (∀ answer ∈ (session.run actions).answers later, answer ≠ (.purge, .ok ())) →
      (session.run actions).site.directory.index.KeepsHistory
        ((session.run actions).run later).site.directory.index) := by
  have sound := sound_run new.sound permitted
  refine ⟨?_, ?_, ?_⟩
  · intro path hp
    have accounts := accounts_run new.sound new.accounts permitted
    have known := accounts.describes path hp
    rw [sound.site.consistent.valid.current_eq, ledger, known]
    rfl
  · intro handle commit there done
    rw [step_complete there] at done ⊢
    cases answer : Directory.complete commit (session.run actions).site with
    | error e site =>
      rw [call_error answer] at done
      cases done
    | ok row site =>
      rw [call_ok answer]
      exact closes_complete sound.site (List.mem_of_getElem? there) answer
  · intro later permitted' unpurged
    exact keepsHistory_run sound permitted' unpurged

/--
The parent moves on while the rebase is open.
-/
def rebasedBehind : List Action :=
  [.create "M", .create "M/A", .openCommit "M" .content, .complete 0, .openCommit "M/A" .rebase,
    .openCommit "M" .content, .complete 2, .complete 1, .openPromotion "M" "M/A"]

theorem ledger_of_rebasedBehind :
    empty.New ∧ empty.Permits rebasedBehind ∧
      ((empty.run rebasedBehind).site.directory.index.current "M/A").map
        (·.map BranchRow.outline) = .ok (some { base := 3, head := 4 }) ∧
      ∃ commit, (empty.run rebasedBehind).commits[3]? = some commit ∧
        ((empty.run rebasedBehind).step (.complete 3)).1 = .ok () ∧
        (empty.run rebasedBehind).site.directory.index.Closes
          ((empty.run rebasedBehind).step (.complete 3)).2.site.directory.index commit := by
  have m : Path.Valid "M" := by decide
  have a : Path.Valid "M/A" := by decide
  have permitted : empty.Permits rebasedBehind :=
    ⟨m, a, m, trivial, a, m, trivial, trivial, ⟨m, a⟩, trivial⟩
  obtain ⟨rows, closes, -⟩ := ledger_of_run new_empty permitted
  have based : (empty.ledger rebasedBehind).branches.get? "M/A" =
      some { base := 3, head := 4 } := by decide +kernel
  have given : ((empty.run rebasedBehind).commits[3]?).isSome := by decide +kernel
  have done : ((empty.run rebasedBehind).step (.complete 3)).1 = .ok () := by decide +kernel
  obtain ⟨commit, there⟩ := Option.isSome_iff_exists.1 given
  refine ⟨new_empty, permitted, ?_, commit, ?_⟩
  · rw [rows "M/A" a, based]
  · exact ⟨there, done, closes 3 commit there done⟩

end Session

end TemporalStore
