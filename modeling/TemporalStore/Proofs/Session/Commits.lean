import TemporalStore.Proofs.Directory.Open
import TemporalStore.Proofs.Session.Sound

/-!
This module contains the life of a commit in a session that is kept in memory: from when it is
opened until it is completed or given up, whatever else is done in between.
-/

namespace TemporalStore.Session

open Directory

/--
What ends a commit: its completion, the forced unlock of a branch that it holds, and the deletion of
all rows, each only if it succeeds.
-/
def Ends (handle : Nat) (commit : Commit) : Action × Except StoreError Unit → Prop
  | (.complete other, .ok ()) => other = handle
  | (.forceUnlock path, .ok ()) => commit.Touches path
  | (.purge, .ok ()) => True
  | _ => False

theorem not_ends_forceUnlock {handle : Nat} {commit : Commit} {path : String}
    (h : ¬ commit.Touches path) (answer : Except StoreError Unit) :
    ¬ Ends handle commit (.forceUnlock path, answer) := by
  cases answer with
  | ok a => exact h
  | error e => exact id

/--
What an action does to the commits: those that it does not end stay as they are, and one that it
opens is open.
-/
structure Follows (session : Session) (action : Action)
    (result : Except StoreError Unit × Session) : Prop where
  file : result.2.site.directory.file = session.site.directory.file
  handles : session.commits.map Commit.bare <+: result.2.commits.map Commit.bare
  rest : ∀ handle commit, session.commits[handle]? = some commit →
    (commit.IsOpen result.2.site.directory.openCommits ↔
      commit.IsOpen session.site.directory.openCommits ∧ ¬ Ends handle commit (action, result.1))
  given : ∀ commit, result.2.commits[session.commits.length]? = some commit →
    commit.IsOpen result.2.site.directory.openCommits

section

variable {session next : Session} {action : Action} {answer : Except StoreError Unit}

theorem follows_of_quiet (alike : session.site.Alike next.site)
    (same : session.commits.map Commit.bare = next.commits.map Commit.bare)
    (not : ∀ handle commit, session.commits[handle]? = some commit →
      ¬ Ends handle commit (action, answer)) : Follows session action (answer, next) where
  file := alike.file
  handles := ⟨[], by rw [List.append_nil, same]⟩
  rest := by
    intro handle commit there
    simp only [alike.openCommits, not handle commit there, not_false_eq_true, and_true]
  given := by
    intro commit there
    have size := congrArg List.length same
    rw [List.length_map, List.length_map] at size
    rw [size, List.getElem?_length] at there
    simp at there

theorem follows_call {α : Type} {act : DirectoryM α} (quiet : Quiet session.site (act session.site))
    (not : ∀ handle commit answer, ¬ Ends handle commit (action, answer)) :
    Follows session action (session.call act) := by
  unfold call
  generalize act session.site = result at quiet ⊢
  cases quiet with
  | ok a site' alike => exact follows_of_quiet alike rfl fun handle commit _ => not handle commit _
  | error e site' alike =>
    exact follows_of_quiet alike rfl fun handle commit _ => not handle commit _

theorem follows_opening {act : DirectoryM Commit}
    (opening : Opening session.commits session.site (act session.site))
    (not : ∀ handle commit answer, ¬ Ends handle commit (action, answer)) :
    Follows session action (session.call act addCommit) := by
  unfold call
  generalize act session.site = result at opening ⊢
  cases opening with
  | ok commit site' file opened rest =>
    constructor
    · exact file
    · simp [addCommit]
    · intro handle other there
      have mem := List.mem_of_getElem? there
      simp only [not, not_false_eq_true, and_true]
      exact rest other mem
    · intro other there
      simp only [addCommit, List.getElem?_concat_length, Option.some.injEq] at there
      rw [← there]
      exact opened
  | error e site' alike =>
    exact follows_of_quiet alike rfl fun handle commit _ => not handle commit _

theorem follows_forceUnlock {path : String} (sound : session.Sound) (hp : Path.Valid path)
    (memory : session.site.directory.file = none) :
    Follows session (.forceUnlock path) (session.call (forceUnlock path)) := by
  have out := forgetful_forceUnlock sound.site hp memory
  unfold call
  generalize forceUnlock path session.site = result at out ⊢
  cases out with
  | ok site' file rest =>
    constructor
    · exact file
    · exact List.prefix_refl _
    · intro handle commit there
      exact rest commit (List.mem_of_getElem? there)
    · intro commit there
      simp at there
  | error e site' alike => exact follows_of_quiet alike rfl fun handle commit _ => id

theorem follows_purge (session : Session) :
    Follows session .purge (session.call purge) := by
  have out := purge_outcome session.site
  unfold call
  generalize purge session.site = result at out ⊢
  cases out with
  | refused e host kept => exact follows_of_quiet ⟨rfl, rfl⟩ rfl fun handle commit _ => id
  | done host kept =>
    constructor
    · rfl
    · exact List.prefix_refl _
    · intro handle commit there
      change (∅ : OrderedMap String Timepoint).get? commit.branchPath = _ ↔ _ ∧ ¬ True
      simp
    · intro commit there
      simp at there

theorem step_unlock_of_entry {path : String} {t : Timepoint}
    (entry : session.site.directory.openCommits.get? path = some t) :
    session.step (.unlock path) =
      (.error (.commitState s!"Branch {path} has commit {t} open"), session) := by
  change session.call (Directory.unlock path) = _
  exact call_error (unlock_of_open entry)

/--
Handles are told apart by their timepoints.
-/
theorem handle_eq_iff_of_ordered
    (ordered : (session.commits.map Commit.timepoint).Pairwise (· < ·))
    {handle other : Nat} {commit commit' : Commit}
    (there : session.commits[handle]? = some commit)
    (there' : session.commits[other]? = some commit') :
    commit.timepoint = commit'.timepoint ↔ handle = other := by
  have distinct : (session.commits.map Commit.timepoint).Nodup := by
    apply ordered.imp
    intro t u before
    exact Int.ne_of_lt before
  obtain ⟨lt, eq⟩ := List.getElem?_eq_some_iff.1 there
  obtain ⟨lt', eq'⟩ := List.getElem?_eq_some_iff.1 there'
  have lift : handle < (session.commits.map Commit.timepoint).length := by simpa using lt
  have lift' : other < (session.commits.map Commit.timepoint).length := by simpa using lt'
  have same := @List.Nodup.getElem_inj_iff _ _ distinct handle lift other lift'
  rw [List.getElem_map, List.getElem_map, eq, eq'] at same
  exact same

theorem handle_eq_iff (sound : session.Sound) {handle other : Nat} {commit commit' : Commit}
    (there : session.commits[handle]? = some commit)
    (there' : session.commits[other]? = some commit') :
    commit.timepoint = commit'.timepoint ↔ handle = other :=
  handle_eq_iff_of_ordered sound.site.consistent.ordered there there'

theorem follows_complete {handle : Nat} {commit : Commit} (sound : session.Sound)
    (there : session.commits[handle]? = some commit)
    (memory : session.site.directory.file = none) :
    Follows session (.complete handle) (session.call (complete commit)) := by
  have out := completing_complete sound.site (List.mem_of_getElem? there) memory
  unfold call
  generalize complete commit session.site = result at out ⊢
  cases out with
  | ok row site' open' sourced file rest =>
    constructor
    · exact file
    · exact List.prefix_refl _
    · intro other commit' there'
      have distinct := handle_eq_iff sound there there'
      change _ ↔ _ ∧ ¬ handle = other
      rw [rest commit' (List.mem_of_getElem? there'), ← distinct, @eq_comm _ commit.timepoint]
    · intro commit' there'
      simp at there'
  | refused reason not =>
    exact follows_of_quiet ⟨rfl, rfl⟩ rfl fun handle commit _ => id

theorem follows_withHandle {handle : Nat} {act : Commit → Except StoreError Unit × Session}
    (not : ∀ handle commit e, ¬ Ends handle commit (action, .error e))
    (follows : ∀ commit, session.commits[handle]? = some commit →
      Follows session action (act commit)) :
    Follows session action (session.withHandle handle act) := by
  unfold withHandle
  cases there : session.commits[handle]? with
  | some commit => exact follows commit there
  | none => exact follows_of_quiet ⟨rfl, rfl⟩ rfl fun handle commit _ => not handle commit _

theorem follows_retire {handle : Nat} {commit : Commit} (sound : session.Sound)
    (there : session.commits[handle]? = some commit) (field : String)
    (values : OrderedSet String) :
    Follows session (.retire handle field values)
      (session.retire handle field values commit) := by
  have out := retire_outcome sound there field values
  generalize session.retire handle field values commit = result at out ⊢
  cases out with
  | nothing none => exact follows_of_quiet ⟨rfl, rfl⟩ rfl fun handle commit _ => id
  | uncovered path t history agrees missing =>
    exact follows_of_quiet ⟨rfl, rfl⟩ rfl fun handle commit _ => id
  | retired history agrees some covered =>
    have same : (commit.hide (session.inheritedIds commit field values)).bare = commit.bare := rfl
    exact follows_of_quiet ⟨rfl, rfl⟩ (map_bare_set there same).symm fun handle commit _ => id

theorem follows_step (sound : session.Sound) (allowed : action.Allowed session)
    (memory : session.site.directory.file = none) :
    Follows session action (session.step action) := by
  have valid := sound.site.consistent.valid
  have agrees := sound.site.agrees
  cases action with
  | surroundings host => exact follows_of_quiet ⟨rfl, rfl⟩ rfl fun handle commit _ => id
  | subscribers events => exact follows_of_quiet ⟨rfl, rfl⟩ rfl fun handle commit _ => id
  | create path => exact follows_call (quiet_create valid allowed) fun _ _ _ => id
  | lock path => exact follows_call (quiet_of_lock (lock_outcome valid allowed)) fun _ _ _ => id
  | unlock path => exact follows_call (quiet_unlock valid allowed) fun _ _ _ => id
  | forceUnlock path => exact follows_forceUnlock sound allowed memory
  | openCommit path kind =>
    exact follows_opening (opening_openCommit sound.site allowed kind) fun _ _ _ => id
  | openPromotion path source =>
    exact follows_opening (opening_openPromotion sound.site allowed.1 allowed.2)
      fun _ _ _ => id
  | complete handle =>
    apply follows_withHandle (fun _ _ _ => id)
    intro commit there
    exact follows_complete sound there memory
  | purge => exact follows_purge session
  | save => exact follows_call (quiet_save session.site) fun _ _ _ => id
  | reopen cacheSize =>
    have nothing : session.step (.reopen cacheSize) = (.ok (), session) := by
      change session.reopen cacheSize = _
      unfold reopen
      rw [memory]
    rw [nothing]
    exact follows_of_quiet ⟨rfl, rfl⟩ rfl fun handle commit _ => id
  | latest path => exact follows_call (quiet_latest valid allowed) fun _ _ _ => id
  | rowAt path t => exact follows_call (quiet_rowAt valid agrees path t) fun _ _ _ => id
  | criteria path => exact follows_call (quiet_criteria valid agrees allowed) fun _ _ _ => id
  | hide handle ids =>
    apply follows_withHandle (fun _ _ _ => id)
    intro commit there
    have same : (commit.hide ids).bare = commit.bare := rfl
    rw [List.modify_eq_set_getElem?, there]
    exact follows_of_quiet ⟨rfl, rfl⟩ (map_bare_set there same).symm fun handle commit _ => id
  | retire handle field values =>
    apply follows_withHandle (fun _ _ _ => id)
    intro commit there
    exact follows_retire sound there field values
  | write handle docs =>
    apply follows_withHandle (fun _ _ _ => id)
    intro commit _
    exact follows_of_quiet ⟨rfl, rfl⟩ rfl fun handle commit _ => id
  | endVersions ids t => exact follows_of_quiet ⟨rfl, rfl⟩ rfl fun handle commit _ => id

end

/-! ## Runs -/

theorem isOpen_iff_of_bare {commit commit' : Commit} {openCommits : OrderedMap String Timepoint}
    (same : commit'.bare = commit.bare) :
    commit'.IsOpen openCommits ↔ commit.IsOpen openCommits := by
  obtain ⟨branch, time, -⟩ := Commit.bare_eq_iff.1 same
  unfold Commit.IsOpen Commit.branchPath
  rw [branch, time]

theorem ends_iff_of_bare {handle : Nat} {commit commit' : Commit}
    {answer : Action × Except StoreError Unit} (same : commit'.bare = commit.bare) :
    Ends handle commit' answer ↔ Ends handle commit answer := by
  obtain ⟨branch, -, -, source⟩ := Commit.bare_eq_iff.1 same
  unfold Ends Commit.Touches Commit.branchPath
  rw [branch, source]

theorem exists_handle_of_prefix {session next : Session} {handle : Nat} {commit : Commit}
    (handles : session.commits.map Commit.bare <+: next.commits.map Commit.bare)
    (there : session.commits[handle]? = some commit) :
    ∃ commit', next.commits[handle]? = some commit' ∧ commit'.bare = commit.bare := by
  have bare : (session.commits.map Commit.bare)[handle]? = some commit.bare := by
    rw [List.getElem?_map, there]
    rfl
  obtain ⟨lt, -⟩ := List.getElem?_eq_some_iff.1 bare
  have bare' := (List.prefix_iff_getElem?.1 handles handle lt).trans
    (List.getElem?_eq_getElem lt).symm |>.trans bare
  rw [List.getElem?_map, Option.map_eq_some_iff] at bare'
  exact bare'

theorem file_run {session : Session} (sound : session.Sound)
    (memory : session.site.directory.file = none) {actions : List Action}
    (permitted : session.Permits actions) : (session.run actions).site.directory.file = none := by
  induction actions generalizing session with
  | nil => exact memory
  | cons action actions ih =>
    obtain ⟨allowed, rest⟩ := permitted
    have follows := follows_step sound allowed memory
    exact ih (stays_step sound allowed).sound (follows.file.trans memory) rest

/--
After any run, a commit that was open is open still, unless something in the run has ended it.
-/
theorem isOpen_run {session : Session} {handle : Nat} {commit : Commit} (sound : session.Sound)
    (memory : session.site.directory.file = none)
    (there : session.commits[handle]? = some commit) {actions : List Action}
    (permitted : session.Permits actions) :
    ∃ commit', (session.run actions).commits[handle]? = some commit' ∧
      commit'.bare = commit.bare ∧
      (commit'.IsOpen (session.run actions).site.directory.openCommits ↔
        commit.IsOpen session.site.directory.openCommits ∧
          ∀ answer ∈ session.answers actions, ¬ Ends handle commit answer) := by
  induction actions generalizing session commit with
  | nil => exact ⟨commit, there, rfl, by simp [run, answers]⟩
  | cons action actions ih =>
    obtain ⟨allowed, rest⟩ := permitted
    have follows := follows_step sound allowed memory
    -- the handle may hide more than before, which does not matter for whether it is open
    obtain ⟨commit', there', same⟩ := exists_handle_of_prefix follows.handles there
    obtain ⟨commit'', there'', same', open'⟩ :=
      ih (stays_step sound allowed).sound (follows.file.trans memory) there' rest
    refine ⟨commit'', there'', same'.trans same, open'.trans ?_⟩
    rw [isOpen_iff_of_bare same, follows.rest handle commit there, and_assoc]
    simp only [ends_iff_of_bare same, answers, List.forall_mem_cons]

theorem complete_of_isOpen {session : Session} {handle : Nat} {commit : Commit}
    (sound : session.Sound) (memory : session.site.directory.file = none)
    (there : session.commits[handle]? = some commit) :
    ((session.step (.complete handle)).1 = .ok () ↔
        commit.IsOpen session.site.directory.openCommits ∧
          ¬ (commit.kind = .promotion ∧ commit.source = none)) ∧
      ((session.step (.complete handle)).1 ≠ .ok () → ∃ reason,
        session.step (.complete handle) = (.error (.commitState reason), session)) := by
  have out := completing_complete sound.site (List.mem_of_getElem? there) memory
  rw [step_complete there]
  unfold call
  generalize Directory.complete commit session.site = result at out ⊢
  cases out with
  | ok row site' open' sourced file rest => exact ⟨by simp [open', sourced], by simp⟩
  | refused reason not =>
    refine ⟨?_, fun _ => ⟨reason, rfl⟩⟩
    simp only [reduceCtorEq, not]

/--
In memory, a commit can be completed as long as nothing has ended it, whatever else has happened on
the same branch or on others. A promotion also needs its source. A commit that cannot be completed
is refused, and nothing changes.
-/
theorem complete_ok_iff {session : Session} {before later : List Action} {action : Action}
    {handle : Nat} {commit : Commit} (new : session.New)
    (memory : session.site.directory.file = none)
    (permitted : session.Permits (before ++ action :: later))
    (next : handle = (session.run before).commits.length)
    (given : (session.run (before ++ [action])).commits[handle]? = some commit) :
    (((session.run (before ++ action :: later)).step (.complete handle)).1 = .ok () ↔
        (∀ answer ∈ (session.run (before ++ [action])).answers later,
          ¬ Ends handle commit answer) ∧
        ¬ (commit.kind = .promotion ∧ commit.source = none)) ∧
      (((session.run (before ++ action :: later)).step (.complete handle)).1 ≠ .ok () →
        ∃ reason, (session.run (before ++ action :: later)).step (.complete handle) =
          (.error (.commitState reason), session.run (before ++ action :: later))) := by
  obtain ⟨permitted, allowed, permitted'⟩ := (permits_append _ _ _).1 permitted
  have sound := sound_run new.sound permitted
  have memory' := file_run new.sound memory permitted
  have follows := follows_step sound allowed memory'
  have sound' := (stays_step sound allowed).sound
  have memory'' := follows.file.trans memory'
  rw [run_append] at given ⊢
  rw [run_append]
  have opened := follows.given commit (next ▸ given)
  obtain ⟨commit', there, same, open'⟩ := isOpen_run sound' memory'' given permitted'
  obtain ⟨-, -, kind, source⟩ := Commit.bare_eq_iff.1 same
  have completes := complete_of_isOpen (sound_run sound' permitted')
    (file_run sound' memory'' permitted') there
  rw [open', kind, source] at completes
  exact ⟨completes.1.trans (and_congr_left' (and_iff_right opened)), completes.2⟩

def promotionOpen : List Action :=
  [.create "M", .create "M/A", .create "N", .openPromotion "M" "M/A"]

/--
A promotion is given up when its source is unlocked by force; a commit elsewhere is not.
-/
theorem complete_elsewhere_of_forceUnlock :
    ((empty.run (promotionOpen ++ .openCommit "N" .content :: [.forceUnlock "M/A"])).step
        (.complete 0)).1 ≠ .ok () ∧
      ((empty.run (promotionOpen ++ .openCommit "N" .content :: [.forceUnlock "M/A"])).step
        (.complete 1)).1 = .ok () := by
  have m : Path.Valid "M" := by decide
  have a : Path.Valid "M/A" := by decide
  have n : Path.Valid "N" := by decide
  have permitted : empty.Permits
      (promotionOpen ++ .openCommit "N" .content :: [.forceUnlock "M/A"]) :=
    ⟨m, a, n, ⟨m, a⟩, n, a, trivial⟩
  have opened : ((empty.run (promotionOpen ++ [.openCommit "N" .content])).commits[1]?).map
      (fun commit => (commit.branchPath, commit.kind, commit.source)) =
        some ("N", .content, none) := by decide +kernel
  obtain ⟨commit, given, parts⟩ := Option.map_eq_some_iff.1 opened
  simp only [Prod.mk.injEq] at parts
  refine ⟨by decide +kernel, ?_⟩
  apply (complete_ok_iff new_empty rfl permitted (by decide +kernel) given).1.2
  refine ⟨?_, by simp [parts]⟩
  intro answer mem
  rw [answers, answers, List.mem_singleton] at mem
  rw [mem]
  apply not_ends_forceUnlock
  simp [Commit.Touches, parts]

end TemporalStore.Session
