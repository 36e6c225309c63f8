import TemporalStore.Proofs.Directory.Spelling
import TemporalStore.Proofs.Session.Commits
import TemporalStore.Proofs.Session.Paths

/-!
This module contains how far a commit for content is protected while it is open, whatever strings
are used for the path of its branch.
-/

namespace TemporalStore

namespace Session

open Directory

/--
What ends the protection of a commit that was opened under a string, each only if it succeeds: its
completion, the forced unlock of that string, another commit that is opened under it, the deletion
of all rows, and reading the directory back from its file.
-/
def Uncovers (path : String) (handle : Nat) : Action × Except StoreError Unit → Prop
  | (.complete other, .ok ()) => other = handle
  | (.forceUnlock other, .ok ()) | (.openCommit other _, .ok ()) => other = path
  | (.openPromotion other source, .ok ()) => other = path ∨ source = path
  | (.purge, .ok ()) | (.reopen _, .ok ()) => True
  | _ => False

/--
The protection of a commit that has just been opened under the string `path`: its row is locked by
whatever string the branch is named. The commit can be completed if that string is the path of the
row. Strings under which a commit is open do not unlock the branch, and those under which none is
open do. The string under which the commit was opened does not unlock the branch until something
ends its protection.
-/
structure Protected (session : Session) (path : String) (handle : Nat) (commit : Commit) :
    Prop where
  given : session.commits[handle]? = some commit
  locked : commit.branch.locked = true ∧ ∀ q, Path.flatten q = Path.flatten path →
    session.site.directory.index.current q = .ok (some commit.branch)
  completes : (session.step (.complete handle)).1 = .ok () ↔ path = commit.branchPath
  refuses : ∀ q t, session.site.directory.openCommits.get? q = some t →
    ∃ reason, session.step (.unlock q) = (.error (.commitState reason), session)
  releases : ∀ q, Path.flatten q = Path.flatten path →
    session.site.directory.openCommits.get? q = none → (session.step (.unlock q)).1 = .ok () ∧
      ∀ r, Path.flatten r = Path.flatten path →
        (session.step (.unlock q)).2.site.directory.index.current r =
          .ok (some { commit.branch with locked := false })
  lasts : ∀ later, session.Undisturbed later →
    (∀ answer ∈ session.answers later, ¬ Uncovers path handle answer) →
      ∃ reason, (session.run later).step (.unlock path) =
        (.error (.commitState reason), session.run later)

section

variable {session : Session} {named : String → Prop} {pinned : String → Timepoint → Prop}

theorem prefix_opening (act : DirectoryM Commit) :
    session.commits <+: (session.call act addCommit).2.commits := by
  unfold call
  cases act session.site with
  | ok commit site => exact List.prefix_append _ _
  | error e site => exact List.prefix_refl _

theorem bare_prefix_withHandle {handle : Nat} {act : Commit → Except StoreError Unit × Session}
    (acts : ∀ commit, session.commits[handle]? = some commit →
      session.commits.map Commit.bare <+: (act commit).2.commits.map Commit.bare) :
    session.commits.map Commit.bare <+:
      (session.withHandle handle act).2.commits.map Commit.bare := by
  unfold withHandle
  cases there : session.commits[handle]? with
  | some commit => exact acts commit there
  | none => exact List.prefix_refl _

/--
As long as the directory is not read back, handles keep their places.
-/
theorem bare_prefix_step {action : Action} (h : session.Orderly named pinned)
    (stays : ∀ cacheSize, action = .reopen cacheSize → (session.step action).1 ≠ .ok ()) :
    session.commits.map Commit.bare <+: (session.step action).2.commits.map Commit.bare := by
  have same {commits : List Commit}
      (bare : commits.map Commit.bare = session.commits.map Commit.bare) :
      session.commits.map Commit.bare <+: commits.map Commit.bare :=
    ⟨[], by rw [List.append_nil, bare]⟩
  cases action with
  | openCommit path kind => exact (prefix_opening _).map _
  | openPromotion path source => exact (prefix_opening _).map _
  | complete handle =>
    exact bare_prefix_withHandle fun commit _ => same (congrArg _ commits_call)
  | reopen cacheSize =>
    have failed := stays cacheSize rfl
    change (session.reopen cacheSize).1 ≠ _ at failed
    change _ <+: (session.reopen cacheSize).2.commits.map _
    unfold reopen at failed ⊢
    split at failed
    · exact same rfl
    · split at failed
      · exact absurd rfl failed
      · exact same rfl
  | hide handle ids =>
    apply bare_prefix_withHandle
    intro commit there
    rw [List.modify_eq_set_getElem?, there]
    exact same (map_bare_set there rfl)
  | retire handle field values =>
    exact bare_prefix_withHandle fun commit there => same (bare_retire h there field values)
  | write handle docs => exact bare_prefix_withHandle fun commit _ => same rfl
  | surroundings host => exact same rfl
  | subscribers events => exact same rfl
  | endVersions ids t => exact same rfl
  | _ => exact same (congrArg _ commits_call)

/-! ## While nothing ends the protection -/

variable {path : String} {handle : Nat} {commit : Commit} {later : List Action}

/--
The commit that is open under `path` since `t` is pinned.
-/
def Pin (path : String) (t : Timepoint) (q : String) (u : Timepoint) : Prop := q = path ∧ u = t

theorem spares_of_not_uncovers {action : Action}
    (h : session.Orderly (fun _ => True) (Pin path commit.timepoint))
    (given : session.commits[handle]? = some commit)
    (not : ¬ Uncovers path handle (action, (session.step action).1))
    (done : (session.step action).1 = .ok ()) :
    action.Spares session (fun _ => True) (Pin path commit.timepoint) := by
  rw [done] at not
  cases action with
  | forceUnlock other => exact fun t pin => not pin.1
  | openCommit other kind => exact fun t pin => not pin.1
  | openPromotion other source =>
    exact ⟨fun t pin => not (.inl pin.1), fun t pin => not (.inr pin.1)⟩
  | purge => exact (not trivial).elim
  | reopen cacheSize => exact (not trivial).elim
  | complete other =>
    intro commit' there
    refine ⟨fun _ _ => trivial, ?_⟩
    rintro q ⟨-, same⟩
    exact not ((handle_eq_iff_of_ordered h.ordered there given).1 same)
  | _ => trivial

theorem orderly_later (h : session.Orderly (fun _ => True) (Pin path commit.timepoint))
    (given : session.commits[handle]? = some commit) (undisturbed : session.Undisturbed later)
    (covered : ∀ answer ∈ session.answers later, ¬ Uncovers path handle answer) :
    (session.run later).Orderly (fun _ => True) (Pin path commit.timepoint) := by
  induction later generalizing session commit with
  | nil => exact h
  | cons action later ih =>
    obtain ⟨allowed, rest⟩ := undisturbed
    rw [answers, List.forall_mem_cons] at covered
    have next := orderly_step h (fun _ _ => trivial) allowed
      (spares_of_not_uncovers h given covered.1)
    have stays : ∀ cacheSize, action = .reopen cacheSize → (session.step action).1 ≠ .ok () := by
      rintro cacheSize rfl done
      rw [done] at covered
      exact covered.1 trivial
    obtain ⟨commit', given', same⟩ :=
      exists_handle_of_prefix (bare_prefix_step h stays) given
    obtain ⟨-, time, -⟩ := Commit.bare_eq_iff.1 same
    rw [← time] at next ⊢
    exact ih next given' rest covered.2

end

/-! ## Opening a commit -/

section

variable {start session : Session} {actions : List Action} {path : String} {commit : Commit}
  {site : Site} {named : String → Prop} {pinned : String → Timepoint → Prop}

theorem call_ok_iff {α : Type} {act : DirectoryM α} :
    (session.call act).1 = .ok () ↔ ∃ a site, act session.site = .ok a site := by
  unfold call
  cases act session.site with
  | ok a site => simp
  | error e site => simp

/--
What was found out when the branch was locked is there to be found again, and the file that was
written then can be written again.
-/
theorem released_of_opened (opened : OpenedAs path session.site commit site)
    (h : session.site.Orderly named pinned session.site.directory.clock.last)
    (next : site.directory.index.Filed named) {q : String}
    (same : Path.flatten q = Path.flatten path)
    (free : site.directory.openCommits.get? q = none) :
    ∃ after, unlock q site = .ok () after ∧ ∀ r, Path.flatten r = Path.flatten path →
      after.directory.index.current r = .ok (some { commit.branch with locked := false }) := by
  have there := opened.current h same
  obtain ⟨after, ok, index⟩ := unlock_of_current there free opened.writable
  refine ⟨after, ok, ?_⟩
  intro r same'
  rw [index]
  exact next.current_upsert there rfl rfl (RowIndex.mem_of_current there).2
    (same'.trans same.symm)

theorem protected_of_opened (h : session.Orderly named pinned)
    (done : (session.step (.openCommit path .content)).1 = .ok ()) :
    ∃ commit, (session.step (.openCommit path .content)).2.Protected path session.commits.length
        commit ∧
      ∀ q, (session.step (.openCommit path .content)).2.site.directory.openCommits.get? q = none ↔
        q ≠ path ∧ session.site.directory.openCommits.get? q = none := by
  obtain ⟨commit, site, result⟩ : ∃ commit site,
      openCommit path .content session.site = .ok commit site := by
    cases result : openCommit path .content session.site with
    | ok commit site => exact ⟨commit, site, rfl⟩
    | error e site =>
      change (session.call (openCommit path .content) addCommit).1 = _ at done
      simp [call_error result] at done
  have opened := openedAs_of_ok result
  have stepped : session.step (.openCommit path .content) =
      (.ok (), addCommit commit { session with site }) := call_ok result
  have any : session.Orderly (fun _ => True) fun _ _ => False :=
    (h.mono fun _ _ => trivial).repin fun _ _ pin => pin.elim
  have next : (session.step (.openCommit path .content)).2.Orderly (fun _ => True)
      fun _ _ => False :=
    orderly_step any (fun _ _ => trivial) trivial fun _ _ pin => pin
  rw [stepped] at next ⊢
  simp only at next ⊢
  generalize opening : addCommit commit { session with site } = session' at next
  have here : session'.site = site := by
    rw [← opening]
    rfl
  have given : session'.commits[session.commits.length]? = some commit := by
    rw [← opening]
    exact List.getElem?_concat_length
  refine ⟨commit, ?_, ?_⟩
  · constructor
    · exact given
    · rw [here]
      obtain ⟨row, -, locked⟩ := opened.branch
      exact ⟨by rw [locked], fun q same => opened.current h.site same⟩
    · rw [step_complete given, call_ok_iff, here]
      exact opened.completes_iff h.site
    · intro q t entry
      exact ⟨_, step_unlock_of_entry entry⟩
    · intro q same free
      have filed := next.site.filed
      rw [here] at free filed
      obtain ⟨after, ok, rows⟩ := released_of_opened opened any.site filed same free
      rw [← here] at ok
      have unlocked : session'.step (.unlock q) = (.ok (), { session' with site := after }) := by
        change session'.call (unlock q) = _
        exact call_ok ok
      rw [unlocked]
      exact ⟨rfl, rows⟩
    · intro later undisturbed covered
      have pinned : session'.Orderly (fun _ => True) (Pin path commit.timepoint) := by
        apply next.repin
        rintro _ _ ⟨rfl, rfl⟩ q
        rw [here]
        exact opened.get?_eq_iff h.site
      have entry := ((orderly_later pinned given undisturbed covered).site.pins path _ ⟨rfl, rfl⟩
        path).2 rfl
      exact ⟨_, step_unlock_of_entry entry⟩
  · intro q
    rw [here]
    exact opened.get?_eq_none_iff

/--
Whatever strings are used for paths in a session that starts out empty, a commit for content that
is opened can be completed if and only if it was opened under the path of the row, and exactly the
strings under which a commit is open do not unlock its branch. The string under which the commit
was opened is one of them until the protection ends.
-/
theorem protection_of_run (new : start.New) (undisturbed : start.Undisturbed actions)
    (done : ((start.run actions).step (.openCommit path .content)).1 = .ok ()) :
    ∃ commit, ((start.run actions).step (.openCommit path .content)).2.Protected path
        (start.run actions).commits.length commit ∧
      ∀ q, ((start.run actions).step
          (.openCommit path .content)).2.site.directory.openCommits.get? q = none ↔
        q ≠ path ∧ (start.run actions).site.directory.openCommits.get? q = none :=
  protected_of_opened (orderly_run new undisturbed) done

/--
A branch below another one, which has more than one name.
-/
def branchBelow : List Action := [.create "M", .create "M/A"]

theorem protection_of_branchBelow :
    empty.New ∧ empty.Undisturbed branchBelow ∧
      ((empty.run branchBelow).step (.openCommit "M_A" .content)).1 = .ok () ∧
      (((empty.run branchBelow).step (.openCommit "M_A" .content)).2.step (.complete 0)).1 ≠
        .ok () ∧
      (((empty.run branchBelow).step (.openCommit "M_A" .content)).2.step (.unlock "M/A")).1 =
        .ok () := by
  have undisturbed : empty.Undisturbed branchBelow := ⟨trivial, trivial, trivial⟩
  have ran : ((empty.run branchBelow).step (.openCommit "M_A" .content)).1 = .ok () ∧
      (empty.run branchBelow).commits.length = 0 ∧
      (((empty.run branchBelow).step (.openCommit "M_A" .content)).2.commits[0]?).map
        Commit.branchPath = some "M/A" ∧
      (empty.run branchBelow).site.directory.openCommits.get? "M/A" = none := by decide +kernel
  obtain ⟨done, first, branch, closed⟩ := ran
  have flat : Path.flatten "M/A" = "M_A" ∧ Path.flatten "M_A" = "M_A" := by decide +kernel
  have same : Path.flatten "M/A" = Path.flatten "M_A" := flat.1.trans flat.2.symm
  obtain ⟨commit, protection, free⟩ := protection_of_run new_empty undisturbed done
  rw [first] at protection
  refine ⟨new_empty, undisturbed, done, ?_, ?_⟩
  · rw [protection.given, Option.map_some, Option.some.injEq] at branch
    rw [Ne, protection.completes, branch]
    decide
  · exact (protection.releases "M/A" same ((free "M/A").2 ⟨by decide, closed⟩)).1

/--
The commit that was opened cannot be completed, and its branch can be unlocked, although nobody has
completed the commit or given it up.
-/
theorem unprotected_under_flat_path :
    empty.New ∧ ((empty.run branchBelow).step (.openCommit "M_A" .content)).1 = .ok () ∧
      (((empty.run branchBelow).step (.openCommit "M_A" .content)).2.step (.complete 0)).1 =
        .error (.commitState "Commit 3 on branch M/A is not open") ∧
      (((empty.run branchBelow).step (.openCommit "M_A" .content)).2.step (.unlock "M/A")).1 =
        .ok () ∧
      ((((empty.run branchBelow).step (.openCommit "M_A" .content)).2.step
        (.unlock "M/A")).2.site.directory.index.current "M/A").map (·.map BranchRow.locked) =
          .ok (some false) := ⟨new_empty, by decide +kernel⟩

end

end Session

end TemporalStore
