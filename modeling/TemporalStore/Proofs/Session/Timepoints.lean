import TemporalStore.Proofs.Directory.Orderly
import TemporalStore.Proofs.Session.Growth
import TemporalStore.Proofs.Session.Reopen

/-!
This module contains when the timepoint of a commit is issued a second time. The timepoint is stored
when the commit is completed, so a directory that is closed before then does not know of it when it
is opened again.
-/

namespace TemporalStore

/--
Every timepoint up to which rows were committed, and at which they have ended, is before `t`.
-/
def RowIndex.Precedes (index : RowIndex) (t : Timepoint) : Prop :=
  ∀ row ∈ index.allRows, row.head < t ∧ ∀ e, row.ended = some e → e < t

/--
The clock never goes back.
-/
def Site.Onward (site site' : Site) : Prop :=
  site.directory.clock.last ≤ site'.directory.clock.last

theorem Site.onward_always : Lasting.Always Site.Onward where
  refl _ := Int.le_refl _
  trans h h' := Int.le_trans h h'
  ticked site := Int.le_of_lt (Directory.last_lt_ticked site)
  reported _ _ := Int.le_refl _
  looked _ _ := Int.le_refl _
  announced _ _ := Int.le_refl _
  withOpenCommits _ _ := Int.le_refl _
  withIndex _ _ := Int.le_refl _
  persisted _ _ := Int.le_refl _

namespace Directory

theorem clock_ofIndex_lt_iff {file : Option String} {index : RowIndex} {cacheSize : Nat}
    {t : Timepoint} :
    (ofIndex file index cacheSize).clock.last < t ↔ 0 < t ∧ index.Precedes t := by
  have listed : (∀ u ∈ index.allRows.flatMap fun row => row.head :: row.ended.toList, u < t) ↔
      index.Precedes t := by
    simp only [List.mem_flatMap, List.mem_cons, Option.mem_toList]
    constructor
    · intro before row mem
      exact ⟨before _ ⟨row, mem, .inl rfl⟩, fun e ended => before e ⟨row, mem, .inr ended⟩⟩
    · rintro precedes u ⟨row, mem, rfl | ended⟩
      · exact (precedes row mem).1
      · exact (precedes row mem).2 u ended
  unfold ofIndex
  rw [← listed]
  cases latest : index.latestTimepoint with
  | none =>
    unfold RowIndex.latestTimepoint at latest
    rw [List.max?_eq_none_iff] at latest
    simp only [latest, Option.elim_none, List.not_mem_nil, false_implies, implies_true, and_true]
  | some u =>
    obtain ⟨mem, le⟩ := List.max?_eq_some_iff.1 latest
    change max 0 u < t ↔ _
    constructor
    · intro lt
      refine ⟨by lia, ?_⟩
      intro v hv
      have := le v hv
      lia
    · rintro ⟨positive, before⟩
      have := before u mem
      lia

theorem current_of_toComplete_ok {site site' : Site} {commit : Commit}
    {made : BranchRow × List BranchRow} (ok : toComplete commit site = .ok made site') :
    ∃ row, site.directory.index.current commit.branchPath = .ok (some row) ∧
      row.start = commit.branch.start := by
  unfold toComplete at ok
  rw [get_bind] at ok
  split at ok
  · split at ok
    · cases ok
    · obtain ⟨row, middle, looked, -⟩ := exists_of_bind_ok ok
      obtain ⟨there, start, -⟩ := current_of_heldRow_ok looked
      exact ⟨row, there, start⟩
  · cases ok

theorem CompleteOutcome.exists_ok {site : Site} {commit : Commit} {index : RowIndex}
    {row : BranchRow} {result : EStateM.Result StoreError Site BranchRow}
    (out : CompleteOutcome commit site index row result) (writable : site.Writable) :
    ∃ row site', result = .ok row site' := by
  cases out with
  | refused e host kept =>
    obtain ⟨host', kept'⟩ := (Site.persisted_ok_iff site index).2 writable
    rw [kept] at kept'
    cases kept'
  | completed host kept => exact ⟨_, _, rfl⟩

end Directory

namespace Session

open Directory

section

variable {session : Session} {action : Action} {commit : Commit} {t : Timepoint}

/-! ## The clock -/

theorem onward_call {α : Type} {op : Operation α} {keep : α → Session → Session}
    (same : ∀ a s, (keep a s).site = s.site) :
    session.site.Onward (session.call op.perform keep).2.site := by
  have onward := upholds_perform Site.onward_always op session.site
  unfold call
  generalize op.perform session.site = result at onward ⊢
  cases result with
  | ok a site =>
    simp only
    rw [same]
    exact onward
  | error e site => exact onward

theorem onward_withHandle {handle : Nat} {act : Commit → Except StoreError Unit × Session}
    (h : ∀ commit, session.commits[handle]? = some commit →
      session.site.Onward (act commit).2.site) :
    session.site.Onward (session.withHandle handle act).2.site := by
  unfold withHandle
  cases there : session.commits[handle]? with
  | some commit => exact h commit there
  | none => exact Site.onward_always.refl _

theorem directory_of_reopen (sound : session.Sound) {cacheSize : Nat}
    (allowed : (Action.reopen cacheSize).Allowed session)
    (filed : session.site.directory.file ≠ none)
    (reopened : (session.step (.reopen cacheSize)).1 = .ok ()) :
    (session.step (.reopen cacheSize)).2.site.directory =
      .ofIndex session.site.directory.file session.site.directory.index cacheSize := by
  change (session.reopen cacheSize).1 = _ at reopened
  change (session.reopen cacheSize).2.site.directory = _
  unfold reopen at reopened ⊢
  cases file : session.site.directory.file with
  | none => exact absurd file filed
  | some name =>
    simp only [file] at reopened ⊢
    cases loaded : load name cacheSize session.site.host with
    | error e host => simp [loaded] at reopened
    | ok directory host => exact eq_ofIndex_of_load_ok sound.site file allowed.1 allowed.2 loaded

theorem step_reopen (sound : session.Sound) {name : String}
    (file : session.site.directory.file = some name)
    (small : session.site.directory.clock.last < 0x8000000000000000)
    (fits : (MessagePack.encode (Record.indexValue session.site.directory.index)).length ≤
      Frame.maxPayload) (cacheSize : Nat) :
    session.step (.reopen cacheSize) = (.ok (), { session with
      site := { session.site with
        directory := .ofIndex (some name) session.site.directory.index cacheSize }
      commits := [] }) := by
  change session.reopen cacheSize = _
  unfold reopen
  rw [file]
  simp only
  rw [load_of_sound sound.site file cacheSize small fits]

/--
The clock goes on until the directory is opened again from its file.
-/
theorem onward_step (sound : session.Sound) (allowed : action.Allowed session) :
    session.site.Onward (session.step action).2.site ∨
      ∃ cacheSize, action = .reopen cacheSize ∧ session.site.directory.file ≠ none ∧
        (session.step action).1 = .ok () := by
  have plain {α : Type} (op : Operation α) :
      session.site.Onward (session.call op.perform).2.site := onward_call fun _ _ => rfl
  have opening (op : Operation Commit) :
      session.site.Onward (session.call op.perform addCommit).2.site := onward_call fun _ _ => rfl
  have same : session.site.Onward session.site := Site.onward_always.refl _
  cases action with
  | surroundings host => exact .inl same
  | subscribers events => exact .inl same
  | create path => exact .inl (plain (.create path))
  | lock path => exact .inl (plain (.lock path))
  | unlock path => exact .inl (plain (.unlock path))
  | forceUnlock path => exact .inl (plain (.forceUnlock path))
  | openCommit path kind => exact .inl (opening (.openCommit path kind))
  | openPromotion path source => exact .inl (opening (.openPromotion path source))
  | complete handle =>
    exact .inl (onward_withHandle fun commit _ => plain (.complete commit))
  | purge => exact .inl (plain .purge)
  | save => exact .inl (plain .save)
  | reopen cacheSize =>
    change session.site.Onward (session.reopen cacheSize).2.site ∨
      ∃ _, _ ∧ _ ∧ (session.reopen cacheSize).1 = .ok ()
    unfold reopen
    cases file : session.site.directory.file with
    | none => exact .inl same
    | some name =>
      simp only
      cases loaded : load name cacheSize session.site.host with
      | error e host => exact .inl same
      | ok directory host => exact .inr ⟨cacheSize, rfl, by simp, rfl⟩
  | latest path => exact .inl (plain (.latestWithStanding? path))
  | rowAt path t => exact .inl (plain (.rowAt path t))
  | criteria path =>
    obtain ⟨answer, history, found⟩ := exists_criteria sound allowed
    change session.site.Onward (session.call (Criteria.ofBranch path)).2.site ∨ _
    rw [found]
    exact .inl same
  | hide handle ids => exact .inl (onward_withHandle fun commit _ => same)
  | retire handle field values =>
    refine .inl (onward_withHandle fun commit there => ?_)
    have out := retire_outcome sound there field values
    generalize session.retire handle field values commit = result at out ⊢
    cases out with
    | nothing none => exact same
    | uncovered path t history agrees missing => exact same
    | retired history agrees some covered => exact same
  | write handle docs => exact .inl (onward_withHandle fun commit _ => same)
  | endVersions ids t => exact .inl same

/-! ## Timepoints that are forgotten -/

/--
The directory can be opened again from its file.
-/
def Reopens (session : Session) (cacheSize : Nat) : Prop :=
  session.site.directory.file ≠ none ∧ (session.step (.reopen cacheSize)).1 = .ok ()

/--
At some point the directory is opened again, when nothing is stored that is as late as `t`.
-/
def Forgets (session : Session) (t : Timepoint) (actions : List Action) : Prop :=
  ∃ earlier cacheSize later, actions = earlier ++ .reopen cacheSize :: later ∧
    (session.run earlier).Reopens cacheSize ∧
      (session.run earlier).site.directory.index.Precedes t

theorem lt_clock_of_reopen_iff (sound : session.Sound) {cacheSize : Nat}
    (allowed : (Action.reopen cacheSize).Allowed session) (reopens : session.Reopens cacheSize) :
    (session.step (.reopen cacheSize)).2.site.directory.clock.last < t ↔
      0 < t ∧ session.site.directory.index.Precedes t := by
  rw [directory_of_reopen sound allowed reopens.1 reopens.2]
  exact clock_ofIndex_lt_iff

theorem forgets_of_lt (sound : session.Sound) {actions : List Action}
    (permitted : session.Permits actions) (known : t ≤ session.site.directory.clock.last)
    (behind : (session.run actions).site.directory.clock.last < t) :
    session.Forgets t actions := by
  induction actions generalizing session with
  | nil => exact absurd behind (Int.not_lt.2 known)
  | cons action actions ih =>
    obtain ⟨allowed, rest⟩ := permitted
    have sound' := (stays_step sound allowed).sound
    by_cases known' : t ≤ (session.step action).2.site.directory.clock.last
    · obtain ⟨earlier, cacheSize, later, rfl, forgets⟩ := ih sound' rest known' behind
      exact ⟨action :: earlier, cacheSize, later, rfl, forgets⟩
    · rcases onward_step sound allowed with onward | ⟨cacheSize, rfl, reopens⟩
      · exact absurd (Int.le_trans known onward) known'
      · have forgotten := (lt_clock_of_reopen_iff sound allowed reopens).1 (Int.not_le.1 known')
        exact ⟨[], cacheSize, actions, rfl, reopens, forgotten.2⟩

/-! ## Handles from before -/

/--
The action gives out a handle of the commit.
-/
def Opens (session : Session) (action : Action) (commit : Commit) : Prop :=
  (session.step action).2.commits = session.commits ++ [commit]

theorem Opens.issued (opens : session.Opens action commit) (sound : session.Sound)
    (allowed : action.Allowed session) : session.Issued (session.step action).2 commit :=
  (effect_step sound allowed).issued sound opens

theorem nextTimepoint_le_iff {site : Site} :
    nextTimepoint site ≤ t ↔ site.host.wall ≤ t ∧ site.directory.clock.last < t := by
  change max site.host.wall (site.directory.clock.last + 1) ≤ t ↔ _
  lia

/--
A commit is open that is taken for the given one: it has the same timepoint and holds the same
branches, where the branch is still at the row at which the given one has found it.
-/
structure Honours (session : Session) (commit : Commit) : Prop where
  live : ∃ live ∈ session.commits, live.IsOpen session.site.directory.openCommits ∧
    live.timepoint = commit.timepoint ∧ live.Touches commit.branchPath ∧
      ∀ source, commit.source = some source → live.Touches source
  start : ∃ row, session.site.directory.index.last? commit.branchPath = some row ∧
    row.start = commit.branch.start

theorem honours_of_complete_ok {row : BranchRow} {site : Site} (sound : session.Sound)
    (ok : complete commit session.site = .ok row site) : session.Honours commit := by
  have consistent := sound.site.consistent
  rw [complete_eq] at ok
  obtain ⟨made, middle, host, found, -, -⟩ := exists_of_storing_ok ok
  obtain ⟨entry, batched, -⟩ := batched_of_toComplete_ok found
  obtain ⟨live, hl, same, touches, open'⟩ := consistent.owned _ _ entry
  rw [← same] at open'
  constructor
  · refine ⟨live, hl, open', same, touches, ?_⟩
    intro source double
    -- both branches are held from the same timepoint, which only one commit has
    obtain ⟨live', hl', same', touches', -⟩ :=
      consistent.owned _ _ (batched.source_entry double)
    rw [consistent.eq_of_timepoint_eq hl hl' (same.trans same'.symm)]
    exact touches'
  · obtain ⟨held, current, start⟩ := current_of_toComplete_ok found
    rw [consistent.valid.current_eq, Except.ok.injEq] at current
    exact ⟨held, current, start⟩

/--
Whoever holds a handle, from whenever it is, can complete the commit if one is open that is taken
for it.
-/
theorem complete_ok_iff_honours {now : Timepoint} (sound : session.Sound)
    (formed : commit.Formed now) :
    (∃ row site, complete commit session.site = .ok row site) ↔ session.site.Writable ∧
      ¬ (commit.kind = .promotion ∧ commit.source = none) ∧ session.Honours commit := by
  have consistent := sound.site.consistent
  constructor
  · rintro ⟨row, site, ok⟩
    refine ⟨?_, ?_, honours_of_complete_ok sound ok⟩
    · rw [complete_eq] at ok
      obtain ⟨made, middle, host, found, kept, -⟩ := exists_of_storing_ok ok
      obtain ⟨-, -, rfl⟩ := batched_of_toComplete_ok found
      exact (Site.persisted_ok_iff _ _).1 ⟨host, kept⟩
    · rintro ⟨kind, none⟩
      obtain ⟨reason, refused⟩ := complete_of_no_source kind none
      rw [refused] at ok
      cases ok
  · rintro ⟨writable, sourced, ⟨live, hl, open', same, touches, touchesSource⟩, row, last, start⟩
    have isLive := consistent.live live hl open'
    have holds : ∀ path, live.Touches path → ∃ row,
        SourceHeld session.site.directory.index session.site.directory.openCommits commit path
          row := by
      intro path ht
      have entry := isLive.entry_of_touches ht
      obtain ⟨row, last, locked, before⟩ := isLive.last_of_touches ht
      rw [same] at entry before
      exact ⟨row, entry, last, locked, before⟩
    obtain ⟨row', entry, last', locked, before⟩ := holds _ touches
    rw [last, Option.some.injEq] at last'
    rw [← last'] at locked before
    have held : Held session.site.directory.index session.site.directory.openCommits commit row :=
      ⟨entry, last, locked, start, before⟩
    cases double : commit.source with
    | none =>
      have kind : commit.kind ≠ .promotion := fun kind => sourced ⟨kind, double⟩
      exact (complete_outcome consistent.valid formed.valid held kind double).exists_ok writable
    | some source =>
      obtain ⟨hs, distinct⟩ := formed.source source double
      obtain ⟨sourceRow, sourceHeld⟩ := holds source (touchesSource source double)
      exact (complete_outcome_of_source consistent.valid formed.valid hs distinct held sourceHeld
        double).exists_ok writable

end

/--
How far timepoints are issued only once. Whatever is opened after a commit gets a later timepoint,
unless the directory was opened again in between at a point at which nothing as late as the
timepoint of that commit was stored, and the wall clock has not passed it. When the directory has
just been opened again, these are the only conditions. A handle of the first commit can be completed
whenever a commit is open that is taken for it.
-/
theorem reissued_of_run {start last : Session} {before middle : List Action} {first : Action}
    {commit : Commit} (new : start.New) (permitted : start.Permits (before ++ first :: middle))
    (opened : (start.run before).Opens first commit)
    (arrived : start.run (before ++ first :: middle) = last) :
    (∀ second other, second.Allowed last → last.Opens second other →
      (other.timepoint ≤ commit.timepoint → last.site.host.wall ≤ commit.timepoint ∧
        (start.run (before ++ [first])).Forgets commit.timepoint middle) ∧
      ∀ earlier cacheSize, middle = earlier ++ [.reopen cacheSize] →
        (start.run (before ++ first :: earlier)).Reopens cacheSize →
          (other.timepoint ≤ commit.timepoint ↔ last.site.host.wall ≤ commit.timepoint ∧
            (start.run (before ++ first :: earlier)).site.directory.index.Precedes
              commit.timepoint)) ∧
    ∀ handle : Commit, handle.bare = commit.bare →
      ((∃ row site, Directory.complete handle last.site = .ok row site) ↔ last.site.Writable ∧
        ¬ (handle.kind = .promotion ∧ handle.source = none) ∧ last.Honours handle) := by
  have sound := sound_run new.sound permitted
  obtain ⟨permitted₀, allowed, permitted'⟩ := (permits_append _ before _).1 permitted
  have sound₀ := sound_run new.sound permitted₀
  have sound' := (stays_step sound₀ allowed).sound
  have issued := opened.issued sound₀ allowed
  have hc : commit ∈ ((start.run before).step first).2.commits := by
    rw [opened]
    exact List.mem_append_right _ (List.mem_singleton_self _)
  have formed := sound'.site.consistent.formed commit hc
  have ran : ∀ actions, start.run (before ++ first :: actions) =
      ((start.run before).step first).2.run actions := fun actions => run_append _ _ _
  rw [arrived] at sound
  rw [ran] at arrived
  refine ⟨?_, ?_⟩
  · intro second other allowed' opens
    rw [(opens.issued sound allowed').timepoint, nextTimepoint_le_iff]
    constructor
    · rintro ⟨wall, behind⟩
      rw [← arrived] at behind
      refine ⟨wall, ?_⟩
      rw [ran]
      exact forgets_of_lt sound' permitted' formed.le_now behind
    · rintro earlier cacheSize rfl reopens
      obtain ⟨permittedEarlier, allowedReopen, -⟩ := (permits_append _ earlier _).1 permitted'
      have positive : 0 < commit.timepoint :=
        Int.lt_of_le_of_lt sound₀.site.consistent.nonneg issued.later
      rw [ran] at reopens ⊢
      rw [run_append] at arrived
      subst arrived
      have forgotten := @lt_clock_of_reopen_iff _ commit.timepoint
        (sound_run sound' permittedEarlier) cacheSize allowedReopen reopens
      exact and_congr_right fun _ => forgotten.trans (and_iff_right positive)
  · intro handle same
    exact complete_ok_iff_honours sound (formed.of_bare same.symm)

/--
The directory is closed while a commit is open. When it is opened again, the branch is still locked.
-/
def reopenedWhileOpen : List Action := [.reopen 16, .forceUnlock "M"]

def firstOnM : Commit where
  branch := { BranchRow.fresh "M" 1 1 with locked := true }
  timepoint := 2
  kind := .content

def openedOnM : Session := onFile.run [.create "M", .openCommit "M" .content]

def reopenedOnM : Session :=
  { openedOnM with
    site := { openedOnM.site with
      directory := .ofIndex (some "rows") openedOnM.site.directory.index 16 }
    commits := [] }

theorem run_reopenedWhileOpen :
    onFile.Permits ([.create "M"] ++ .openCommit "M" .content :: reopenedWhileOpen) ∧
      openedOnM.run reopenedWhileOpen = reopenedOnM.run [.forceUnlock "M"] := by
  have m : Path.Valid "M" := by decide
  have permitted : onFile.Permits [.create "M", .openCommit "M" .content] := ⟨m, m, trivial⟩
  have small : openedOnM.site.directory.clock.last < 0x8000000000000000 := by decide +kernel
  have fits : (MessagePack.encode (Record.indexValue openedOnM.site.directory.index)).length ≤
      Frame.maxPayload := by decide +kernel
  have size : Frame.maxPayload < 0x10000000000000000 := by decide
  have sound := sound_run new_onFile.sound permitted
  refine ⟨⟨m, m, ⟨small, Nat.lt_of_le_of_lt fits size⟩, m, trivial⟩, ?_⟩
  have filed : openedOnM.site.directory.file = some "rows" := by decide +kernel
  have reopened : openedOnM.step (.reopen 16) = (.ok (), reopenedOnM) :=
    step_reopen sound filed small fits 16
  unfold reopenedWhileOpen
  rw [run, reopened]

/--
The next commit gets the timepoint of the first one.
-/
theorem reissued_of_reopenedWhileOpen :
    onFile.New ∧
      onFile.Permits ([.create "M"] ++ .openCommit "M" .content :: reopenedWhileOpen) ∧
      (onFile.run [.create "M"]).Opens (.openCommit "M" .content) firstOnM ∧
      (openedOnM.run reopenedWhileOpen).Opens (.openCommit "M" .content) firstOnM ∧
      openedOnM.Forgets firstOnM.timepoint reopenedWhileOpen ∧
      ¬ ∃ row site, Directory.complete firstOnM (openedOnM.run reopenedWhileOpen).site =
        .ok row site := by
  have opened : (onFile.run [.create "M"]).Opens (.openCommit "M" .content) firstOnM := by
    unfold Opens
    decide +kernel
  obtain ⟨permitted, ran⟩ := run_reopenedWhileOpen
  have again : (openedOnM.run reopenedWhileOpen).Opens (.openCommit "M" .content) firstOnM := by
    rw [ran]
    unfold Opens
    decide +kernel
  have handles : (openedOnM.run reopenedWhileOpen).commits = [] := by
    rw [ran]
    decide +kernel
  have valid : Path.Valid "M" := by decide
  have arrived : onFile.run ([.create "M"] ++ .openCommit "M" .content :: reopenedWhileOpen) =
      openedOnM.run reopenedWhileOpen :=
    run_append onFile [.create "M", .openCommit "M" .content] reopenedWhileOpen
  obtain ⟨later, accepted⟩ := reissued_of_run new_onFile permitted opened arrived
  obtain ⟨-, forgets⟩ := (later (.openCommit "M" .content) firstOnM valid again).1 (Int.le_refl _)
  refine ⟨new_onFile, permitted, opened, again, forgets, ?_⟩
  rw [accepted firstOnM rfl]
  rintro ⟨-, -, ⟨live, hl, -⟩, -⟩
  simp [handles] at hl

/--
Two commits get the same timepoint, and the handle of the first one, which was given up, is accepted
in place of that of the second.
-/
theorem reused_after_reopen :
    onFile.New ∧
      onFile.Permits ([.create "M"] ++ .openCommit "M" .content :: reopenedWhileOpen) ∧
      (onFile.run [.create "M"]).Opens (.openCommit "M" .content) firstOnM ∧
      (openedOnM.run reopenedWhileOpen).Opens (.openCommit "M" .content) firstOnM ∧
      ∃ row site, Directory.complete firstOnM
        ((openedOnM.run reopenedWhileOpen).step (.openCommit "M" .content)).2.site =
          .ok row site := by
  obtain ⟨permitted, ran⟩ := run_reopenedWhileOpen
  have opened : (onFile.run [.create "M"]).Opens (.openCommit "M" .content) firstOnM := by
    unfold Opens
    decide +kernel
  have again : (reopenedOnM.run [.forceUnlock "M"]).Opens (.openCommit "M" .content)
      firstOnM := by
    unfold Opens
    decide +kernel
  have completed : (((reopenedOnM.run [.forceUnlock "M"]).step (.openCommit "M" .content)).2.call
      (Directory.complete firstOnM)).1 = .ok () := by
    decide +kernel
  rw [ran]
  refine ⟨new_onFile, permitted, opened, again, ?_⟩
  cases answer : Directory.complete firstOnM
      ((reopenedOnM.run [.forceUnlock "M"]).step (.openCommit "M" .content)).2.site with
  | ok row site => exact ⟨row, site, rfl⟩
  | error e site =>
    rw [call_error answer] at completed
    cases completed

end Session

end TemporalStore
