import TemporalStore.Proofs.Session.Commits
import TemporalStore.Proofs.Session.Effect
import TemporalStore.Proofs.Timeline.Rows

/-!
This module contains what is new after an action: the handle that it gives out and the rows that it
begins. All handles and rows were there before, and no commit is open that was not open before.
-/

namespace TemporalStore.Session

open Directory

section

variable {session : Session} {action : Action} {commit : Commit} {path : String}
  {core : BranchRow} {result : Except StoreError Unit × Session}

/-! ## Handles -/

/--
A commit that is given out starts at a timepoint of its own, on a branch that was not locked.
-/
structure Issued (session next : Session) (commit : Commit) : Prop where
  bare : commit.bare = commit
  timepoint : commit.timepoint = nextTimepoint session.site
  unlocked : ∃ row, session.site.directory.index.last? commit.branchPath = some row ∧
    row.locked = false
  isOpen : commit.IsOpen next.site.directory.openCommits

theorem Issued.later {next : Session} (issued : session.Issued next commit) :
    session.site.directory.clock.last < commit.timepoint := by
  rw [issued.timepoint]
  exact last_lt_ticked session.site

theorem Issued.free {next : Session} (issued : session.Issued next commit) (sound : session.Sound) :
    session.site.directory.openCommits.get? commit.branchPath = none := by
  obtain ⟨row, last, unlocked⟩ := issued.unlocked
  exact sound.site.consistent.get?_eq_none_of_unlocked last unlocked

theorem Effect.commits (effect : session.Effect action result) (sound : session.Sound) :
    result.2.commits.map Commit.bare = session.commits.map Commit.bare ∨
      (∃ commit, result.2.commits = session.commits ++ [commit] ∧ session.Issued result.2 commit) ∨
        (∃ cacheSize, action = .reopen cacheSize) ∧ result.2.commits = [] := by
  have valid := sound.site.consistent.valid
  cases effect with
  | still _ _ _ _ _ _ handles => exact .inl handles
  | opened path kind row next hp last unlocked index openCommits handles =>
    have rowPath := (valid.fits_last hp last).path
    refine .inr (.inl ⟨_, handles, rfl, rfl, ⟨row, ?_, unlocked⟩, ?_⟩)
    · rw [← rowPath] at last
      exact last
    · change next.site.directory.openCommits.get? row.path = _
      rw [openCommits, rowPath]
      exact OrderedMap.get?_insert_self
  | openedBoth path source row sourceRow next hp hs distinct last unlocked _ _ index openCommits
      handles =>
    have rowPath := (valid.fits_last hp last).path
    refine .inr (.inl ⟨_, handles, rfl, rfl, ⟨row, ?_, unlocked⟩, ?_⟩)
    · rw [← rowPath] at last
      exact last
    · change next.site.directory.openCommits.get? row.path = _
      rw [openCommits, rowPath, OrderedMap.get?_insert_of_ne distinct]
      exact OrderedMap.get?_insert_self
  | reopened cacheSize _ _ _ _ handles => exact .inr (.inr ⟨⟨cacheSize, rfl⟩, handles⟩)
  | _ => exact .inl (congrArg _ (by assumption))

theorem Effect.issued (effect : session.Effect action result) (sound : session.Sound)
    (handles : result.2.commits = session.commits ++ [commit]) :
    session.Issued result.2 commit := by
  rcases effect.commits sound with same | ⟨other, handles', issued⟩ | ⟨-, none⟩
  · rw [handles] at same
    have lengths := congrArg List.length same
    simp at lengths
  · rw [handles] at handles'
    rw [List.singleton_inj.1 (List.append_cancel_left handles')]
    exact issued
  · rw [handles] at none
    simp at none

/--
A handle is of use until the directory is opened again.
-/
theorem Effect.exists_handle (effect : session.Effect action result) (sound : session.Sound)
    (stays : ∀ cacheSize, action ≠ .reopen cacheSize) {handle : Nat}
    (there : session.commits[handle]? = some commit) :
    ∃ commit', result.2.commits[handle]? = some commit' ∧ commit'.bare = commit.bare := by
  apply exists_handle_of_prefix _ there
  rcases effect.commits sound with same | ⟨issued, handles, -⟩ | ⟨⟨cacheSize, rfl⟩, -⟩
  · exact same ▸ List.prefix_refl _
  · rw [handles, List.map_append]
    exact List.prefix_append _ _
  · exact absurd rfl (stays cacheSize)

/--
No commit becomes open that was not open before, apart from the one that is given out.
-/
theorem Effect.opens (effect : session.Effect action result) (sound : session.Sound)
    (hc : commit ∈ session.commits) (open' : commit.IsOpen result.2.site.directory.openCommits) :
    commit.IsOpen session.site.directory.openCommits := by
  have consistent := sound.site.consistent
  have earlier := Int.lt_of_le_of_lt (consistent.formed commit hc).le_now
    (last_lt_ticked session.site)
  cases effect with
  | still _ _ _ _ _ openCommits =>
    rw [openCommits] at open'
    exact open'
  | created _ _ _ _ _ _ _ openCommits =>
    rw [openCommits] at open'
    exact open'
  | locked _ _ _ _ _ _ _ openCommits =>
    rw [openCommits] at open'
    exact open'
  | unlocked _ _ _ _ _ _ _ openCommits =>
    rw [openCommits] at open'
    exact open'
  | forced _ _ _ _ _ _ _ openCommits =>
    rw [openCommits] at open'
    exact (OrderedMap.get?_erase_eq_some_iff.1 open').2
  | forcedBoth _ _ _ _ _ _ _ _ _ _ openCommits =>
    rw [openCommits] at open'
    exact (OrderedMap.get?_erase_eq_some_iff.1 (OrderedMap.get?_erase_eq_some_iff.1 open').2).2
  | opened path kind row next hp last unlocked index openCommits =>
    have free := consistent.get?_eq_none_of_unlocked last unlocked
    rw [openCommits] at open'
    exact (isOpen_insert free earlier).1 open'
  | openedBoth path source row sourceRow next hp hs distinct last unlocked sourceLast sourceUnlocked
      index openCommits =>
    have free := consistent.get?_eq_none_of_unlocked last unlocked
    have sourceFree := consistent.get?_eq_none_of_unlocked sourceLast sourceUnlocked
    rw [openCommits] at open'
    exact (isOpen_insert_both distinct free sourceFree earlier).1 open'
  | completed _ _ _ _ _ _ _ _ _ openCommits =>
    rw [openCommits] at open'
    exact (Consistent.remaining_iff.1 open').1
  | promoted _ _ _ _ _ _ _ _ _ _ _ _ _ openCommits =>
    rw [openCommits] at open'
    exact (Consistent.remaining_iff.1 open').1
  | purged _ _ openCommits =>
    rw [openCommits] at open'
    cases open'
  | reopened _ _ _ _ openCommits =>
    rw [openCommits] at open'
    cases open'

/--
What is under a handle after an action: what was under it before, apart from what is hidden, or the
commit that was given out.
-/
theorem Effect.commit_cases (effect : session.Effect action result) (sound : session.Sound)
    {handle : Nat} (there : result.2.commits[handle]? = some commit) :
    (∃ before, session.commits[handle]? = some before ∧ before.bare = commit.bare ∧
        (commit.IsOpen result.2.site.directory.openCommits →
          before.IsOpen session.site.directory.openCommits)) ∨
      handle = session.commits.length ∧ session.Issued result.2 commit := by
  rcases effect.commits sound with same | ⟨issued, handles, isIssued⟩ | ⟨-, lost⟩
  · have bare := congrArg (·[handle]?) same
    simp only [List.getElem?_map, there, Option.map_some] at bare
    obtain ⟨before, there', same⟩ := Option.map_eq_some_iff.1 bare.symm
    refine .inl ⟨before, there', same, ?_⟩
    rw [← isOpen_iff_of_bare same]
    exact effect.opens sound (List.mem_of_getElem? there')
  · rw [handles, List.getElem?_append] at there
    split at there
    · exact .inl ⟨commit, there, rfl, effect.opens sound (List.mem_of_getElem? there)⟩
    · rw [List.getElem?_singleton] at there
      split at there
      · rw [Option.some.injEq] at there
        rw [← there]
        exact .inr ⟨by lia, isIssued⟩
      · cases there
  · simp [lost] at there

/-! ## Rows -/

/--
The rows that an action leaves behind are come by in steps: a branch begins, is locked or unlocked,
or goes on because a commit is completed, unless all rows are purged.
-/
inductive Shifts (session : Session) (action : Action) (next : Session) : RowIndex → Prop where
  | none : Shifts session action next session.site.directory.index
  | begun (index : RowIndex) (path : String) (row : BranchRow) (shifts : Shifts session action next
      index) (valid : Path.Valid path) (last : index.last? path = none)
    (start : row.start = nextTimepoint session.site) (handles : next.commits = session.commits) :
    Shifts session action next (index.put path [row])
  | relocked (index : RowIndex) (path : String) (locked : Bool)
    (shifts : Shifts session action next index) (valid : Path.Valid path) :
    Shifts session action next (index.setLocked path locked)
  | advanced (index : RowIndex) (path : String) (row new : BranchRow) (handle : Nat)
    (commit : Commit) (shifts : Shifts session action next index) (valid : Path.Valid path)
    (consistent : index.Valid session.site.directory.clock.last)
    (last : index.last? path = some row) (start : new.start = commit.timepoint)
    (completes : action = .complete handle) (there : session.commits[handle]? = some commit)
    (entry : commit.IsOpen session.site.directory.openCommits)
    (closed : ¬ commit.IsOpen next.site.directory.openCommits) :
    Shifts session action next (index.advance path (row.close commit.timepoint) new)
  | purged (purges : action = .purge) : Shifts session action next {}

theorem Effect.shifts (effect : session.Effect action result) (sound : session.Sound) :
    Shifts session action result.2 result.2.site.directory.index := by
  have consistent := sound.site.consistent
  have valid := consistent.valid
  cases effect with
  | still _ _ _ _ index =>
    rw [index]
    exact .none
  | created _ _ _ hp last _ index _ handles =>
    rw [index]
    exact .begun _ _ _ .none hp last rfl handles
  | locked _ _ _ hp _ _ index =>
    rw [index]
    exact .relocked _ _ _ .none hp
  | unlocked _ _ _ hp _ _ index =>
    rw [index]
    exact .relocked _ _ _ .none hp
  | forced _ _ _ hp _ _ index =>
    rw [index]
    exact .relocked _ _ _ .none hp
  | forcedBoth _ _ _ _ _ hp hq _ _ index =>
    rw [index]
    exact .relocked _ _ _ (.relocked _ _ _ .none hp) hq
  | opened _ _ _ _ hp _ _ index =>
    rw [index]
    exact .relocked _ _ _ .none hp
  | openedBoth _ _ _ _ _ hp hs _ _ _ _ _ index =>
    rw [index]
    exact .relocked _ _ _ (.relocked _ _ _ .none hp) hs
  | completed handle commit row next there held kind single index openCommits =>
    have hp := (consistent.formed commit (List.mem_of_getElem? there)).valid
    have closed : ¬ commit.IsOpen next.site.directory.openCommits := by
      change next.site.directory.openCommits.get? _ ≠ _
      rw [openCommits, Consistent.get?_remaining_of_touches (.inl rfl)]
      simp
    rw [index]
    exact .advanced _ _ _ _ handle commit .none hp valid held.last rfl rfl there held.entry closed
  | promoted handle commit row source sourceRow next there held double hs distinct sourceHeld index
      openCommits =>
    have hc := List.mem_of_getElem? there
    have hp := (consistent.formed commit hc).valid
    have closed : ¬ commit.IsOpen next.site.directory.openCommits := by
      change next.site.directory.openCommits.get? _ ≠ _
      rw [openCommits, Consistent.get?_remaining_of_touches (.inl rfl)]
      simp
    -- the source goes on in an index in which the branch has gone on
    have middle := (consistent.advanced hc held (some (sourceRow.close commit.timepoint))).valid
    have sourceLast := (RowIndex.last?_advance_of_ne session.site.directory.index
      (row.close commit.timepoint) (nextRow commit (row.close commit.timepoint)
        (some (sourceRow.close commit.timepoint))) hp hs distinct).trans sourceHeld.last
    rw [index]
    exact .advanced _ _ _ _ handle commit
      (.advanced _ _ _ _ handle commit .none hp valid held.last rfl rfl there held.entry closed)
      hs middle sourceLast rfl rfl there held.entry closed
  | purged _ index =>
    rw [index]
    exact .purged rfl
  | reopened _ _ _ index =>
    rw [index]
    exact .none

/--
What rows there are after an action: those that were there before, one that begins a branch, and
those that a commit leaves behind that has just been completed.
-/
theorem Effect.rows (effect : session.Effect action result) (sound : session.Sound)
    (hp : Path.Valid path) (h : result.2.site.directory.index.Stores path core) :
    session.site.directory.index.Stores path core ∨
      core.start = nextTimepoint session.site ∧ result.2.commits = session.commits ∨
        ∃ handle commit, action = .complete handle ∧ session.commits[handle]? = some commit ∧
          commit.IsOpen session.site.directory.openCommits ∧
            ¬ commit.IsOpen result.2.site.directory.openCommits ∧
              core.start = commit.timepoint := by
  have shifts := effect.shifts sound
  generalize result.2.site.directory.index = index at shifts h
  induction shifts with
  | none => exact .inl h
  | begun index q row _ hq last start handles ih =>
    rcases RowIndex.stores_put hq hp h with stored | ⟨-, row', mem, rfl⟩
    · exact ih stored
    · rw [List.mem_singleton.1 mem]
      exact .inr (.inl ⟨start, handles⟩)
  | relocked index q locked _ hq ih => exact ih (RowIndex.stores_setLocked hq hp h)
  | advanced index q row new handle commit _ hq _ last start completes there entry closed ih =>
    rcases RowIndex.stores_advance hq hp last h with stored | ⟨-, rfl⟩
    · exact ih stored
    · exact .inr (.inr ⟨handle, commit, completes, there, entry, closed, start⟩)
  | purged =>
    obtain ⟨row, mem, -⟩ := h
    simp [RowIndex.timeline] at mem

/--
No row is lost but with all rows.
-/
theorem Effect.stores (effect : session.Effect action result) (sound : session.Sound)
    (keeps : action ≠ .purge) (hp : Path.Valid path)
    (h : session.site.directory.index.Stores path core) :
    result.2.site.directory.index.Stores path core := by
  have shifts := effect.shifts sound
  generalize result.2.site.directory.index = index at shifts ⊢
  induction shifts with
  | none => exact h
  | begun _ _ row _ hq last _ _ ih => exact ih.put_singleton hq hp last row
  | relocked _ _ locked _ hq ih => exact ih.setLocked hq hp locked
  | advanced _ _ _ new _ commit _ hq _ last _ _ _ _ _ ih =>
    exact ih.advance hq hp last commit.timepoint new
  | purged purges => exact absurd purges keeps

theorem start_le_of_stores (sound : session.Sound) (hp : Path.Valid path)
    (stored : session.site.directory.index.Stores path core) :
    core.start ≤ session.site.directory.clock.last := by
  obtain ⟨row, mem, rfl⟩ := stored
  exact (sound.site.consistent.valid.fits path hp row mem).start_le

/-! ## Runs -/

theorem exists_handle_run (sound : session.Sound) {handle : Nat}
    (there : session.commits[handle]? = some commit) {actions : List Action}
    (permitted : session.Permits actions) (stays : ∀ cacheSize, .reopen cacheSize ∉ actions) :
    ∃ commit', (session.run actions).commits[handle]? = some commit' ∧
      commit'.bare = commit.bare := by
  induction actions generalizing session commit with
  | nil => exact ⟨commit, there, rfl⟩
  | cons action actions ih =>
    obtain ⟨allowed, rest⟩ := permitted
    simp only [List.mem_cons, not_or] at stays
    obtain ⟨commit', there', same⟩ := (effect_step sound allowed).exists_handle sound
      (fun cacheSize here => (stays cacheSize).1 here.symm) there
    obtain ⟨commit'', there'', same'⟩ :=
      ih (stays_step sound allowed).sound there' rest fun cacheSize => (stays cacheSize).2
    exact ⟨commit'', there'', same'.trans same⟩

theorem stores_run (sound : session.Sound) (hp : Path.Valid path)
    (stored : session.site.directory.index.Stores path core) {actions : List Action}
    (permitted : session.Permits actions) (keeps : .purge ∉ actions) :
    (session.run actions).site.directory.index.Stores path core := by
  induction actions generalizing session with
  | nil => exact stored
  | cons action actions ih =>
    obtain ⟨allowed, rest⟩ := permitted
    rw [List.mem_cons, not_or] at keeps
    have stored' := (effect_step sound allowed).stores sound (Ne.symm keeps.1) hp stored
    exact ih (stays_step sound allowed).sound stored' rest keeps.2

end

end TemporalStore.Session
