import TemporalStore.Proofs.Session.Drafts
import TemporalStore.Proofs.Session.Growth
import TemporalStore.Proofs.Session.Stored

/-!
This module contains what is known of the documents of a session in which no commit is given up: the
branch of a version has got to where the version starts, or a commit that is open will take it
there.
-/

namespace TemporalStore

/--
No commit is given up: none is ended by force or with all rows, and the directory is not closed
while one is open. Versions are ended as of the timepoints of commits.
-/
def Action.Faithful (action : Action) (session : Session) : Prop :=
  match action with
  | .forceUnlock path => session.site.directory.openCommits.get? path = none
  | .purge => False
  | .reopen _ => session.site.directory.openCommits = ∅
  | .endVersions _ t => ∃ commit ∈ session.commits, commit.timepoint = t
  | _ => True

namespace Session

open Directory

def Faithful (session : Session) : List Action → Prop
  | [] => True
  | action :: actions => action.Faithful session ∧ (session.step action).2.Faithful actions

/--
The branch has got to the timepoint, or will get there when an open commit is completed.
-/
def Reaches (session : Session) (path : String) (t : Timepoint) : Prop :=
  (∃ row, session.site.directory.index.last? path = some row ∧ t ≤ row.head) ∨
    ∃ commit ∈ session.commits, commit.IsOpen session.site.directory.openCommits ∧
      commit.branchPath = path ∧ commit.timepoint = t

structure Settled (session : Session) : Prop where
  commits : ∀ commit ∈ session.commits, session.Reaches commit.branchPath commit.timepoint
  stored : ∀ id d, session.documents.get? id = some d → ∃ path, Path.Valid path ∧
    d.path = Path.flatten path ∧ session.Reaches path d.start
  ended : ∀ id d t, session.documents.get? id = some d → d.ended = some t →
    ∃ path, Path.Valid path ∧ session.Reaches path t

section

variable {session : Session} {action : Action} {commit : Commit} {path : String} {t : Timepoint}
  {result : Except StoreError Unit × Session} {id : VersionId} {d : Document}

/--
Every branch is at its old head or past it.
-/
theorem Effect.onward (effect : session.Effect action result) (sound : session.Sound)
    (sound' : result.2.Sound) (faithful : action.Faithful session) (hp : Path.Valid path)
    {row : BranchRow} (last : session.site.directory.index.last? path = some row) :
    ∃ row', result.2.site.directory.index.last? path = some row' ∧ row.head ≤ row'.head := by
  have keeps : action ≠ .purge := by
    rintro rfl
    exact faithful
  obtain ⟨old, mem, same⟩ := effect.stores sound keeps hp (RowIndex.stores_of_last? last)
  obtain ⟨row', last', le⟩ := sound'.site.consistent.valid.exists_last mem
  obtain ⟨-, -, start, -⟩ := BranchRow.core_eq_iff.1 same
  have head := (sound.site.consistent.valid.fits_last hp last).head
  have head' := (sound'.site.consistent.valid.fits_last hp last').head
  refine ⟨row', last', ?_⟩
  rw [head, head', ← start]
  exact le

theorem exists_open_of_handles {next : Session}
    (handles : session.commits.map Commit.bare <+: next.commits.map Commit.bare)
    (hc : commit ∈ session.commits) (open' : commit.IsOpen next.site.directory.openCommits) :
    ∃ commit' ∈ next.commits, commit'.bare = commit.bare ∧
      commit'.IsOpen next.site.directory.openCommits := by
  obtain ⟨handle, there⟩ := List.mem_iff_getElem?.1 hc
  obtain ⟨commit', there', bare⟩ := exists_handle_of_prefix handles there
  exact ⟨commit', List.mem_of_getElem? there', bare, (isOpen_iff_of_bare bare).2 open'⟩

theorem eq_or_remains_open {completed : Commit} {handle : Nat} (sound : session.Sound)
    (hc : commit ∈ session.commits) (open' : commit.IsOpen session.site.directory.openCommits)
    (there : session.commits[handle]? = some completed)
    (entry : completed.IsOpen session.site.directory.openCommits) :
    completed = commit ∨
      commit.IsOpen (remaining session.site.directory.openCommits completed) := by
  have consistent := sound.site.consistent
  have hd := List.mem_of_getElem? there
  by_cases touches : completed.Touches commit.branchPath
  · have taken := (get?_eq_timepoint_iff consistent hd entry).2 touches
    unfold Commit.IsOpen at open'
    rw [open', Option.some.injEq] at taken
    exact .inl (consistent.eq_of_timepoint_eq hd hc taken.symm)
  · exact .inr (Consistent.remaining_iff.2 ⟨open', touches⟩)

/--
A commit that is not given up stays open until it is completed.
-/
theorem Effect.open_or_completed (effect : session.Effect action result) (sound : session.Sound)
    (faithful : action.Faithful session) (hc : commit ∈ session.commits)
    (open' : commit.IsOpen session.site.directory.openCommits) :
    (∃ commit' ∈ result.2.commits, commit'.bare = commit.bare ∧
        commit'.IsOpen result.2.site.directory.openCommits) ∨
      ∃ row, result.2.site.directory.index.last? commit.branchPath = some row ∧
        row.head = commit.timepoint := by
  have consistent := sound.site.consistent
  have earlier := Int.lt_of_le_of_lt (consistent.formed commit hc).le_now
    (last_lt_ticked session.site)
  have hp := (consistent.formed commit hc).valid
  cases effect with
  | still _ _ _ _ _ openCommits handles =>
    rw [← openCommits] at open'
    exact .inl (exists_open_of_handles (handles ▸ List.prefix_refl _) hc open')
  | created _ _ _ _ _ _ _ openCommits handles =>
    rw [← openCommits] at open'
    exact .inl (exists_open_of_handles (handles ▸ List.prefix_refl _) hc open')
  | locked _ _ _ _ _ _ _ openCommits handles =>
    rw [← openCommits] at open'
    exact .inl (exists_open_of_handles (handles ▸ List.prefix_refl _) hc open')
  | unlocked _ _ _ _ _ _ _ openCommits handles =>
    rw [← openCommits] at open'
    exact .inl (exists_open_of_handles (handles ▸ List.prefix_refl _) hc open')
  | forced path row next hq last alone index openCommits handles =>
    apply Or.inl
    apply exists_open_of_handles (handles ▸ List.prefix_refl _) hc
    unfold Commit.IsOpen at open' ⊢
    rw [openCommits, OrderedMap.get?_erase_eq_some_iff]
    refine ⟨?_, open'⟩
    intro same
    rw [same, faithful] at open'
    cases open'
  | forcedBoth _ _ _ _ _ _ _ _ both =>
    have entry := (get?_of_partners both).1
    rw [faithful] at entry
    cases entry
  | opened path kind row next hq last unlocked index openCommits handles =>
    have free := consistent.get?_eq_none_of_unlocked last unlocked
    apply Or.inl
    apply exists_open_of_handles _ hc
    · rw [openCommits]
      exact (isOpen_insert free earlier).2 open'
    · rw [handles, List.map_append]
      exact List.prefix_append _ _
  | openedBoth path source row sourceRow next hq hs distinct last unlocked sourceLast sourceUnlocked
      index openCommits handles =>
    have free := consistent.get?_eq_none_of_unlocked last unlocked
    have sourceFree := consistent.get?_eq_none_of_unlocked sourceLast sourceUnlocked
    apply Or.inl
    apply exists_open_of_handles _ hc
    · rw [openCommits]
      exact (isOpen_insert_both distinct free sourceFree earlier).2 open'
    · rw [handles, List.map_append]
      exact List.prefix_append _ _
  | completed handle completed row next there held kind single index openCommits handles =>
    have hq := (consistent.formed completed (List.mem_of_getElem? there)).valid
    rcases eq_or_remains_open sound hc open' there held.entry with rfl | open''
    · refine .inr ⟨nextRow completed (row.close completed.timepoint) none, ?_, rfl⟩
      rw [index]
      exact RowIndex.last?_advance_self _ _ _ hq
    · rw [← openCommits] at open''
      exact .inl (exists_open_of_handles (handles ▸ List.prefix_refl _) hc open'')
  | promoted handle completed row source sourceRow next there held double hs distinct sourceHeld
      index openCommits handles =>
    have hq := (consistent.formed completed (List.mem_of_getElem? there)).valid
    rcases eq_or_remains_open sound hc open' there held.entry with rfl | open''
    · refine .inr ⟨nextRow completed (row.close completed.timepoint)
        (some (sourceRow.close completed.timepoint)), ?_, rfl⟩
      rw [index]
      exact (RowIndex.last?_advance_of_ne _ _ _ hs hq (Ne.symm distinct)).trans
        (RowIndex.last?_advance_self _ _ _ hq)
    · rw [← openCommits] at open''
      exact .inl (exists_open_of_handles (handles ▸ List.prefix_refl _) hc open'')
  | purged => exact faithful.elim
  | reopened _ _ _ _ openCommits =>
    unfold Commit.IsOpen at open'
    rw [faithful] at open'
    cases open'

theorem Effect.reaches (effect : session.Effect action result) (sound : session.Sound)
    (sound' : result.2.Sound) (faithful : action.Faithful session) (hp : Path.Valid path)
    (reaches : session.Reaches path t) :
    result.2.Reaches path t := by
  rcases reaches with ⟨row, last, le⟩ | ⟨commit, hc, open', rfl, rfl⟩
  · obtain ⟨row', last', le'⟩ := effect.onward sound sound' faithful hp last
    exact .inl ⟨row', last', Int.le_trans le le'⟩
  · rcases effect.open_or_completed sound faithful hc open' with
      ⟨commit', hc', bare, open''⟩ | ⟨row, last, head⟩
    · obtain ⟨branch, time, -⟩ := Commit.bare_eq_iff.1 bare
      exact .inr ⟨commit', hc', open'', congrArg BranchRow.path branch, time⟩
    · exact .inl ⟨row, last, Int.le_of_eq head.symm⟩

theorem le_last_of_reaches (sound : session.Sound) (hp : Path.Valid path)
    (reaches : session.Reaches path t) : t ≤ session.site.directory.clock.last := by
  rcases reaches with ⟨row, last, le⟩ | ⟨commit, hc, -, -, rfl⟩
  · have fits := sound.site.consistent.valid.fits_last hp last
    have head := fits.head
    have start := fits.start_le
    lia
  · exact (sound.site.consistent.formed commit hc).le_now

/-! ## What a step keeps -/

theorem settled_commits_step (sound : session.Sound) (allowed : action.Allowed session)
    (faithful : action.Faithful session) (settled : session.Settled)
    (hc : commit ∈ (session.step action).2.commits) :
    (session.step action).2.Reaches commit.branchPath commit.timepoint := by
  have effect := effect_step sound allowed
  have sound' := (stays_step sound allowed).sound
  obtain ⟨handle, there⟩ := List.mem_iff_getElem?.1 hc
  rcases effect.commit_cases sound there with ⟨before, was, bare, -⟩ | ⟨new, issued⟩
  · have hb := List.mem_of_getElem? was
    obtain ⟨branch, time, -⟩ := Commit.bare_eq_iff.1 bare
    have hp := (sound.site.consistent.formed before hb).valid
    have reaches := effect.reaches sound sound' faithful hp (settled.commits before hb)
    have path : before.branchPath = commit.branchPath := congrArg BranchRow.path branch
    rw [path, time] at reaches
    exact reaches
  · exact .inr ⟨commit, hc, issued.isOpen, rfl, rfl⟩

theorem settled_stored_step (sound : session.Sound) (allowed : action.Allowed session)
    (faithful : action.Faithful session) (settled : session.Settled)
    (found : (session.step action).2.documents.get? id = some d) :
    ∃ path, Path.Valid path ∧ d.path = Path.flatten path ∧
      (session.step action).2.Reaches path d.start := by
  have effect := effect_step sound allowed
  have sound' := (stays_step sound allowed).sound
  have kept : ∀ d', session.documents.get? id = some d' → ∃ path, Path.Valid path ∧
      d'.path = Path.flatten path ∧ (session.step action).2.Reaches path d'.start := by
    intro d' found'
    obtain ⟨path, hp, flat, reaches⟩ := settled.stored id d' found'
    exact ⟨path, hp, flat, effect.reaches sound sound' faithful hp reaches⟩
  cases stems_step sound found with
  | kept _ _ found' => exact kept d found'
  | ended ids t d' found' mem => exact kept d' found'
  | retired handle commit field values d' there found' path older current => exact kept d' found'
  | written handle commit docs _ there stamped =>
    have hc := List.mem_of_getElem? there
    have hp := (sound.site.consistent.formed commit hc).valid
    obtain ⟨path, start, -⟩ := Commit.stamped_of_mem_identify stamped
    refine ⟨commit.branchPath, hp, path, ?_⟩
    have reaches := effect.reaches sound sound' faithful hp (settled.commits commit hc)
    rw [← start] at reaches
    exact reaches

theorem settled_ended_step (sound : session.Sound) (allowed : action.Allowed session)
    (faithful : action.Faithful session) (settled : session.Settled)
    (found : (session.step action).2.documents.get? id = some d) (ended : d.ended = some t) :
    ∃ path, Path.Valid path ∧ (session.step action).2.Reaches path t := by
  have effect := effect_step sound allowed
  have sound' := (stays_step sound allowed).sound
  have as_of : ∀ commit ∈ session.commits, commit.timepoint = t →
      ∃ path, Path.Valid path ∧ (session.step action).2.Reaches path t := by
    rintro commit hc rfl
    have hp := (sound.site.consistent.formed commit hc).valid
    exact ⟨_, hp, effect.reaches sound sound' faithful hp (settled.commits commit hc)⟩
  cases stems_step sound found with
  | kept _ _ found' =>
    obtain ⟨path, hp, reaches⟩ := settled.ended id d t found' ended
    exact ⟨path, hp, effect.reaches sound sound' faithful hp reaches⟩
  | ended ids u d' found' mem =>
    obtain ⟨commit, hc, time⟩ := faithful
    exact as_of commit hc (time.trans (Option.some.inj ended))
  | retired handle commit field values d' there found' path older current =>
    exact as_of commit (List.mem_of_getElem? there) (Option.some.inj ended)
  | written handle commit docs _ there stamped =>
    have current : d.ended = none := (Commit.stamped_of_mem_identify stamped).2.2
    rw [current] at ended
    cases ended

theorem settled_step (sound : session.Sound) (allowed : action.Allowed session)
    (faithful : action.Faithful session) (settled : session.Settled) :
    (session.step action).2.Settled where
  commits _ := settled_commits_step sound allowed faithful settled
  stored _ _ := settled_stored_step sound allowed faithful settled
  ended _ _ _ := settled_ended_step sound allowed faithful settled

theorem settled_run (sound : session.Sound) (settled : session.Settled) {actions : List Action}
    (permitted : session.Permits actions) (faithful : session.Faithful actions) :
    (session.run actions).Settled := by
  induction actions generalizing session with
  | nil => exact settled
  | cons action actions ih =>
    obtain ⟨allowed, permitted⟩ := permitted
    obtain ⟨first, faithful⟩ := faithful
    exact ih (stays_step sound allowed).sound (settled_step sound allowed first settled) permitted
      faithful

theorem New.settled (new : session.New) : session.Settled := by
  obtain ⟨commits, documents, -⟩ := new
  constructor
  · simp [commits]
  · simp [documents, Collection.get?]
  · simp [documents, Collection.get?]

end

end Session

end TemporalStore
