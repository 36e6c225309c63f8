import TemporalStore.Proofs.Session.Growth
import TemporalStore.Proofs.Timeline.Bases

/-!
This module contains what the branches of a session are based on, and the commits that are open on
them: bases only move forward, from one row of the parent to another.
-/

namespace TemporalStore.Session

open Directory

/--
What is true of an open commit: to complete it does not set the base of the branch back, and does
not base it on anything but a row of its parent.
-/
structure Anchors (index : RowIndex) (commit : Commit) : Prop where
  onward : ∀ row, index.last? commit.branchPath = some row → row.base ≤ commit.branch.base
  above : ∀ parent, Path.parent? commit.branchPath = some parent →
    index.StartsAt parent commit.branch.base

structure Anchored (session : Session) : Prop where
  rows : session.site.directory.index.Anchored
  commits : ∀ commit ∈ session.commits, commit.IsOpen session.site.directory.openCommits →
    Anchors session.site.directory.index commit

/--
The commit that is to be completed.
-/
def completing? (session : Session) : Action → Option Commit
  | .complete handle => session.commits[handle]?
  | _ => none

/--
If the action completes a promotion, it is one from a branch into its parent.
-/
def PromotesUp (session : Session) (action : Action) (answer : Except StoreError Unit) : Prop :=
  answer = .ok () → ∀ commit ∈ session.completing? action, ∀ source ∈ commit.source,
    Path.parent? source = some commit.branchPath

instance (session : Session) (action : Action) (answer : Except StoreError Unit) :
    Decidable (session.PromotesUp action answer) :=
  inferInstanceAs (Decidable (answer = .ok () → ∀ commit ∈ session.completing? action,
    ∀ source ∈ commit.source, Path.parent? source = some commit.branchPath))

/--
Every promotion that is completed in a run goes from a branch into its parent.
-/
def Upward (session : Session) : List Action → Prop
  | [] => True
  | action :: actions => session.PromotesUp action (session.step action).1 ∧
      (session.step action).2.Upward actions

instance decidableUpward : (session : Session) → (actions : List Action) →
    Decidable (session.Upward actions)
  | _, [] => .isTrue trivial
  | session, action :: actions =>
    @instDecidableAnd _ _ _ (decidableUpward (session.step action).2 actions)

section

variable {session : Session} {action : Action} {commit : Commit} {path : String}
  {core row : BranchRow} {result : Except StoreError Unit × Session}

/-! ## Rows -/

theorem startsAt_of_inherits {index : RowIndex} {now t base : Timepoint} (valid : index.Valid now)
    (hp : Path.Valid path) (inherits : InheritsFrom index path t base) {parent : String}
    (above : Path.parent? path = some parent) : index.StartsAt parent base := by
  unfold InheritsFrom at inherits
  rw [above] at inherits
  obtain ⟨row, last, rfl⟩ := inherits
  rw [(valid.fits_last (Path.valid_of_parent? hp above) last).head]
  exact RowIndex.startsAt_of_last? last

theorem Effect.anchored_rows (effect : session.Effect action result) (sound : session.Sound)
    (anchored : session.Anchored) (upward : session.PromotesUp action result.1) :
    result.2.site.directory.index.Anchored := by
  have rows := anchored.rows
  have consistent := sound.site.consistent
  have valid := consistent.valid
  cases effect with
  | still _ _ _ _ index =>
    rw [index]
    exact rows
  | created path base next hp last inherits index =>
    rw [index]
    apply rows.begin hp last
    intro parent above
    exact startsAt_of_inherits valid hp inherits above
  | locked _ _ _ hp _ _ index =>
    rw [index]
    exact rows.setLocked hp true
  | unlocked _ _ _ hp _ _ index =>
    rw [index]
    exact rows.setLocked hp false
  | forced _ _ _ hp _ _ index =>
    rw [index]
    exact rows.setLocked hp false
  | forcedBoth _ _ _ _ _ hp hq _ _ index =>
    rw [index]
    exact (rows.setLocked hp false).setLocked hq false
  | opened _ _ _ _ hp _ _ index =>
    rw [index]
    exact rows.setLocked hp true
  | openedBoth _ _ _ _ _ hp hs _ _ _ _ _ index =>
    rw [index]
    exact (rows.setLocked hp true).setLocked hs true
  | completed handle commit row next there held kind single index =>
    have hc := List.mem_of_getElem? there
    have hp := (consistent.formed commit hc).valid
    have anchors := anchored.commits commit hc held.entry
    rw [index]
    exact rows.advance valid hp held.last _ _ held.before (anchors.onward row held.last)
      anchors.above
  | promoted handle commit row source sourceRow next there held double hs distinct sourceHeld
      index =>
    have hc := List.mem_of_getElem? there
    have hp := (consistent.formed commit hc).valid
    have anchors := anchored.commits commit hc held.entry
    have first := rows.advance valid hp held.last commit.timepoint
      (nextRow commit (row.close commit.timepoint) (some (sourceRow.close commit.timepoint)))
      held.before (anchors.onward row held.last) anchors.above
    -- the source goes on in an index in which the branch has gone on
    have middle := (consistent.advanced hc held (some (sourceRow.close commit.timepoint))).valid
    have base_le := (valid.fits_last hs sourceHeld.last).base_le
    have before := sourceHeld.before
    rw [index]
    refine first.advance middle hs ?_ _ _ before ?_ ?_
    · exact (RowIndex.last?_advance_of_ne _ _ _ hp hs distinct).trans sourceHeld.last
    · change sourceRow.base ≤ commit.timepoint
      lia
    · intro parent above
      rw [upward rfl commit there source double, Option.some.injEq] at above
      rw [← above]
      exact RowIndex.startsAt_of_last? (RowIndex.last?_advance_self _ _ _ hp)
  | purged _ index =>
    rw [index]
    exact RowIndex.anchored_empty
  | reopened _ _ _ index =>
    rw [index]
    exact rows

/-! ## Open commits -/

/--
A rebase is based on the current row of the parent, and any other commit as the branch is.
-/
theorem commitBase_onward {index : RowIndex} {now : Timepoint} (valid : index.Valid now)
    (anchored : index.Anchored) (hp : Path.Valid path) (kind : CommitKind)
    (last : index.last? path = some row) :
    row.base ≤ commitBase index kind path row ∧
      ∀ parent, Path.parent? path = some parent →
        index.StartsAt parent (commitBase index kind path row) := by
  have own : ∀ parent, Path.parent? path = some parent → index.StartsAt parent row.base :=
    fun parent above => anchored.above path parent hp above row.core (RowIndex.stores_of_last? last)
  by_cases moves : kind = .rebase ∧ ∃ parent, Path.parent? path = some parent
  · obtain ⟨rfl, parent, above⟩ := moves
    obtain ⟨parentRow, parentLast⟩ := (own parent above).exists_last
    have head := (valid.fits_last (Path.valid_of_parent? hp above) parentLast).head
    have moved : commitBase index .rebase path row = parentRow.start := by
      simp only [commitBase, above, parentLast, Option.map_some, Option.getD_some, head]
    rw [moved]
    refine ⟨valid.startsAt_le parentLast (own parent above), ?_⟩
    intro other same
    rw [above, Option.some.injEq] at same
    rw [← same]
    exact RowIndex.startsAt_of_last? parentLast
  · have other : kind ≠ .rebase ∨ Path.parent? path = none := by
      rw [not_and_or, not_exists] at moves
      exact moves.imp_right Option.eq_none_iff_forall_ne_some.2
    rw [commitBase_of_other row other]
    exact ⟨Int.le_refl _, own⟩

theorem anchors_of_base {index : RowIndex} {now : Timepoint} (valid : index.Valid now)
    (anchored : index.Anchored) (hp : Path.Valid path) (kind : CommitKind)
    (last : index.last? path = some row) (here : commit.branchPath = path)
    (base : commit.branch.base = commitBase index kind path row) : Anchors index commit := by
  obtain ⟨onward, above⟩ := commitBase_onward valid anchored hp kind last
  rw [← base] at onward above
  constructor
  · intro row' last'
    rw [here, last, Option.some.injEq] at last'
    rw [← last']
    exact onward
  · rw [here]
    exact above

theorem Anchors.setLocked {index : RowIndex} (h : Anchors index commit)
    (hc : Path.Valid commit.branchPath) (hp : Path.Valid path) (locked : Bool) :
    Anchors (index.setLocked path locked) commit where
  onward := by
    intro row last
    rw [RowIndex.last?_setLocked index locked hp hc] at last
    split at last
    · rename_i same
      obtain ⟨row', last', rfl⟩ := Option.map_eq_some_iff.1 last
      rw [← same] at last'
      exact h.onward row' last'
    · exact h.onward row last
  above := by
    intro parent above
    exact (h.above parent above).mono fun core stored =>
      stored.setLocked hp (Path.valid_of_parent? hc above) locked

theorem Effect.anchors_of_issued (effect : session.Effect action result) (sound : session.Sound)
    (anchored : session.Anchored) (handles : result.2.commits = session.commits ++ [commit]) :
    Anchors result.2.site.directory.index commit := by
  have valid := sound.site.consistent.valid
  -- most actions give out no handle
  have given : result.2.commits.length ≠ session.commits.length := by simp [handles]
  cases effect with
  | still _ _ _ _ _ _ same =>
    have lengths := congrArg List.length same
    simp only [List.length_map] at lengths
    exact absurd lengths given
  | opened path kind row next hp last unlocked index _ issued =>
    have rowPath := (valid.fits_last hp last).path
    have hc : Path.Valid row.path := rowPath.symm ▸ hp
    rw [issued] at handles
    rw [← List.singleton_inj.1 (List.append_cancel_left handles), index]
    have anchors : Anchors session.site.directory.index (openedCommit session.site path kind row) :=
      anchors_of_base valid anchored.rows hp kind last rowPath rfl
    exact anchors.setLocked hc hp true
  | openedBoth path source row sourceRow next hp hs distinct last unlocked _ _ index _ issued =>
    have rowPath := (valid.fits_last hp last).path
    have hc : Path.Valid row.path := rowPath.symm ▸ hp
    rw [issued] at handles
    rw [← List.singleton_inj.1 (List.append_cancel_left handles), index]
    have anchors : Anchors session.site.directory.index
        (openedPromotion session.site source row) :=
      anchors_of_base valid anchored.rows hp .promotion last rowPath rfl
    exact (anchors.setLocked hc hp true).setLocked hc hs true
  | reopened _ _ _ _ _ lost => simp [lost] at handles
  | _ => exact absurd (congrArg List.length ‹_ = session.commits›) given

/--
Where a commit is still open, no row was lost.
-/
theorem Effect.stores_of_open (effect : session.Effect action result) (sound : session.Sound)
    (open' : commit.IsOpen result.2.site.directory.openCommits) (hp : Path.Valid path)
    (stored : session.site.directory.index.Stores path core) :
    result.2.site.directory.index.Stores path core := by
  by_cases purges : action = .purge
  · subst purges
    cases effect with
    | still _ _ _ _ index =>
      rw [index]
      exact stored
    | purged _ _ openCommits =>
      rw [openCommits] at open'
      cases open'
  · exact effect.stores sound purges hp stored

theorem Effect.anchors_of_open (effect : session.Effect action result) (sound : session.Sound)
    (soundAfter : result.2.Sound) {before : Commit} (hb : before ∈ session.commits)
    (hc : commit ∈ result.2.commits) (bare : before.bare = commit.bare)
    (opened : before.IsOpen session.site.directory.openCommits)
    (open' : commit.IsOpen result.2.site.directory.openCommits)
    (anchors : Anchors session.site.directory.index before) :
    Anchors result.2.site.directory.index commit := by
  obtain ⟨branch, -⟩ := Commit.bare_eq_iff.1 bare
  have here : before.branchPath = commit.branchPath := congrArg BranchRow.path branch
  have hp := (sound.site.consistent.formed before hb).valid
  -- the branch stays at the row that the commit has locked
  obtain ⟨row, held, -⟩ := (sound.site.consistent.live before hb opened).branch
  obtain ⟨row', held', -⟩ := (soundAfter.site.consistent.live commit hc open').branch
  have kept := effect.stores_of_open sound open' hp (RowIndex.stores_of_last? held.last)
  rw [here] at kept
  have start : row.core.start = row'.start := by
    change row.start = row'.start
    rw [held.start, held'.start, branch]
  have same := soundAfter.site.consistent.valid.core_eq_last held'.last kept start
  constructor
  · intro last known
    rw [held'.last, Option.some.injEq] at known
    have base := (BranchRow.core_eq_iff.1 same).2.1
    rw [← known, ← base, ← branch]
    exact anchors.onward row held.last
  · intro parent above
    rw [← here] at above
    rw [← branch]
    exact (anchors.above parent above).mono fun core stored =>
      effect.stores_of_open sound open' (Path.valid_of_parent? hp above) stored

theorem Effect.anchored (effect : session.Effect action result) (sound : session.Sound)
    (soundAfter : result.2.Sound) (upward : session.PromotesUp action result.1)
    (anchored : session.Anchored) : result.2.Anchored where
  rows := effect.anchored_rows sound anchored upward
  commits := by
    intro commit hc open'
    have kept : ∀ before ∈ session.commits, before.bare = commit.bare →
        Anchors result.2.site.directory.index commit := by
      intro before hb bare
      have opened := effect.opens sound hb ((isOpen_iff_of_bare bare).2 open')
      exact effect.anchors_of_open sound soundAfter hb hc bare opened open'
        (anchored.commits before hb opened)
    rcases effect.commits sound with same | ⟨issued, handles, -⟩ | ⟨-, lost⟩
    · have mem := List.mem_map_of_mem (f := Commit.bare) hc
      rw [same] at mem
      obtain ⟨before, hb, bare⟩ := List.mem_map.1 mem
      exact kept before hb bare
    · rcases List.mem_append.1 (handles ▸ hc) with hb | new
      · exact kept commit hb rfl
      · rw [← List.mem_singleton.1 new] at handles
        exact effect.anchors_of_issued sound anchored handles
    · simp [lost] at hc

theorem New.anchored (new : session.New) : session.Anchored where
  rows := by
    obtain ⟨-, -, file, cacheSize, directory, -⟩ := new
    rw [directory]
    exact RowIndex.anchored_empty
  commits := by
    rw [new.1]
    simp

theorem anchored_run {actions : List Action} (sound : session.Sound) (anchored : session.Anchored)
    (permitted : session.Permits actions) (upward : session.Upward actions) :
    (session.run actions).Anchored := by
  induction actions generalizing session with
  | nil => exact anchored
  | cons action actions ih =>
    obtain ⟨allowed, rest⟩ := permitted
    obtain ⟨first, upward⟩ := upward
    have sound' := (stays_step sound allowed).sound
    have step := (effect_step sound allowed).anchored sound sound' first anchored
    exact ih sound' step rest upward

end

end TemporalStore.Session
