import TemporalStore.Proofs.Directory.Failure
import TemporalStore.Proofs.Directory.Open
import TemporalStore.Proofs.Directory.SoundCommit
import TemporalStore.Proofs.Timeline.Ledger

/-!
This module contains what each operation means for a ledger: whatever happens to the current rows is
known from the milestones alone, and rows that are closed stay as they are.
-/

namespace TemporalStore

/--
The current rows are the same but for their locks, and no history is lost.
-/
structure RowIndex.SameButLocks (index index' : RowIndex) : Prop where
  outlines : ∀ path, Path.Valid path → index'.outline? path = index.outline? path
  keeps : index.KeepsHistory index'

/--
A commit ends the current row of each branch that it touches and puts one row after it. The rows of
other branches stay as they are.
-/
structure RowIndex.Closes (index index' : RowIndex) (commit : Commit) : Prop where
  touched : ∀ path, commit.Touches path → ∃ closed row new,
    index.timeline path = closed ++ [row] ∧
    index'.timeline path = closed ++ [row.close commit.timepoint, new] ∧
    new.start = commit.timepoint
  others : ∀ path, Path.Valid path → ¬ commit.Touches path →
    index'.timeline path = index.timeline path

namespace RowIndex

variable {index index' index'' : RowIndex} {now : Timepoint}

theorem SameButLocks.refl (index : RowIndex) : index.SameButLocks index where
  outlines _ _ := rfl
  keeps := .refl index

theorem SameButLocks.trans (h : index.SameButLocks index') (h' : index'.SameButLocks index'') :
    index.SameButLocks index'' where
  outlines path hp := (h'.outlines path hp).trans (h.outlines path hp)
  keeps := h.keeps.trans h'.keeps

theorem Valid.sameButLocks_setLocked {path : String} (h : index.Valid now) (hp : Path.Valid path)
    (locked : Bool) : index.SameButLocks (index.setLocked path locked) where
  outlines _ hq := outline?_setLocked index locked hp hq
  keeps := h.keepsHistory_setLocked path locked

end RowIndex

namespace Ledger

/--
The ledger knows on which base the branch of a commit will be when the commit is completed.
-/
def Pledges (ledger : Ledger) (commit : Commit) : Prop :=
  ∃ outline, ledger.branches.get? commit.branchPath = some outline ∧
    commit.branch.base = match commit.kind with
      | .rebase => ledger.baseAfter commit.branchPath commit.timepoint outline
      | _ => outline.base

/--
What a ledger has of a directory whose handles are `commits`.
-/
structure Accounts (ledger : Ledger) (site : Site) (commits : List Commit) : Prop where
  describes : ledger.Describes site.directory.index
  pledges : ∀ commit ∈ commits, commit.IsOpen site.directory.openCommits → ledger.Pledges commit
  sources : ∀ commit ∈ commits, commit.kind = .promotion ∨ commit.source = none

def after (ledger : Ledger) (milestone : Option Milestone) : Ledger :=
  milestone.elim ledger ledger.record

variable {ledger ledger' : Ledger} {index index' : RowIndex}

theorem Describes.of_sameButLocks (h : ledger.Describes index)
    (same : index.SameButLocks index') : ledger.Describes index' :=
  fun path hp => (h path hp).trans (same.outlines path hp).symm

theorem Pledges.of_bare {commit other : Commit} (h : ledger.Pledges commit)
    (same : commit.bare = other.bare) : ledger.Pledges other := by
  obtain ⟨branch, time, kind, -⟩ := Commit.bare_eq_iff.1 same
  unfold Pledges Commit.branchPath at h ⊢
  rw [← branch, ← time, ← kind]
  exact h

/--
Pledges do not depend on other branches and other rebases.
-/
theorem Pledges.of_get?_eq {commit : Commit} (h : ledger.Pledges commit)
    (branch : ledger'.branches.get? commit.branchPath = ledger.branches.get? commit.branchPath)
    (base : ledger'.bases.get? commit.timepoint = ledger.bases.get? commit.timepoint) :
    ledger'.Pledges commit := by
  obtain ⟨outline, known, pledged⟩ := h
  refine ⟨outline, branch.trans known, ?_⟩
  unfold baseAfter at pledged ⊢
  rw [base]
  exact pledged

theorem Pledges.put {commit : Commit} {path : String} {outline : Outline}
    (h : ledger.Pledges commit) (other : commit.branchPath ≠ path) :
    (ledger.put path outline).Pledges commit :=
  h.of_get?_eq (get?_put.trans (if_neg other)) rfl

end Ledger

/--
A milestone, or none, says all that has happened as far as a ledger is concerned.
-/
structure Noted (milestone : Option Milestone) (site site' : Site)
    (commits commits' : List Commit) : Prop where
  accounts : ∀ ledger : Ledger, ledger.Accounts site commits →
    (ledger.after milestone).Accounts site' commits'
  keeps : milestone ≠ some .purged → site.directory.index.KeepsHistory site'.directory.index

namespace Directory

open Ledger (Accounts Pledges Describes)

variable {site site' : Site} {commits commits' : List Commit} {path : String} {ledger : Ledger}

/-! ## Nothing to take note of -/

theorem noted_none (same : site.directory.index.SameButLocks site'.directory.index)
    (handles : ∀ commit ∈ commits', ∃ before ∈ commits, before.bare = commit.bare ∧
      (commit.IsOpen site'.directory.openCommits → before.IsOpen site.directory.openCommits)) :
    Noted none site site' commits commits' where
  keeps _ := same.keeps
  accounts ledger h := by
    constructor
    · exact h.describes.of_sameButLocks same
    · intro commit hc open'
      obtain ⟨before, hb, bare, open''⟩ := handles commit hc
      exact (h.pledges before hb (open'' open')).of_bare bare
    · intro commit hc
      obtain ⟨before, hb, bare, -⟩ := handles commit hc
      obtain ⟨-, -, kind, source⟩ := Commit.bare_eq_iff.1 bare
      rw [← kind, ← source]
      exact h.sources before hb

/--
The same handles were given out, and those that are open were open before.
-/
theorem noted_same (same : site.directory.index.SameButLocks site'.directory.index)
    (entries : ∀ path t, site'.directory.openCommits.get? path = some t →
      site.directory.openCommits.get? path = some t) : Noted none site site' commits commits :=
  noted_none same fun commit hc => ⟨commit, hc, rfl, entries _ _⟩

theorem noted_of_eq (index : site'.directory.index = site.directory.index)
    (openCommits : site'.directory.openCommits = site.directory.openCommits) :
    Noted none site site' commits commits := by
  apply noted_same
  · rw [index]
    exact .refl _
  · rw [openCommits]
    exact fun _ _ => id

theorem noted_error {α : Type} {op : Operation α} {e : StoreError} (h : site.Sound commits)
    (failed : op.perform site = .error e site') : Noted none site site' commits commits := by
  obtain ⟨heard, rests, -⟩ := (unharmed_of_error h failed).heard
  exact noted_of_eq rests.index rests.openCommits

theorem noted_relocked (h : site.Sound commits) (hp : Path.Valid path) (locked : Bool)
    (index : site'.directory.index = site.directory.index.setLocked path locked)
    (openCommits : site'.directory.openCommits = site.directory.openCommits) :
    Noted none site site' commits commits := by
  apply noted_same
  · rw [index]
    exact h.consistent.valid.sameButLocks_setLocked hp locked
  · rw [openCommits]
    exact fun _ _ => id

theorem noted_lock {row : BranchRow} (h : site.Sound commits) (hp : Path.Valid path)
    (ok : lock path site = .ok row site') : Noted none site site' commits commits := by
  have out := lock_outcome h.consistent.valid hp
  rw [ok] at out
  cases out with
  | taken row host last unlocked kept => exact noted_relocked h hp true rfl rfl

theorem noted_unlock (h : site.Sound commits) (hp : Path.Valid path)
    (ok : unlock path site = .ok () site') : Noted none site site' commits commits := by
  cases entry : site.directory.openCommits.get? path with
  | some t =>
    rw [unlock_of_open entry] at ok
    cases ok
  | none =>
    have out := release_outcome h.consistent.valid hp
    rw [unlock_of_free entry, releaseAnnounced_eq] at ok
    cases released : release path site with
    | error e middle => simp [released] at ok
    | ok wasLocked middle =>
      rw [released] at ok out
      cases ok
      cases out with
      | done row host last kept => exact noted_relocked h hp false rfl rfl

theorem noted_forceUnlock (h : site.Sound commits) (hp : Path.Valid path)
    (ok : forceUnlock path site = .ok () site') : Noted none site site' commits commits := by
  have valid := h.consistent.valid
  have out := forceUnlock_outcome valid hp (partners_of_consistent h.consistent path)
  rw [ok] at out
  cases out with
  | alone row host last kept others =>
    apply noted_same
    · exact valid.sameButLocks_setLocked hp false
    · intro q t entry
      exact (OrderedMap.get?_erase_eq_some_iff.1 entry).2
  | together row host partner t other host' last kept others last' kept' =>
    have hq := h.consistent.valid_of_entry (get?_of_partners others).2.1
    apply noted_same
    · exact (valid.sameButLocks_setLocked hp false).trans
        ((valid.setLocked hp false).sameButLocks_setLocked hq false)
    · intro q u entry
      have entry := (OrderedMap.get?_erase_eq_some_iff.1 entry).2
      exact (OrderedMap.get?_erase_eq_some_iff.1 entry).2

theorem noted_save {u : Unit} (ok : save site = .ok u site') :
    Noted none site site' commits commits := by
  rw [save_eq] at ok
  cases kept : site.persisted site.directory.index with
  | error e host => simp [persist_error kept] at ok
  | ok u host =>
    rw [persist_ok kept] at ok
    cases ok
    exact noted_of_eq rfl rfl

/-! ## Milestones -/

theorem Describes.getD_parentHead? {index : RowIndex} {t base : Timepoint}
    (h : ledger.Describes index) (hp : Path.Valid path) (inherits : InheritsFrom index path t base) :
    (ledger.parentHead? path).getD t = base := by
  rw [h.parentHead?_eq hp]
  unfold InheritsFrom at inherits
  cases above : Path.parent? path with
  | none =>
    rw [above] at inherits
    exact inherits.symm
  | some parent =>
    rw [above] at inherits
    obtain ⟨parentRow, last, head⟩ := inherits
    rw [Option.bind_some, last, head]
    rfl

theorem noted_create {row : BranchRow} (h : site.Sound commits) (hp : Path.Valid path)
    (ok : create path site = .ok row site') :
    Noted (some (.created path site'.directory.clock.last)) site site' commits commits := by
  have out := create_outcome h.consistent.valid hp
  rw [ok] at out
  cases out with
  | created base host last inherits kept =>
    change Noted (some (.created path (nextTimepoint site))) _ _ _ _
    refine ⟨?_, fun _ => RowIndex.keepsHistory_begin last _⟩
    intro ledger accounts
    have free := h.consistent.get?_eq_none_of_absent last
    constructor
    · apply accounts.describes.put_begin hp
      rw [Describes.getD_parentHead? accounts.describes hp inherits]
      rfl
    · intro commit hc open'
      apply (accounts.pledges commit hc open').put
      -- the branch of a commit that is open is there
      intro same
      have entry : site.directory.openCommits.get? commit.branchPath = _ := open'
      rw [same, free] at entry
      cases entry
    · exact accounts.sources

theorem noted_purge {n : Nat} (ok : purge site = .ok n site') :
    Noted (some .purged) site site' commits commits := by
  have out := purge_outcome site
  rw [ok] at out
  cases out with
  | done host kept =>
    constructor
    · intro ledger accounts
      constructor
      · intro path _
        rfl
      · intro commit _ open'
        cases open'
      · exact accounts.sources
    · intro not
      exact absurd rfl not

/--
What opening a commit is for a ledger. Only a rebase needs to be remembered.
-/
def opening (commit : Commit) : Option Milestone :=
  if commit.kind = .rebase then some (.rebasing commit.branchPath commit.timepoint) else none

theorem pledges_of_other {commit : Commit} {outline : Outline}
    (known : ledger.branches.get? commit.branchPath = some outline)
    (base : commit.branch.base = outline.base)
    (other : commit.kind ≠ .rebase ∨ Path.parent? commit.branchPath = none) :
    ledger.Pledges commit := by
  refine ⟨outline, known, ?_⟩
  cases kind : commit.kind with
  | content => exact base
  | promotion => exact base
  | rebase =>
    rcases other with other | root
    · exact absurd kind other
    · simp only [Ledger.baseAfter, root]
      exact base

/--
Opening a commit leaves the branches and the other rebases of a ledger alone.
-/
theorem after_opening {index : RowIndex} {now : Timepoint} {commit : Commit} {row : BranchRow}
    (describes : ledger.Describes index) (valid : index.Valid now)
    (hp : Path.Valid commit.branchPath) (last : index.last? commit.branchPath = some row)
    (base : commit.branch.base = commitBase index commit.kind commit.branchPath row) :
    (ledger.after (opening commit)).branches = ledger.branches ∧
      (∀ t ≠ commit.timepoint,
        (ledger.after (opening commit)).bases.get? t = ledger.bases.get? t) ∧
      (ledger.after (opening commit)).Pledges commit := by
  have known := describes.get?_of_last? hp last
  by_cases other : commit.kind ≠ .rebase ∨ Path.parent? commit.branchPath = none
  · have nothing : ledger.after (opening commit) = ledger := by
      unfold opening
      split
      · rename_i kind
        have root := other.resolve_left (not_not_intro kind)
        simp [Ledger.after, Ledger.record, Ledger.parentHead?, root]
      · rfl
    rw [nothing]
    rw [commitBase_of_other row other] at base
    exact ⟨rfl, fun _ _ => rfl, pledges_of_other known base other⟩
  · simp only [not_or, not_not, ← ne_eq, Option.ne_none_iff_exists'] at other
    obtain ⟨kind, parent, above⟩ := other
    -- the parent is there, since every row of a branch has one
    obtain ⟨closed, hc⟩ := RowIndex.eq_append_of_last? last
    obtain ⟨first, hf, -⟩ := valid.parents _ parent hp above row (by simp [hc])
    obtain ⟨parentRow, parentLast⟩ := RowIndex.last?_isSome_of_first? hf
    have head : ledger.parentHead? commit.branchPath = some parentRow.head := by
      rw [describes.parentHead?_eq hp, above, Option.bind_some, parentLast]
      rfl
    have noted : ledger.after (opening commit) =
        { ledger with bases := ledger.bases.insert commit.timepoint parentRow.head } := by
      unfold opening
      rw [if_pos kind]
      simp only [Ledger.after, Option.elim_some, Ledger.record, head]
    rw [noted]
    refine ⟨rfl, fun t other => OrderedMap.get?_insert_of_ne other, row.outline, known, ?_⟩
    simp only [base, commitBase, kind, above, parentLast, Ledger.baseAfter,
      OrderedMap.get?_insert_self, Option.map_some, Option.getD_some]

theorem noted_opened {commit : Commit} {row : BranchRow} (h : site.Sound commits)
    (hp : Path.Valid commit.branchPath)
    (same : site.directory.index.SameButLocks site'.directory.index)
    (last : site.directory.index.last? commit.branchPath = some row)
    (base : commit.branch.base =
      commitBase site.directory.index commit.kind commit.branchPath row)
    (later : site.directory.clock.last < commit.timepoint)
    (entries : ∀ c ∈ commits, c.IsOpen site'.directory.openCommits ↔
      c.IsOpen site.directory.openCommits)
    (source : commit.kind = .promotion ∨ commit.source = none) :
    Noted (opening commit) site site' commits (commits ++ [commit]) := by
  refine ⟨?_, fun _ => same.keeps⟩
  intro ledger accounts
  obtain ⟨branches, bases, pledged⟩ :=
    after_opening accounts.describes h.consistent.valid hp last base
  constructor
  · intro path hp
    rw [branches]
    exact accounts.describes.of_sameButLocks same path hp
  · intro c hc open'
    rcases List.mem_append.1 hc with hc | hc
    · have earlier := (h.consistent.formed c hc).le_now
      apply (accounts.pledges c hc ((entries c hc).1 open')).of_get?_eq
      · rw [branches]
      · exact bases c.timepoint (by lia)
    · rw [List.mem_singleton.1 hc]
      exact pledged
  · intro c hc
    rcases List.mem_append.1 hc with hc | hc
    · exact accounts.sources c hc
    · rw [List.mem_singleton.1 hc]
      exact source

theorem noted_openCommit {kind : CommitKind} {commit : Commit} (h : site.Sound commits)
    (hp : Path.Valid path) (ok : openCommit path kind site = .ok commit site') :
    Noted (if kind = .rebase then some (.rebasing path site'.directory.clock.last) else none)
      site site' commits (commits ++ [commit]) := by
  have valid := h.consistent.valid
  have out := openCommit_outcome valid h.agrees hp kind
  have opened := opening_openCommit h hp kind
  have later := last_lt_ticked site
  rw [ok] at out opened
  cases opened with
  | ok _ _ file isOpen entries =>
    cases out with
    | opened row host history last unlocked kept agrees =>
      have rowPath : row.path = path := (valid.fits_last hp last).path
      have same := valid.sameButLocks_setLocked hp true
      subst rowPath
      exact @noted_opened site _ commits (openedCommit site row.path kind row) row h hp same last
        rfl later entries (.inr rfl)

theorem noted_openPromotion {source : String} {commit : Commit} (h : site.Sound commits)
    (hp : Path.Valid path) (hs : Path.Valid source)
    (ok : openPromotion path source site = .ok commit site') :
    Noted none site site' commits (commits ++ [commit]) := by
  have valid := h.consistent.valid
  have out := openPromotion_outcome valid hp hs
  have opened := opening_openPromotion h hp hs
  have later := last_lt_ticked site
  rw [ok] at out opened
  cases opened with
  | ok _ _ file isOpen entries =>
    cases out with
    | opened row other host host' distinct last unlocked kept last' unlocked' kept' =>
      have rowPath : row.path = path := (valid.fits_last hp last).path
      have same := (valid.sameButLocks_setLocked hp true).trans
        ((valid.setLocked hp true).sameButLocks_setLocked hs true)
      subst rowPath
      exact @noted_opened site _ commits (openedPromotion site source row) row h hp same last
        rfl later entries (.inl rfl)

/-! ## Completion -/

section

variable {index : RowIndex} {now : Timepoint} {commit : Commit} {row : BranchRow}

theorem closes_completed (formed : commit.Formed now)
    (last : index.last? commit.branchPath = some row) (single : commit.source = none) :
    index.Closes (completedIndex index commit row) commit := by
  obtain ⟨rows, hr⟩ := RowIndex.eq_append_of_last? last
  constructor
  · rintro path (rfl | double)
    · exact ⟨rows, row, _, hr, RowIndex.timeline_advance_self hr, rfl⟩
    · rw [single] at double
      cases double
  · intro path hp not
    exact RowIndex.timeline_advance_of_ne _ _ _ formed.valid hp fun same => not (.inl same)

theorem closes_promoted {source : String} {sourceRow : BranchRow} (formed : commit.Formed now)
    (last : index.last? commit.branchPath = some row) (double : commit.source = some source)
    (sourceLast : index.last? source = some sourceRow) :
    index.Closes (promotedIndex index commit row source sourceRow) commit := by
  obtain ⟨hs, distinct⟩ := formed.source source double
  obtain ⟨rows, hr⟩ := RowIndex.eq_append_of_last? last
  obtain ⟨rows', hr'⟩ := RowIndex.eq_append_of_last? sourceLast
  constructor
  · rintro path (rfl | double')
    · refine ⟨rows, row, nextRow commit (row.close commit.timepoint)
        (some (sourceRow.close commit.timepoint)), hr, ?_, rfl⟩
      apply (RowIndex.timeline_advance_of_ne _ _ _ hs formed.valid (Ne.symm distinct)).trans
      exact RowIndex.timeline_advance_self hr
    · cases Option.some.inj (double.symm.trans double')
      refine ⟨rows', sourceRow, BranchRow.fresh source commit.timepoint commit.timepoint, hr', ?_,
        rfl⟩
      apply RowIndex.timeline_advance_self
      exact (RowIndex.timeline_advance_of_ne _ _ _ formed.valid hs distinct).trans hr'
  · intro path hp not
    have notSource : path ≠ source := fun same => not (.inr (same ▸ double))
    apply (RowIndex.timeline_advance_of_ne _ _ _ hs hp notSource).trans
    exact RowIndex.timeline_advance_of_ne _ _ _ formed.valid hp fun same => not (.inl same)

theorem closes_complete {new : BranchRow} (h : site.Sound commits) (hc : commit ∈ commits)
    (ok : complete commit site = .ok new site') :
    site.directory.index.Closes site'.directory.index commit := by
  have formed := h.consistent.formed commit hc
  have out := h.consistent.complete_cases hc
  rw [ok] at out
  cases out with
  | alone row _ held _ _ single written =>
    cases written with
    | completed host kept => exact closes_completed formed held.last single
  | promotion row source sourceRow _ held _ double _ _ sourceHeld written =>
    cases written with
    | completed host kept => exact closes_promoted formed held.last double sourceHeld.last

theorem outline_nextRow (commit : Commit) (closed : BranchRow) (source : Option BranchRow) :
    (nextRow commit closed source).outline = {
      base := commit.branch.base
      head := commit.timepoint
      containsContent := commit.kind ≠ .rebase || closed.containsContent
      replaced := closed.replaced ∪ commit.replaced ∪ source.elim ∅ BranchRow.replaced } := rfl

/--
The ledger knows which row a commit puts in place of the current one.
-/
theorem after_alone (pledged : ledger.Pledges commit)
    (known : ledger.branches.get? commit.branchPath = some row.outline)
    (kind : commit.kind ≠ .promotion) :
    ledger.after commit.milestone? = ledger.put commit.branchPath
      (nextRow commit (row.close commit.timepoint) none).outline := by
  obtain ⟨outline, known', base⟩ := pledged
  cases Option.some.inj (known.symm.trans known')
  unfold Commit.milestone?
  cases content : commit.kind with
  | promotion => exact absurd content kind
  | content =>
    simp only [content] at base
    simp only [Ledger.after, Option.elim_some, Ledger.record]
    rw [Ledger.alter_of_get? _ known, outline_nextRow, base, content]
    rfl
  | rebase =>
    simp only [content] at base
    simp only [Ledger.after, Option.elim_some, Ledger.record]
    rw [Ledger.alter_of_get? _ known, outline_nextRow, base, content]
    rfl

theorem after_promotion {source : String} {sourceRow : BranchRow} (pledged : ledger.Pledges commit)
    (known : ledger.branches.get? commit.branchPath = some row.outline)
    (sourceKnown : ledger.branches.get? source = some sourceRow.outline)
    (kind : commit.kind = .promotion) (double : commit.source = some source) :
    ledger.after commit.milestone? =
      (ledger.put commit.branchPath (nextRow commit (row.close commit.timepoint)
        (some (sourceRow.close commit.timepoint))).outline).put source
          (.begun commit.timepoint commit.timepoint) := by
  obtain ⟨outline, known', base⟩ := pledged
  cases Option.some.inj (known.symm.trans known')
  simp only [kind] at base
  have hidden : ledger.hiddenOn source = sourceRow.replaced := by
    unfold Ledger.hiddenOn
    rw [sourceKnown]
    rfl
  unfold Commit.milestone?
  simp only [kind, double, Ledger.after, Option.elim_some, Ledger.record]
  rw [Ledger.alter_of_get? _ known, outline_nextRow, base, kind, hidden]
  unfold Outline.edited Outline.committed
  rw [← OrderedSet.union_assoc]
  rfl

theorem noted_complete {new : BranchRow} (h : site.Sound commits) (hc : commit ∈ commits)
    (ok : complete commit site = .ok new site') :
    Noted commit.milestone? site site' commits commits := by
  have formed := h.consistent.formed commit hc
  have valid := h.consistent.valid
  have out := h.consistent.complete_cases hc
  rw [ok] at out
  cases out with
  | alone row _ held _ kind single written =>
    cases written with
    | completed host kept =>
      refine ⟨?_, fun _ => keepsHistory_completed valid held.last⟩
      intro ledger accounts
      have pledged := accounts.pledges commit hc held.entry
      have known := accounts.describes.get?_of_last? formed.valid held.last
      rw [after_alone pledged known kind]
      constructor
      · exact accounts.describes.put_advance _ formed.valid rfl
      · intro other ho open'
        obtain ⟨entry, not⟩ := Consistent.remaining_iff.1 open'
        exact (accounts.pledges other ho entry).put fun same => not (.inl same)
      · exact accounts.sources
  | promotion row source sourceRow _ held _ double hs distinct sourceHeld written =>
    cases written with
    | completed host kept =>
      refine ⟨?_, fun _ => keepsHistory_promoted h.consistent hc held sourceHeld double⟩
      intro ledger accounts
      have pledged := accounts.pledges commit hc held.entry
      have known := accounts.describes.get?_of_last? formed.valid held.last
      have sourceKnown := accounts.describes.get?_of_last? hs sourceHeld.last
      have kind : commit.kind = .promotion := by
        rcases accounts.sources commit hc with kind | single
        · exact kind
        · rw [single] at double
          cases double
      rw [after_promotion pledged known sourceKnown kind double]
      constructor
      · exact (accounts.describes.put_advance _ formed.valid rfl).put_advance _ hs rfl
      · intro other ho open'
        obtain ⟨entry, not⟩ := Consistent.remaining_iff.1 open'
        exact ((accounts.pledges other ho entry).put fun same => not (.inl same)).put
          fun same => not (.inr (same ▸ double))
      · exact accounts.sources

end

end Directory

end TemporalStore
