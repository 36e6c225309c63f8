import TemporalStore.Proofs.Session.Commits
import TemporalStore.Proofs.Session.Effect
import TemporalStore.Proofs.Session.Visible
import TemporalStore.Proofs.Timeline.Rows
import TemporalStore.Proofs.Visibility.Inheritance
import TemporalStore.Proofs.Visibility.Written

/-!
This module contains who sees what is written under a commit before the commit is completed. A
branch inherits from its parent as of its base, so it all comes down to whether that base lies
before the commits that are open on the parent.
-/

namespace TemporalStore

namespace RowIndex

/--
A row of the branch is based there.
-/
def HasBase (index : RowIndex) (path : String) (base : Timepoint) : Prop :=
  ∃ row ∈ index.timeline path, row.base = base

section

variable {index : RowIndex} {now base : Timepoint} {path q : String} {row new core : BranchRow}

theorem hasBase_of_stores (stored : index.Stores path core) : index.HasBase path core.base := by
  obtain ⟨row, mem, rfl⟩ := stored
  exact ⟨row, mem, rfl⟩

theorem HasBase.exists_stores (h : index.HasBase path base) :
    ∃ core, index.Stores path core ∧ core.base = base := by
  obtain ⟨row, mem, rfl⟩ := h
  exact ⟨row.core, stores_of_mem mem, rfl⟩

theorem hasBase_put {rows : List BranchRow} (hp : Path.Valid path) (hq : Path.Valid q)
    (h : (index.put path rows).HasBase q base) :
    index.HasBase q base ∨ q = path ∧ ∃ row ∈ rows, row.base = base := by
  obtain ⟨core, stored, rfl⟩ := h.exists_stores
  rcases stores_put hp hq stored with stored | ⟨here, row, mem, rfl⟩
  · exact .inl (hasBase_of_stores stored)
  · exact .inr ⟨here, row, mem, rfl⟩

theorem hasBase_setLocked {locked : Bool} (hp : Path.Valid path) (hq : Path.Valid q)
    (h : (index.setLocked path locked).HasBase q base) : index.HasBase q base := by
  obtain ⟨core, stored, rfl⟩ := h.exists_stores
  exact hasBase_of_stores (stores_setLocked hp hq stored)

theorem hasBase_advance {t : Timepoint} (hp : Path.Valid path) (hq : Path.Valid q)
    (last : index.last? path = some row)
    (h : (index.advance path (row.close t) new).HasBase q base) :
    index.HasBase q base ∨ q = path ∧ new.base = base := by
  obtain ⟨core, stored, rfl⟩ := h.exists_stores
  rcases stores_advance hp hq last stored with stored | ⟨here, rfl⟩
  · exact .inl (hasBase_of_stores stored)
  · exact .inr ⟨here, rfl⟩

theorem Valid.base_le_of_hasBase (h : index.Valid now) (hp : Path.Valid path)
    (based : index.HasBase path base) : base ≤ now := by
  obtain ⟨row, mem, rfl⟩ := based
  have fits := h.fits path hp row mem
  exact Int.le_trans fits.base_le fits.start_le

end

/--
What a row inherits from an ancestor is bounded by the base of a row of the branch below that
ancestor.
-/
theorem Valid.exists_below_of_mem_levels {index : RowIndex} {now base : Timepoint} {path : String}
    (h : index.Valid now) (hp : Path.Valid path)
    (based : index.HasBase path base) {hidden : OrderedSet VersionId} {level : Level}
    (mem : level ∈ index.levels (Path.ancestors path) base hidden) :
    ∃ below ∈ path :: Path.ancestors path, Path.parent? below = some level.path ∧
      index.HasBase below level.timepoint := by
  cases above : Path.parent? path with
  | none =>
    rw [Path.ancestors_of_parent?_eq_none above] at mem
    simp [levels] at mem
  | some parent =>
    have shorter := Path.length_lt_of_parent? above
    have valid := Path.valid_of_parent? hp above
    rw [Path.ancestors_of_parent?_eq_some above] at mem ⊢
    unfold levels at mem
    cases covering : index.covering? parent base with
    | none => simp [covering] at mem
    | some row =>
      obtain ⟨stored, -⟩ := h.covering?_eq_some_iff.1 covering
      rw [covering] at mem
      rcases List.mem_cons.1 mem with rfl | mem
      · refine ⟨path, List.mem_cons_self, ?_, based⟩
        rw [(h.fits parent valid row stored).path]
        exact above
      · obtain ⟨below, among, known⟩ :=
          h.exists_below_of_mem_levels valid ⟨row, stored, rfl⟩ mem
        exact ⟨below, List.mem_cons_of_mem _ among, known⟩
termination_by path.toList.length

end RowIndex

namespace Commit

/--
The document bears the stamp of the commit.
-/
def Wrote (commit : Commit) (d : Document) : Prop :=
  d.path = commit.flatBranchPath ∧ d.start = commit.timepoint

/--
A promotion that takes the content of a branch past the parent of that branch.
-/
def Bypasses (promotion : Commit) (path : String) : Prop :=
  promotion.source = some path ∧ Path.parent? path ≠ some promotion.branchPath

instance (commit : Commit) (openCommits : OrderedMap String Timepoint) :
    Decidable (commit.IsOpen openCommits) :=
  inferInstanceAs (Decidable (openCommits.get? commit.branchPath = some commit.timepoint))

instance (commit : Commit) (d : Document) : Decidable (commit.Wrote d) :=
  inferInstanceAs (Decidable (_ ∧ _))

theorem Bypasses.of_bare {promotion other : Commit} {path : String}
    (h : promotion.Bypasses path) (same : other.bare = promotion.bare) : other.Bypasses path := by
  obtain ⟨branch, -, -, source⟩ := bare_eq_iff.1 same
  unfold Bypasses branchPath
  rw [branch, source]
  exact h

end Commit

namespace Session

open Directory

/--
A base from which nothing that is written under the commit is inherited, or that of a promotion
which has bypassed the commit.
-/
def Shields (commits : List Commit) (commit : Commit) (path : String) (base : Timepoint) : Prop :=
  base < commit.timepoint ∨ ∃ promotion ∈ commits, promotion.Bypasses path ∧
    promotion.timepoint = base ∧ commit.timepoint < base

/--
A row of the branch is based there, or will be when a commit is completed.
-/
def Offers (session : Session) (path : String) (base : Timepoint) : Prop :=
  session.site.directory.index.HasBase path base ∨
    ∃ other ∈ session.commits, other.branchPath = path ∧ other.branch.base = base

def Shielded (session : Session) : Prop :=
  ∀ commit ∈ session.commits, commit.IsOpen session.site.directory.openCommits →
    ∀ path base, Path.Valid path → Path.parent? path = some commit.branchPath →
      session.Offers path base → Shields session.commits commit path base

section

variable {session next : Session} {action : Action} {commit : Commit} {path : String}
  {base : Timepoint}

theorem Shields.of_bare {commits commits' : List Commit} {commit' : Commit}
    (h : Shields commits commit path base)
    (same : commits'.map Commit.bare = commits.map Commit.bare)
    (alike : commit'.bare = commit.bare) : Shields commits' commit' path base := by
  obtain ⟨-, time, -⟩ := Commit.bare_eq_iff.1 alike
  unfold Shields
  rw [time]
  rcases h with before | ⟨promotion, hp, bypasses, based, later⟩
  · exact .inl before
  · have mem := List.mem_map_of_mem (f := Commit.bare) hp
    rw [← same] at mem
    obtain ⟨promotion', hp', bare⟩ := List.mem_map.1 mem
    obtain ⟨-, time', -⟩ := Commit.bare_eq_iff.1 bare
    exact .inr ⟨promotion', hp', bypasses.of_bare bare, time'.trans based, later⟩

theorem Shields.append {commits : List Commit} (h : Shields commits commit path base)
    (others : List Commit) : Shields (commits ++ others) commit path base := by
  rcases h with before | ⟨promotion, hp, rest⟩
  · exact .inl before
  · exact .inr ⟨promotion, List.mem_append_left _ hp, rest⟩

/--
What is inherited from a branch with an open commit ends where the current row of that branch
begins.
-/
theorem head_lt_of_isOpen (sound : session.Sound) (hc : commit ∈ session.commits)
    (open' : commit.IsOpen session.site.directory.openCommits) {row : BranchRow}
    (last : session.site.directory.index.last? commit.branchPath = some row) :
    row.head < commit.timepoint := by
  obtain ⟨held, isHeld, -⟩ := (sound.site.consistent.live commit hc open').branch
  have valid := (sound.site.consistent.formed commit hc).valid
  have fits := sound.site.consistent.valid.fits_last valid last
  have before := isHeld.before
  rw [isHeld.last, Option.some.injEq] at last
  rw [fits.head, ← last]
  exact before

/-! ## What keeps bases before open commits -/

theorem shielded_of_handles (shielded : session.Shielded)
    (same : next.commits.map Commit.bare = session.commits.map Commit.bare)
    (opens : ∀ commit : Commit, commit.IsOpen next.site.directory.openCommits →
      commit.IsOpen session.site.directory.openCommits)
    (based : ∀ commit ∈ session.commits, commit.IsOpen next.site.directory.openCommits →
      ∀ path base, Path.Valid path → Path.parent? path = some commit.branchPath →
        next.site.directory.index.HasBase path base →
          session.Offers path base ∨ Shields session.commits commit path base) :
    next.Shielded := by
  have before : ∀ commit' ∈ next.commits, ∃ commit ∈ session.commits,
      commit.bare = commit'.bare := by
    intro commit' hc'
    have mem := List.mem_map_of_mem (f := Commit.bare) hc'
    rw [same] at mem
    exact List.mem_map.1 mem
  intro commit' hc' open' path base hp above offers
  obtain ⟨commit, hc, bare⟩ := before commit' hc'
  have branch := congrArg Commit.branchPath bare
  change commit.branchPath = commit'.branchPath at branch
  rw [← isOpen_iff_of_bare bare] at open'
  rw [← branch] at above
  have known := shielded commit hc (opens commit open') path base hp above
  apply @Shields.of_bare _ _ _ _ _ _ _ same bare.symm
  rcases offers with based' | ⟨other', ho', otherPath, otherBase⟩
  · rcases based commit hc open' path base hp above based' with offers | shields
    · exact known offers
    · exact shields
  · obtain ⟨other, ho, bare'⟩ := before other' ho'
    obtain ⟨otherBranch, -⟩ := Commit.bare_eq_iff.1 bare'
    apply known
    refine .inr ⟨other, ho, ?_, ?_⟩
    · rw [← otherPath]
      exact congrArg BranchRow.path otherBranch
    · rw [otherBranch, otherBase]

theorem shielded_opened {opened : Commit} (sound : session.Sound) (shielded : session.Shielded)
    (handles : next.commits = session.commits ++ [opened])
    (opens : ∀ commit ∈ session.commits, commit.IsOpen next.site.directory.openCommits →
      commit.IsOpen session.site.directory.openCommits)
    (based : ∀ path base, Path.Valid path → next.site.directory.index.HasBase path base →
      session.site.directory.index.HasBase path base)
    (later : session.site.directory.clock.last < opened.timepoint)
    (base_lt : opened.branch.base < opened.timepoint)
    (inherits : ∀ commit ∈ session.commits, commit.IsOpen session.site.directory.openCommits →
      Path.parent? opened.branchPath = some commit.branchPath →
        session.Offers opened.branchPath opened.branch.base ∨
          opened.branch.base < commit.timepoint) : next.Shielded := by
  intro commit hc open' path base hp above offers
  rw [handles, List.mem_append, List.mem_singleton] at hc
  rw [handles]
  unfold Offers at offers
  simp only [handles, List.mem_append, List.mem_singleton] at offers
  rcases hc with hc | rfl
  · have known := shielded commit hc (opens commit hc open') path
    rcases offers with offers | ⟨other, ho | rfl, rfl, rfl⟩
    · exact (known base hp above (.inl (based path base hp offers))).append _
    · exact (known _ hp above (.inr ⟨other, ho, rfl, rfl⟩)).append _
    · rcases inherits commit hc (opens commit hc open') above with offers | before
      · exact (known _ hp above offers).append _
      · exact .inl before
  · -- nothing is based on a timepoint that has just been issued
    left
    rcases offers with offers | ⟨other, ho | rfl, -, rfl⟩
    · have := sound.site.consistent.valid.base_le_of_hasBase hp (based path base hp offers)
      lia
    · have formed := sound.site.consistent.formed other ho
      have := formed.base_lt
      have := formed.le_now
      lia
    · exact base_lt

theorem base_lt_of_inherits (sound : session.Sound) (hc : commit ∈ session.commits)
    (open' : commit.IsOpen session.site.directory.openCommits) {t : Timepoint}
    (above : Path.parent? path = some commit.branchPath)
    (inherits : InheritsFrom session.site.directory.index path t base) :
    base < commit.timepoint := by
  unfold InheritsFrom at inherits
  rw [above] at inherits
  obtain ⟨row, last, rfl⟩ := inherits
  exact head_lt_of_isOpen sound hc open' last

theorem offers_or_lt_of_commitBase (sound : session.Sound) (hc : commit ∈ session.commits)
    (open' : commit.IsOpen session.site.directory.openCommits)
    (above : Path.parent? path = some commit.branchPath) {row : BranchRow} (kind : CommitKind)
    (last : session.site.directory.index.last? path = some row) :
    session.Offers path (commitBase session.site.directory.index kind path row) ∨
      commitBase session.site.directory.index kind path row < commit.timepoint := by
  obtain ⟨closed, hc'⟩ := RowIndex.eq_append_of_last? last
  have own : session.Offers path row.base := .inl ⟨row, by simp [hc'], rfl⟩
  cases kind with
  | content => exact .inl own
  | promotion => exact .inl own
  | rebase =>
    have live := sound.site.consistent.live commit hc open'
    obtain ⟨parentRow, isHeld, -⟩ := live.branch
    right
    simp only [commitBase, above, isHeld.last, Option.map_some, Option.getD_some]
    exact head_lt_of_isOpen sound hc open' isHeld.last

theorem Effect.shielded {result : Except StoreError Unit × Session}
    (effect : session.Effect action result) (sound : session.Sound) (soundAfter : result.2.Sound)
    (shielded : session.Shielded) : result.2.Shielded := by
  have consistent := sound.site.consistent
  have valid' := consistent.valid
  have later : session.site.directory.clock.last < nextTimepoint session.site :=
    last_lt_ticked session.site
  cases effect with
  | still action answer next quiet index openCommits handles =>
    apply shielded_of_handles shielded handles
    · rw [openCommits]
      exact fun _ => id
    · intro commit _ _ path base _ _ based
      rw [index] at based
      exact .inl (.inl based)
  | created path base next valid last inherits index openCommits handles =>
    apply shielded_of_handles shielded (congrArg _ handles)
    · rw [openCommits]
      exact fun _ => id
    · intro commit hc open' q base' hq above based
      rw [openCommits] at open'
      rw [index] at based
      rcases RowIndex.hasBase_put valid hq based with based | ⟨rfl, row, mem, rfl⟩
      · exact .inl (.inl based)
      · rw [List.mem_singleton] at mem
        rw [mem]
        exact .inr (.inl (base_lt_of_inherits sound hc open' above inherits))
  | locked path row next valid last unlocked index openCommits handles =>
    apply shielded_of_handles shielded (congrArg _ handles)
    · rw [openCommits]
      exact fun _ => id
    · intro commit _ _ q base hq _ based
      rw [index] at based
      exact .inl (.inl (RowIndex.hasBase_setLocked valid hq based))
  | unlocked path row next valid last free index openCommits handles =>
    apply shielded_of_handles shielded (congrArg _ handles)
    · rw [openCommits]
      exact fun _ => id
    · intro commit _ _ q base hq _ based
      rw [index] at based
      exact .inl (.inl (RowIndex.hasBase_setLocked valid hq based))
  | forced path row next valid last alone index openCommits handles =>
    apply shielded_of_handles shielded (congrArg _ handles)
    · intro commit open'
      rw [openCommits] at open'
      exact (OrderedMap.get?_erase_eq_some_iff.1 open').2
    · intro commit _ _ q base hq _ based
      rw [index] at based
      exact .inl (.inl (RowIndex.hasBase_setLocked valid hq based))
  | forcedBoth path row partner t next valid validPartner last both index openCommits handles =>
    apply shielded_of_handles shielded (congrArg _ handles)
    · intro commit open'
      rw [openCommits] at open'
      exact (OrderedMap.get?_erase_eq_some_iff.1 (OrderedMap.get?_erase_eq_some_iff.1 open').2).2
    · intro commit _ _ q base hq _ based
      rw [index] at based
      have based := RowIndex.hasBase_setLocked validPartner hq based
      exact .inl (.inl (RowIndex.hasBase_setLocked valid hq based))
  | opened path kind row next valid last unlocked index openCommits handles =>
    have rowPath := (valid'.fits_last valid last).path
    have free := consistent.get?_eq_none_of_unlocked last unlocked
    have formed := soundAfter.site.consistent.formed _
      (by rw [handles]; exact List.mem_append_right _ (List.mem_singleton_self _))
    apply shielded_opened sound shielded handles
    · intro commit hc
      have earlier := Int.lt_of_le_of_lt (consistent.formed commit hc).le_now later
      rw [openCommits]
      exact (isOpen_insert free earlier).1
    · intro q base hq based
      rw [index] at based
      exact RowIndex.hasBase_setLocked valid hq based
    · exact later
    · exact formed.base_lt
    · intro commit hc open' above
      change Path.parent? row.path = _ at above
      change session.Offers row.path _ ∨ _
      rw [rowPath] at above ⊢
      exact offers_or_lt_of_commitBase sound hc open' above kind last
  | openedBoth path source row sourceRow next valid validSource distinct last unlocked sourceLast
      sourceUnlocked index openCommits handles =>
    obtain ⟨closed, hc'⟩ := RowIndex.eq_append_of_last? last
    have rowPath := (valid'.fits_last valid last).path
    have free := consistent.get?_eq_none_of_unlocked last unlocked
    have sourceFree := consistent.get?_eq_none_of_unlocked sourceLast sourceUnlocked
    have formed := soundAfter.site.consistent.formed _
      (by rw [handles]; exact List.mem_append_right _ (List.mem_singleton_self _))
    apply shielded_opened sound shielded handles
    · intro commit hc
      have earlier := Int.lt_of_le_of_lt (consistent.formed commit hc).le_now later
      rw [openCommits]
      exact (isOpen_insert_both distinct free sourceFree earlier).1
    · intro q base hq based
      rw [index] at based
      have based := RowIndex.hasBase_setLocked validSource hq based
      exact RowIndex.hasBase_setLocked valid hq based
    · exact later
    · exact formed.base_lt
    · intro commit hc open' above
      change session.Offers row.path row.base ∨ _
      rw [rowPath]
      exact .inl (.inl ⟨row, by simp [hc'], rfl⟩)
  | completed handle commit row next there held kind single index openCommits handles =>
    have hc := List.mem_of_getElem? there
    have valid := (consistent.formed commit hc).valid
    apply shielded_of_handles shielded (congrArg _ handles)
    · intro other open'
      rw [openCommits] at open'
      exact (Consistent.remaining_iff.1 open').1
    · intro other _ _ q base hq _ based
      rw [index] at based
      rcases RowIndex.hasBase_advance valid hq held.last based with based | ⟨rfl, same⟩
      · exact .inl (.inl based)
      · exact .inl (.inr ⟨commit, hc, rfl, same⟩)
  | promoted handle commit row source sourceRow next there held double validSource distinct
      sourceHeld index openCommits handles =>
    have hc := List.mem_of_getElem? there
    have valid := (consistent.formed commit hc).valid
    apply shielded_of_handles shielded (congrArg _ handles)
    · intro other open'
      rw [openCommits] at open'
      exact (Consistent.remaining_iff.1 open').1
    · intro other ho open' q base hq above based
      rw [openCommits] at open'
      obtain ⟨-, untouched⟩ := Consistent.remaining_iff.1 open'
      have sourceLast := (RowIndex.last?_advance_of_ne session.site.directory.index
        (row.close commit.timepoint) (nextRow commit (row.close commit.timepoint)
          (some (sourceRow.close commit.timepoint))) valid validSource distinct).trans
            sourceHeld.last
      rw [index] at based
      rcases RowIndex.hasBase_advance validSource hq sourceLast based with based | ⟨rfl, rfl⟩
      · rcases RowIndex.hasBase_advance valid hq held.last based with based | ⟨rfl, same⟩
        · exact .inl (.inl based)
        · exact .inl (.inr ⟨commit, hc, rfl, same⟩)
      · -- the source starts anew from the timepoint of the promotion
        have elsewhere : other.branchPath ≠ commit.branchPath := fun same => untouched (.inl same)
        have different : other.timepoint ≠ commit.timepoint := by
          intro same
          exact elsewhere (congrArg Commit.branchPath (consistent.eq_of_timepoint_eq ho hc same))
        right
        by_cases before : commit.timepoint < other.timepoint
        · exact .inl before
        · refine .inr ⟨commit, hc, ⟨double, ?_⟩, rfl, ?_⟩
          · rw [above, Ne, Option.some.injEq]
            exact elsewhere
          · change other.timepoint < commit.timepoint
            lia
  | purged next index openCommits handles =>
    intro commit _ open'
    rw [openCommits] at open'
    cases open'
  | reopened cacheSize next file index openCommits handles =>
    intro commit hc
    simp [handles] at hc

theorem shielded_run (sound : session.Sound) (shielded : session.Shielded)
    {actions : List Action} (permitted : session.Permits actions) :
    (session.run actions).Shielded := by
  induction actions generalizing session with
  | nil => exact shielded
  | cons action actions ih =>
    obtain ⟨allowed, rest⟩ := permitted
    have soundAfter := (stays_step sound allowed).sound
    exact ih soundAfter ((effect_step sound allowed).shielded sound soundAfter shielded) rest

theorem New.shielded (new : session.New) : session.Shielded := by
  intro commit hc
  simp [new.1] at hc

/-! ## What is seen -/

/--
Who sees a draft has a branch among its ancestors, or is one, that was promoted past the draft.
-/
theorem bypassed_of_visible (sound : session.Sound) (shielded : session.Shielded)
    (hp : Path.Valid path) {ids : List VersionId} (shown : session.visible path = .ok ids)
    (hc : commit ∈ session.commits) (open' : commit.IsOpen session.site.directory.openCommits)
    {id : VersionId} {d : Document} (found : session.documents.get? id = some d)
    (wrote : commit.Wrote d) (mem : id ∈ ids) :
    ∃ below ∈ path :: Path.ancestors path, Path.parent? below = some commit.branchPath ∧
      ∃ promotion ∈ session.commits, promotion.Bypasses below ∧
        commit.timepoint < promotion.timepoint ∧
          session.site.directory.index.HasBase below promotion.timepoint := by
  have valid := sound.site.consistent.valid
  have validBranch := (sound.site.consistent.formed commit hc).valid
  cases last : session.site.directory.index.last? path with
  | none =>
    rw [visible_of_absent sound hp last] at shown
    cases shown
  | some row =>
    rw [visible_eq sound hp last, Except.ok.injEq] at shown
    rw [← shown, sound.keyed.mem_ids_iff] at mem
    obtain ⟨d', found', accepted⟩ := mem
    rw [found, Option.some.injEq] at found'
    rw [← found', Criteria.accepts_toPredicate] at accepted
    obtain ⟨level, among, accepted⟩ := accepted
    obtain ⟨flat, start⟩ := wrote
    have rowPath := (valid.fits_last hp last).path
    rcases List.mem_cons.1 among with rfl | among
    · -- the branch itself: its row has not got to the commit yet
      obtain ⟨flat', started, -⟩ := (Level.accepts_own_iff rfl).1 accepted
      have same : path = commit.branchPath := by
        apply Path.flatten_injective hp validBranch
        rw [← rowPath]
        exact flat'.symm.trans flat
      rw [same] at last
      have := head_lt_of_isOpen sound hc open' last
      simp only [start] at started
      lia
    · rw [rowPath] at among
      obtain ⟨closed, hcl⟩ := RowIndex.eq_append_of_last? last
      have based : session.site.directory.index.HasBase path row.base := ⟨row, by simp [hcl], rfl⟩
      obtain ⟨below, member, above, based⟩ := valid.exists_below_of_mem_levels hp based among
      obtain ⟨inherited, -⟩ := valid.of_mem_levels
        (fun q hq => Path.valid_of_mem_ancestors hp hq) among
      obtain ⟨flat', started, -⟩ := (Level.accepts_inherited_iff inherited).1 accepted
      have validBelow : Path.Valid below := by
        rcases List.mem_cons.1 member with rfl | member
        · exact hp
        · exact Path.valid_of_mem_ancestors hp member
      have same : level.path = commit.branchPath := by
        apply Path.flatten_injective (Path.valid_of_parent? validBelow above) validBranch
        exact flat'.symm.trans flat
      rw [same] at above
      rw [start] at started
      refine ⟨below, member, above, ?_⟩
      rcases shielded commit hc open' below level.timepoint validBelow above (.inl based) with
        before | ⟨promotion, hpr, bypasses, time, later⟩
      · lia
      · rw [← time] at later based
        exact ⟨promotion, hpr, bypasses, later, based⟩

/-! ## What a promotion shows -/

section

variable {index : RowIndex} {now t : Timepoint} {parent : String} {row parentRow : BranchRow}
  {hidden : OrderedSet VersionId} {d : Document}

/--
What a branch sees of its parent has begun by its base.
-/
theorem start_le_of_accepts (h : index.Valid now) (hp : Path.Valid path) (rowPath : row.path = path)
    (above : Path.parent? path = some parent) (flat : d.path = Path.flatten parent)
    (accepted : (index.criteria row t hidden).toPredicate.accepts d) : d.start ≤ row.base := by
  have validParent := Path.valid_of_parent? hp above
  rw [Criteria.accepts_toPredicate] at accepted
  obtain ⟨level, among, accepted⟩ := accepted
  rcases List.mem_cons.1 among with rfl | among
  · -- the branch is not its own parent
    obtain ⟨flat', -⟩ := (Level.accepts_own_iff rfl).1 accepted
    rw [rowPath] at flat'
    have same := Path.flatten_injective validParent hp (flat.symm.trans flat')
    exact absurd same (Path.parent?_ne above)
  · rw [rowPath] at among
    obtain ⟨inherited, -, bounded⟩ :=
      h.of_mem_levels (fun q hq => Path.valid_of_mem_ancestors hp hq) among
    have started := ((Level.accepts_inherited_iff inherited).1 accepted).2.1
    exact Int.le_trans started bounded

theorem accepts_of_start_le {id : VersionId} (h : index.Valid now) (hp : Path.Valid path)
    (rowPath : row.path = path) (above : Path.parent? path = some parent)
    (parentLast : index.last? parent = some parentRow) (began : parentRow.start ≤ row.base)
    (flat : d.path = Path.flatten parent) (unended : d.ended = none) (known : d.id = some id)
    (shown : id ∉ hidden ∪ parentRow.replaced) (started : d.start ≤ row.base) :
    (index.criteria row t hidden).toPredicate.accepts d := by
  have validParent := Path.valid_of_parent? hp above
  have parentPath := (h.fits_last validParent parentLast).path
  have among : (⟨parent, row.base, true, hidden ∪ parentRow.replaced⟩ : Level) ∈
      (index.criteria row t hidden).levels := by
    unfold RowIndex.criteria
    rw [rowPath, Path.ancestors_of_parent?_eq_some above, RowIndex.levels,
      h.covers_last parentLast began]
    simp [parentPath]
  rw [Criteria.accepts_toPredicate]
  refine ⟨_, among, (Level.accepts_inherited_iff rfl).2 ⟨flat, started, by simp [unended], ?_⟩⟩
  intro id' known'
  rw [known, Option.some.injEq] at known'
  rw [← known']
  exact shown

end

/--
A branch that has been promoted starts anew with what its parent has at that time. If a commit is
open on the parent, that includes what was written under it, unless it was opened after the
promotion.
-/
theorem visible_of_promoted (sound : session.Sound) {result : Except StoreError Unit × Session}
    {other : Nat} {promotion : Commit} (effect : session.Effect (.complete other) result)
    (soundAfter : result.2.Sound) (done : result.1 = .ok ()) (hc : commit ∈ session.commits)
    (open' : commit.IsOpen session.site.directory.openCommits)
    (there : session.commits[other]? = some promotion) (distinct : promotion ≠ commit)
    (source : promotion.source = some path)
    (above : Path.parent? path = some commit.branchPath) :
    commit.IsOpen result.2.site.directory.openCommits ∧
      ∃ row ids, session.site.directory.index.current commit.branchPath = .ok (some row) ∧
        result.2.visible path = .ok ids ∧
          ∀ id d, result.2.documents.get? id = some d → commit.Wrote d → d.ended = none →
            id ∉ row.replaced → (id ∈ ids ↔ commit.timepoint < promotion.timepoint) := by
  have consistent := sound.site.consistent
  have live := consistent.live commit hc open'
  have hpr := List.mem_of_getElem? there
  have different : commit.timepoint ≠ promotion.timepoint := by
    intro same
    exact distinct (consistent.eq_of_timepoint_eq hpr hc same.symm)
  cases effect with
  | still action answer next quiet => exact absurd trivial (quiet done)
  | completed handle commit' row next there' held kind single =>
    rw [there, Option.some.injEq] at there'
    rw [← there', source] at single
    cases single
  | promoted handle commit' row source' sourceRow next there' held double validSource distinct'
      sourceHeld index openCommits handles =>
    rw [there, Option.some.injEq] at there'
    rw [← there'] at held double distinct' sourceHeld index openCommits
    rw [source, Option.some.injEq] at double
    rw [← double] at validSource distinct' sourceHeld index
    have validBranch := (consistent.formed commit hc).valid
    have validTarget := (consistent.formed promotion hpr).valid
    obtain ⟨parentRow, isHeld, -⟩ := live.branch
    -- a commit and a promotion that are open at the same time touch different branches
    have notTarget : commit.branchPath ≠ promotion.branchPath := by
      intro same
      have entry := isHeld.entry
      rw [same, held.entry, Option.some.injEq] at entry
      exact different entry.symm
    have notSource := Path.parent?_ne above
    have fresh : next.site.directory.index.last? path =
        some (BranchRow.fresh path promotion.timepoint promotion.timepoint) := by
      rw [index]
      exact RowIndex.last?_advance_self _ _ _ validSource
    have parentLast : next.site.directory.index.last? commit.branchPath = some parentRow := by
      rw [index]
      exact (RowIndex.last?_advance_of_ne _ _ _ validSource validBranch notSource).trans
        ((RowIndex.last?_advance_of_ne _ _ _ validTarget validBranch notTarget).trans isHeld.last)
    have valid := soundAfter.site.consistent.valid
    constructor
    · change next.site.directory.openCommits.get? _ = _
      rw [openCommits, Consistent.remaining_iff]
      refine ⟨open', ?_⟩
      rintro (same | same)
      · exact notTarget same
      · rw [source, Option.some.injEq] at same
        exact notSource same.symm
    · refine ⟨parentRow, _, ?_, visible_eq soundAfter validSource fresh, ?_⟩
      · rw [consistent.valid.current_eq, isHeld.last]
      · intro id d found wrote unended shown
        have known := soundAfter.keyed id d found
        rw [soundAfter.keyed.mem_ids_iff]
        constructor
        · rintro ⟨d', found', accepted⟩
          rw [found, Option.some.injEq] at found'
          rw [← found'] at accepted
          have started := start_le_of_accepts valid validSource rfl above wrote.1 accepted
          rw [wrote.2] at started
          change commit.timepoint ≤ promotion.timepoint at started
          lia
        · intro later
          refine ⟨d, found, ?_⟩
          have before := isHeld.before
          apply accepts_of_start_le valid validSource rfl above parentLast _ wrote.1 unended known
          · simpa [OrderedSet.mem_union, BranchRow.fresh] using shown
          · rw [wrote.2]
            exact Int.le_of_lt later
          · change parentRow.start ≤ promotion.timepoint
            lia

end

/--
Whatever was done in a session that starts out empty, no branch sees what was written under a commit
that is still open, unless the branch or one of its ancestors was promoted past the branch of that
commit after the commit had been opened, and so starts from that promotion. A branch directly below
that is promoted does start from there: it sees all that was written under the commit, and not
hidden above, if the commit was opened before the promotion, and nothing of it otherwise.
-/
theorem drafts_of_run {start : Session} {actions : List Action} {handle : Nat} {commit : Commit}
    (new : start.New) (permitted : start.Permits actions)
    (there : (start.run actions).commits[handle]? = some commit)
    (open' : commit.IsOpen (start.run actions).site.directory.openCommits) :
    (∀ docs, ∀ id ∈ ((start.run actions).site.host.ids.drawMany docs.length).1,
      ∃ d, ((start.run actions).step (.write handle docs)).2.documents.get? id = some d ∧
        commit.Wrote d ∧ d.ended = none) ∧
    (∀ path row, Path.Valid path →
      (start.run actions).site.directory.index.current path = .ok (some row) →
        ∃ ids, (start.run actions).visible path = .ok ids ∧
          ∀ id ∈ ids, ∀ d, (start.run actions).documents.get? id = some d → commit.Wrote d →
            ∃ below ∈ path :: Path.ancestors path, Path.parent? below = some commit.branchPath ∧
              ∃ promotion ∈ (start.run actions).commits, promotion.Bypasses below ∧
                commit.timepoint < promotion.timepoint ∧
                  (start.run actions).site.directory.index.HasBase below promotion.timepoint) ∧
    (∀ path other promotion, (start.run actions).commits[other]? = some promotion →
      other ≠ handle → promotion.source = some path →
        Path.parent? path = some commit.branchPath →
          ((start.run actions).step (.complete other)).1 = .ok () →
            commit.IsOpen
              ((start.run actions).step (.complete other)).2.site.directory.openCommits ∧
            ∃ row ids, (start.run actions).site.directory.index.current commit.branchPath =
                .ok (some row) ∧
              ((start.run actions).step (.complete other)).2.visible path = .ok ids ∧
              ∀ id d, ((start.run actions).step (.complete other)).2.documents.get? id = some d →
                commit.Wrote d → d.ended = none → id ∉ row.replaced →
                  (id ∈ ids ↔ commit.timepoint < promotion.timepoint)) := by
  have sound := sound_run new.sound permitted
  have shielded := shielded_run new.sound new.shielded permitted
  have hc := List.mem_of_getElem? there
  refine ⟨?_, ?_, ?_⟩
  · intro docs id drawn
    rw [step_write there]
    obtain ⟨d, found, path, time, unended⟩ := Commit.exists_get?_saveAll drawn
    exact ⟨d, found, ⟨path, time⟩, unended⟩
  · intro path row hp current
    rw [sound.site.consistent.valid.current_eq, Except.ok.injEq] at current
    have shown := visible_eq sound hp current
    refine ⟨_, shown, ?_⟩
    intro id mem d found wrote
    exact bypassed_of_visible sound shielded hp shown hc open' found wrote mem
  · intro path other promotion there' distinct source above done
    have differs : promotion ≠ commit := by
      rintro rfl
      exact distinct ((handle_eq_iff sound there' there).1 rfl)
    have effect := @effect_step (start.run actions) (.complete other) sound trivial
    have soundAfter := (@stays_step (start.run actions) sound (.complete other) trivial).sound
    exact visible_of_promoted sound effect soundAfter done hc open' there' differs source above

/--
The branch at the bottom is promoted to the top while a commit is open on the branch between.
-/
def bypassed : List Action :=
  [.create "M", .create "M/A", .create "M/A/B", .openCommit "M/A" .content,
    .write 0 [{ businessId := some "1", term := "draft" }], .openPromotion "M" "M/A/B"]

theorem permits_bypassed : empty.Permits bypassed := by
  have m : Path.Valid "M" := by decide
  have a : Path.Valid "M/A" := by decide
  have b : Path.Valid "M/A/B" := by decide
  exact ⟨m, a, b, a, trivial, ⟨m, b⟩, trivial⟩

/--
What a promotion shows of the branch that it bypasses.
-/
theorem drafts_of_bypassed :
    empty.New ∧ empty.Permits bypassed ∧ ∃ commit ids,
      (empty.run bypassed).commits[0]? = some commit ∧
      commit.IsOpen (empty.run bypassed).site.directory.openCommits ∧
      ((empty.run bypassed).step (.complete 1)).2.visible "M/A/B" = .ok ids ∧
      .generated 1 ∈ ids := by
  have opened : (empty.run bypassed).commits[0]?.map (fun commit =>
      (decide (commit.IsOpen (empty.run bypassed).site.directory.openCommits), commit.branchPath,
        commit.flatBranchPath, commit.timepoint)) = some (true, "M/A", "M_A", 4) := by
    decide +kernel
  have promoted : (empty.run bypassed).commits[1]?.map (fun commit =>
      (commit.source, commit.timepoint)) = some (some "M/A/B", 5) := by decide +kernel
  have stored : (((empty.run bypassed).step (.complete 1)).2.documents.get? (.generated 1)).map
      (fun d => (d.path, d.start, d.ended)) = some ("M_A", 4, none) := by decide +kernel
  have hidden : ((empty.run bypassed).site.directory.index.current "M/A").map
      (·.map BranchRow.replaced) = .ok (some ∅) := by decide +kernel
  have done : ((empty.run bypassed).step (.complete 1)).1 = .ok () := by decide +kernel
  obtain ⟨commit, there, parts⟩ := Option.map_eq_some_iff.1 opened
  obtain ⟨promotion, there', parts'⟩ := Option.map_eq_some_iff.1 promoted
  obtain ⟨d, found, parts''⟩ := Option.map_eq_some_iff.1 stored
  simp only [Prod.mk.injEq, decide_eq_true_eq] at parts parts' parts''
  obtain ⟨open', branch, flat, time⟩ := parts
  obtain ⟨source, time'⟩ := parts'
  obtain ⟨path, start, unended⟩ := parts''
  have above : Path.parent? "M/A/B" = some commit.branchPath := by
    rw [branch]
    decide
  obtain ⟨-, -, shows⟩ := drafts_of_run new_empty permits_bypassed there open'
  obtain ⟨-, row, ids, current, shown, sees⟩ :=
    shows "M/A/B" 1 promotion there' (by decide) source above done
  refine ⟨new_empty, permits_bypassed, commit, ids, there, open', shown, ?_⟩
  rw [branch] at current
  rw [current] at hidden
  simp only [Except.map, Option.map_some, Except.ok.injEq, Option.some.injEq] at hidden
  rw [sees _ d found ⟨path.trans flat.symm, start.trans time.symm⟩ unended, time, time']
  · decide
  · rw [hidden]
    simp

/--
The commit is still open when what was written under it is seen on the branch below.
-/
theorem draft_shown_below :
    empty.New ∧ empty.Permits (bypassed ++ [.complete 1]) ∧ ∃ commit d,
      (empty.run (bypassed ++ [.complete 1])).commits[0]? = some commit ∧
      commit.IsOpen (empty.run (bypassed ++ [.complete 1])).site.directory.openCommits ∧
      (empty.run (bypassed ++ [.complete 1])).documents.get? (.generated 1) = some d ∧
      commit.Wrote d ∧
      (empty.run (bypassed ++ [.complete 1])).visible "M/A/B" = .ok [.generated 1] := by
  have permitted : empty.Permits (bypassed ++ [.complete 1]) :=
    (permits_append _ _ _).2 ⟨permits_bypassed, trivial, trivial⟩
  have opened : (empty.run (bypassed ++ [.complete 1])).commits[0]?.map (fun commit =>
      ((empty.run (bypassed ++ [.complete 1])).documents.get? (.generated 1)).map fun d =>
        (decide (commit.IsOpen (empty.run (bypassed ++ [.complete 1])).site.directory.openCommits),
          decide (commit.Wrote d))) = some (some (true, true)) := by decide +kernel
  obtain ⟨commit, there, written⟩ := Option.map_eq_some_iff.1 opened
  obtain ⟨d, found, parts⟩ := Option.map_eq_some_iff.1 written
  simp only [Prod.mk.injEq, decide_eq_true_eq] at parts
  exact ⟨new_empty, permitted, commit, d, there, parts.1, found, parts.2, by decide +kernel⟩

end Session

end TemporalStore
