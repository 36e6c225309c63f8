import TemporalStore.Proofs.Directory.Commit

/-!
This module contains the invariant that ties the rows, the open commits and the handles of commits
together, and the changes that keep it. A commit is open as long as the directory has its timepoint
under its branch; then its branch and its source are locked at the rows from which it started.
-/

namespace TemporalStore

namespace Commit

/--
What is true of the handle of a commit whatever became of the commit.
-/
structure Formed (commit : Commit) (now : Timepoint) : Prop where
  valid : Path.Valid commit.branchPath
  source : ∀ source, commit.source = some source →
    Path.Valid source ∧ source ≠ commit.branchPath
  base_nonneg : 0 ≤ commit.branch.base
  base_lt : commit.branch.base < commit.timepoint
  le_now : commit.timepoint ≤ now

def Touches (commit : Commit) (path : String) : Prop :=
  path = commit.branchPath ∨ commit.source = some path

/--
The commit has neither been completed nor given up.
-/
def IsOpen (commit : Commit) (openCommits : OrderedMap String Timepoint) : Prop :=
  openCommits.get? commit.branchPath = some commit.timepoint

/--
The handle without what was hidden under it.
-/
def bare (commit : Commit) : Commit := { commit with replaced := ∅ }

/--
A commit touches two branches at most.
-/
theorem eq_of_touches {commit : Commit} {p q r : String} (hp : commit.Touches p)
    (hq : commit.Touches q) (hr : commit.Touches r) (distinct : q ≠ p) (distinct' : r ≠ p) :
    q = r := by
  unfold Touches at hp hq hr
  grind

theorem Formed.mono {commit : Commit} {now later : Timepoint} (h : commit.Formed now)
    (hl : now ≤ later) : commit.Formed later where
  valid := h.valid
  source := h.source
  base_nonneg := h.base_nonneg
  base_lt := h.base_lt
  le_now := Int.le_trans h.le_now hl

theorem bare_eq_iff {commit other : Commit} :
    commit.bare = other.bare ↔ commit.branch = other.branch ∧
      commit.timepoint = other.timepoint ∧ commit.kind = other.kind ∧
        commit.source = other.source := by
  unfold bare
  simp

theorem Formed.of_bare {commit other : Commit} {now : Timepoint} (h : commit.Formed now)
    (same : commit.bare = other.bare) : other.Formed now := by
  obtain ⟨branch, time, -, source⟩ := bare_eq_iff.1 same
  have path : commit.branchPath = other.branchPath := congrArg BranchRow.path branch
  constructor
  · rw [← path]
    exact h.valid
  · rw [← path, ← source]
    exact h.source
  · rw [← branch]
    exact h.base_nonneg
  · rw [← branch, ← time]
    exact h.base_lt
  · rw [← time]
    exact h.le_now

theorem Formed.valid_of_touches {commit : Commit} {now : Timepoint} {path : String}
    (h : commit.Formed now) (ht : commit.Touches path) : Path.Valid path := by
  rcases ht with rfl | ht
  · exact h.valid
  · exact (h.source path ht).1

end Commit

namespace Directory

/--
What a directory has of a commit that is open.
-/
structure Live (index : RowIndex) (openCommits : OrderedMap String Timepoint) (commit : Commit) :
    Prop where
  branch : ∃ row, Held index openCommits commit row ∧ row.replaced = commit.branch.replaced
  source : ∀ source, commit.source = some source →
    ∃ row, SourceHeld index openCommits commit source row
  begins : ∀ parent, Path.parent? commit.branchPath = some parent →
    ∃ b, index.begin? parent = some b ∧ b ≤ commit.branch.base

structure Consistent (index : RowIndex) (openCommits : OrderedMap String Timepoint)
    (now : Timepoint) (commits : List Commit) : Prop where
  nonneg : 0 ≤ now
  valid : index.Valid now
  formed : ∀ commit ∈ commits, commit.Formed now
  ordered : (commits.map Commit.timepoint).Pairwise (· < ·)
  live : ∀ commit ∈ commits, openCommits.get? commit.branchPath = some commit.timepoint →
    Live index openCommits commit
  owned : ∀ path t, openCommits.get? path = some t → ∃ commit ∈ commits, commit.timepoint = t ∧
    commit.Touches path ∧ openCommits.get? commit.branchPath = some t

section

variable {index : RowIndex} {openCommits : OrderedMap String Timepoint} {now : Timepoint}
  {commits : List Commit} {commit : Commit} {path : String} {row : BranchRow}

theorem last?_setLocked_of_entry {q : String} {t : Timepoint} {locked : Bool}
    (entry : openCommits.get? q = some t) (last : index.last? q = some row)
    (isLocked : row.locked = true) (hq : Path.Valid q) (hp : Path.Valid path)
    (free : locked = true ∨ openCommits.get? path = none) :
    (index.setLocked path locked).last? q = index.last? q := by
  rw [RowIndex.last?_setLocked index locked hp hq]
  by_cases same : q = path
  · -- the row is locked already, and may not be unlocked
    rw [if_pos same, ← same, last, Option.map_some]
    have again : locked = true := by
      rcases free with free | free
      · exact free
      · rw [← same, entry] at free
        simp at free
    rw [again, ← isLocked]
  · rw [if_neg same]

theorem Held.of_last? {index' : RowIndex} (h : Held index openCommits commit row)
    (last : index'.last? commit.branchPath = index.last? commit.branchPath) :
    Held index' openCommits commit row where
  entry := h.entry
  last := last.trans h.last
  locked := h.locked
  start := h.start
  before := h.before

theorem SourceHeld.of_last? {index' : RowIndex} {source : String}
    (h : SourceHeld index openCommits commit source row)
    (last : index'.last? source = index.last? source) :
    SourceHeld index' openCommits commit source row where
  entry := h.entry
  last := last.trans h.last
  locked := h.locked
  before := h.before

/--
An open commit does not notice what happens to other branches.
-/
theorem Live.of_last? {index' : RowIndex} (h : Live index openCommits commit)
    (last : ∀ path, commit.Touches path → index'.last? path = index.last? path)
    (begins : ∀ path b, index.begin? path = some b → index'.begin? path = some b) :
    Live index' openCommits commit where
  branch := by
    obtain ⟨row, held, replaced⟩ := h.branch
    exact ⟨row, held.of_last? (last _ (.inl rfl)), replaced⟩
  source := by
    intro source hs
    obtain ⟨row, held⟩ := h.source source hs
    exact ⟨row, held.of_last? (last _ (.inr hs))⟩
  begins := by
    intro parent hp
    obtain ⟨b, hb, hle⟩ := h.begins parent hp
    exact ⟨b, begins parent b hb, hle⟩

theorem Live.of_entries {openCommits' : OrderedMap String Timepoint}
    (h : Live index openCommits commit)
    (kept : ∀ path, openCommits.get? path = some commit.timepoint →
      openCommits'.get? path = some commit.timepoint) : Live index openCommits' commit where
  branch := by
    obtain ⟨row, held, replaced⟩ := h.branch
    exact ⟨row, ⟨kept _ held.entry, held.last, held.locked, held.start, held.before⟩, replaced⟩
  source := by
    intro source hs
    obtain ⟨row, held⟩ := h.source source hs
    exact ⟨row, kept _ held.entry, held.last, held.locked, held.before⟩
  begins := h.begins

theorem Live.of_bare {other : Commit} (h : Live index openCommits commit)
    (same : commit.bare = other.bare) : Live index openCommits other := by
  obtain ⟨branch, time, -, source⟩ := Commit.bare_eq_iff.1 same
  have path : commit.branchPath = other.branchPath := congrArg BranchRow.path branch
  constructor
  · obtain ⟨row, held, replaced⟩ := h.branch
    obtain ⟨entry, last, locked, start, before⟩ := held
    rw [path, time] at entry
    rw [path] at last
    rw [branch] at start replaced
    rw [time] at before
    exact ⟨row, ⟨entry, last, locked, start, before⟩, replaced⟩
  · intro path double
    obtain ⟨row, entry, last, locked, before⟩ := h.source path (source.trans double)
    rw [time] at entry before
    exact ⟨row, entry, last, locked, before⟩
  · rw [← path, ← branch]
    exact h.begins

theorem Live.entry_of_touches (h : Live index openCommits commit) (ht : commit.Touches path) :
    openCommits.get? path = some commit.timepoint := by
  rcases ht with rfl | ht
  · obtain ⟨row, held, -⟩ := h.branch
    exact held.entry
  · obtain ⟨row, held⟩ := h.source path ht
    exact held.entry

theorem Live.last_of_touches (h : Live index openCommits commit) (ht : commit.Touches path) :
    ∃ row, index.last? path = some row ∧ row.locked = true ∧ row.start < commit.timepoint := by
  rcases ht with rfl | ht
  · obtain ⟨row, held, -⟩ := h.branch
    exact ⟨row, held.last, held.locked, held.before⟩
  · obtain ⟨row, held⟩ := h.source path ht
    exact ⟨row, held.last, held.locked, held.before⟩

namespace Consistent

theorem empty {now : Timepoint} (nonneg : 0 ≤ now) : Consistent {} ∅ now [] where
  nonneg := nonneg
  valid := RowIndex.valid_empty now
  formed := by simp
  ordered := by simp
  live := by simp
  owned := by simp

theorem eq_of_timepoint_eq (h : Consistent index openCommits now commits) {c d : Commit}
    (hc : c ∈ commits) (hd : d ∈ commits) (same : c.timepoint = d.timepoint) : c = d := by
  have distinct : (commits.map Commit.timepoint).Nodup := by
    apply h.ordered.imp
    intro t u before
    exact Int.ne_of_lt before
  exact List.inj_on_of_nodup_map distinct hc hd same

theorem mono (h : Consistent index openCommits now commits) {later : Timepoint}
    (hl : now ≤ later) : Consistent index openCommits later commits where
  nonneg := Int.le_trans h.nonneg hl
  valid := h.valid.mono hl
  formed commit hc := (h.formed commit hc).mono hl
  ordered := h.ordered
  live := h.live
  owned := h.owned

theorem of_bare {others : List Commit} (h : Consistent index openCommits now commits)
    (same : commits.map Commit.bare = others.map Commit.bare) :
    Consistent index openCommits now others where
  nonneg := h.nonneg
  valid := h.valid
  formed := by
    intro other ho
    have mem := List.mem_map_of_mem (f := Commit.bare) ho
    rw [← same] at mem
    obtain ⟨commit, hc, bare⟩ := List.mem_map.1 mem
    exact (h.formed commit hc).of_bare bare
  ordered := by
    have times := congrArg (List.map Commit.timepoint) same
    rw [List.map_map, List.map_map] at times
    have ordered := h.ordered
    change (others.map (Commit.timepoint ∘ Commit.bare)).Pairwise _
    rw [← times]
    exact ordered
  live := by
    intro other ho entry
    have mem := List.mem_map_of_mem (f := Commit.bare) ho
    rw [← same] at mem
    obtain ⟨commit, hc, bare⟩ := List.mem_map.1 mem
    obtain ⟨branch, time, -⟩ := Commit.bare_eq_iff.1 bare
    have path : commit.branchPath = other.branchPath := congrArg BranchRow.path branch
    rw [← path, ← time] at entry
    exact (h.live commit hc entry).of_bare bare
  owned := by
    intro path t entry
    obtain ⟨commit, hc, time, touches, open'⟩ := h.owned path t entry
    have mem := List.mem_map_of_mem (f := Commit.bare) hc
    rw [same] at mem
    obtain ⟨other, ho, bare⟩ := List.mem_map.1 mem
    obtain ⟨branch, time', -, source⟩ := Commit.bare_eq_iff.1 bare
    have path' : other.branchPath = commit.branchPath := congrArg BranchRow.path branch
    refine ⟨other, ho, time'.trans time, ?_, ?_⟩
    · unfold Commit.Touches
      rw [path', source]
      exact touches
    · rw [path']
      exact open'

theorem setLocked {locked : Bool} (h : Consistent index openCommits now commits)
    (hp : Path.Valid path) (free : locked = true ∨ openCommits.get? path = none) :
    Consistent (index.setLocked path locked) openCommits now commits where
  nonneg := h.nonneg
  valid := h.valid.setLocked hp locked
  formed := h.formed
  ordered := h.ordered
  live := by
    intro commit hc entry
    have live := h.live commit hc entry
    apply live.of_last?
    · intro q touches
      have hq := (h.formed commit hc).valid_of_touches touches
      obtain ⟨row, last, isLocked, -⟩ := live.last_of_touches touches
      exact last?_setLocked_of_entry (live.entry_of_touches touches) last isLocked hq hp free
    · intro q b begins
      rw [RowIndex.begin?_setLocked]
      exact begins
  owned := h.owned

/--
Where the open commits of one timepoint are forgotten, the others stay as they are.
-/
theorem without {remaining : OrderedMap String Timepoint} {t : Timepoint}
    (h : Consistent index openCommits now commits)
    (forgotten : ∀ path u, remaining.get? path = some u ↔ openCommits.get? path = some u ∧ u ≠ t) :
    Consistent index remaining now commits where
  nonneg := h.nonneg
  valid := h.valid
  formed := h.formed
  ordered := h.ordered
  live := by
    intro commit hc entry
    obtain ⟨entry, other⟩ := (forgotten _ _).1 entry
    apply (h.live commit hc entry).of_entries
    intro path entry
    exact (forgotten _ _).2 ⟨entry, other⟩
  owned := by
    intro path u entry
    obtain ⟨entry, other⟩ := (forgotten _ _).1 entry
    obtain ⟨commit, hc, same, touches, open'⟩ := h.owned path u entry
    exact ⟨commit, hc, same, touches, (forgotten _ _).2 ⟨open', other⟩⟩

/--
A branch on which no commit is open may go on or begin.
-/
theorem elsewhere {index' : RowIndex} {later : Timepoint}
    (h : Consistent index openCommits now commits) (valid : index'.Valid later)
    (hl : now ≤ later) (free : openCommits.get? path = none)
    (last : ∀ q, Path.Valid q → q ≠ path → index'.last? q = index.last? q)
    (begins : ∀ q b, index.begin? q = some b → index'.begin? q = some b) :
    Consistent index' openCommits later commits where
  nonneg := Int.le_trans h.nonneg hl
  valid := valid
  formed commit hc := (h.formed commit hc).mono hl
  ordered := h.ordered
  live := by
    intro commit hc entry
    have live := h.live commit hc entry
    apply live.of_last? _ begins
    intro q touches
    apply last q ((h.formed commit hc).valid_of_touches touches)
    -- a branch that an open commit touches has an entry
    intro same
    have entry := live.entry_of_touches touches
    rw [same, free] at entry
    simp at entry
  owned := h.owned

theorem get?_eq_none_of_unlocked (h : Consistent index openCommits now commits)
    (last : index.last? path = some row) (unlocked : row.locked = false) :
    openCommits.get? path = none := by
  cases entry : openCommits.get? path with
  | none => rfl
  | some t =>
    obtain ⟨commit, hc, rfl, touches, open'⟩ := h.owned path t entry
    obtain ⟨row', last', locked, -⟩ := (h.live commit hc open').last_of_touches touches
    rw [last] at last'
    rw [Option.some.inj last', locked] at unlocked
    simp at unlocked

theorem get?_eq_none_of_absent (h : Consistent index openCommits now commits)
    (last : index.last? path = none) : openCommits.get? path = none := by
  cases entry : openCommits.get? path with
  | none => rfl
  | some t =>
    obtain ⟨commit, hc, rfl, touches, open'⟩ := h.owned path t entry
    obtain ⟨row', last', -⟩ := (h.live commit hc open').last_of_touches touches
    simp [last] at last'

theorem valid_of_entry {t : Timepoint} (h : Consistent index openCommits now commits)
    (entry : openCommits.get? path = some t) : Path.Valid path := by
  obtain ⟨commit, hc, -, touches, -⟩ := h.owned path t entry
  exact (h.formed commit hc).valid_of_touches touches

theorem opened {openCommits' : OrderedMap String Timepoint}
    (h : Consistent index openCommits now commits) (later : now < commit.timepoint)
    (formed : commit.Formed commit.timepoint)
    (entries : ∀ path u, openCommits'.get? path = some u ↔
      (commit.Touches path ∧ u = commit.timepoint) ∨
        (¬ commit.Touches path ∧ openCommits.get? path = some u))
    (free : ∀ path, commit.Touches path → openCommits.get? path = none)
    (live : Live index openCommits' commit) :
    Consistent index openCommits' commit.timepoint (commits ++ [commit]) := by
  have kept : ∀ path u, openCommits.get? path = some u → openCommits'.get? path = some u := by
    intro path u entry
    rw [entries]
    right
    refine ⟨?_, entry⟩
    intro touches
    simp [free path touches] at entry
  -- no handle is as late as the new one, so its entries are not taken for those of another
  have older : ∀ c ∈ commits, c.timepoint < commit.timepoint := by
    intro c hc
    have := (h.formed c hc).le_now
    lia
  constructor
  · exact Int.le_trans h.nonneg (Int.le_of_lt later)
  · exact h.valid.mono (Int.le_of_lt later)
  · intro c hc
    rcases List.mem_append.1 hc with hc | hc
    · exact (h.formed c hc).mono (Int.le_of_lt later)
    · rw [List.mem_singleton.1 hc]
      exact formed
  · rw [List.map_append, List.pairwise_append]
    refine ⟨h.ordered, by simp, ?_⟩
    intro t ht u hu
    obtain ⟨c, hc, rfl⟩ := List.mem_map.1 ht
    simp only [List.map_cons, List.map_nil, List.mem_singleton] at hu
    rw [hu]
    exact older c hc
  · intro c hc entry
    rcases List.mem_append.1 hc with hc | hc
    · have before := older c hc
      have entry : openCommits.get? c.branchPath = some c.timepoint := by
        rcases (entries _ _).1 entry with ⟨-, same⟩ | ⟨-, entry⟩
        · lia
        · exact entry
      apply (h.live c hc entry).of_entries
      intro path old
      exact kept path c.timepoint old
    · rw [List.mem_singleton.1 hc]
      exact live
  · intro path u entry
    rcases (entries _ _).1 entry with ⟨touches, rfl⟩ | ⟨-, entry⟩
    · refine ⟨commit, by simp, rfl, touches, ?_⟩
      rw [entries]
      exact .inl ⟨.inl rfl, rfl⟩
    · obtain ⟨c, hc, same, touches, open'⟩ := h.owned path u entry
      exact ⟨c, List.mem_append_left _ hc, same, touches, kept _ _ open'⟩

theorem begin {later : Timepoint} (h : Consistent index openCommits now commits)
    (hp : Path.Valid path) (last : index.last? path = none) (hl : now ≤ later)
    (fits : row.Fits path later) (ended : row.ended = none)
    (above : ∀ parent, Path.parent? path = some parent →
      ∃ b, index.begin? parent = some b ∧ b ≤ row.base ∧ b < row.start) :
    Consistent (index.put path [row]) openCommits later commits := by
  apply h.elsewhere _ hl (h.get?_eq_none_of_absent last)
  · intro q hq other
    rw [RowIndex.last?_put_singleton index row hp hq, if_neg other]
  · intro q b hb
    exact RowIndex.begin?_put_of_last?_eq_none last hb
  · apply h.valid.begin hp last hl fits ended
    intro parent hparent
    obtain ⟨b, hb, base, start⟩ := above parent hparent
    obtain ⟨first, hf, rfl⟩ := RowIndex.begin?_eq_some_iff.1 hb
    exact ⟨first, hf, base, start⟩

theorem advance {later t : Timepoint} {new : BranchRow}
    (h : Consistent index openCommits now commits) (hp : Path.Valid path)
    (last : index.last? path = some row) (free : openCommits.get? path = none) (hl : now ≤ later)
    (time : new.start = t) (start : row.start < t) (fits : new.Fits path later)
    (ended : new.ended = none)
    (above : ∀ parent, Path.parent? path = some parent →
      ∃ b, index.begin? parent = some b ∧ b ≤ new.base) :
    Consistent (index.advance path (row.close t) new) openCommits later commits := by
  subst time
  apply h.elsewhere _ hl free
  · intro q hq other
    rw [RowIndex.last?_advance index _ new hp hq, if_neg other]
  · intro q b hb
    rw [RowIndex.begin?_advance q last]
    exact hb
  · apply h.valid.advance hp last hl start fits ended
    intro parent hparent
    obtain ⟨b, hb, base⟩ := above parent hparent
    obtain ⟨first, hf, rfl⟩ := RowIndex.begin?_eq_some_iff.1 hb
    obtain ⟨closed, hc⟩ := RowIndex.eq_append_of_last? last
    obtain ⟨first', hf', -, before⟩ := h.valid.parents path parent hp hparent row (by simp [hc])
    rw [hf] at hf'
    rw [← Option.some.inj hf'] at before
    exact ⟨first, hf, base, by lia⟩

/-! ## A commit is completed -/

theorem remaining_iff {u : Timepoint} :
    (remaining openCommits commit).get? path = some u ↔
      openCommits.get? path = some u ∧ ¬ commit.Touches path := by
  unfold remaining Commit.Touches
  cases hs : commit.source with
  | none =>
    rw [Option.elim_none, OrderedMap.get?_erase_eq_some_iff]
    simp [and_comm]
  | some source =>
    rw [Option.elim_some, OrderedMap.get?_erase_eq_some_iff, OrderedMap.get?_erase_eq_some_iff]
    simp only [Option.some.injEq, not_or]
    constructor
    · rintro ⟨other, notBranch, entry⟩
      exact ⟨entry, notBranch, fun same => other same.symm⟩
    · rintro ⟨entry, notBranch, other⟩
      exact ⟨fun same => other same.symm, notBranch, entry⟩

theorem forgotten (h : Consistent index openCommits now commits) (hc : commit ∈ commits)
    (open' : openCommits.get? commit.branchPath = some commit.timepoint) (q : String)
    (u : Timepoint) :
    (remaining openCommits commit).get? q = some u ↔
      openCommits.get? q = some u ∧ u ≠ commit.timepoint := by
  rw [remaining_iff]
  constructor
  · rintro ⟨entry, other⟩
    refine ⟨entry, ?_⟩
    -- every entry has an owner, and owners are told apart by their timepoints
    intro same
    obtain ⟨owner, ho, time, touches, -⟩ := h.owned q u entry
    rw [same] at time
    rw [h.eq_of_timepoint_eq ho hc time] at touches
    exact other touches
  · rintro ⟨entry, other⟩
    refine ⟨entry, ?_⟩
    intro touches
    rw [(h.live commit hc open').entry_of_touches touches] at entry
    exact other (Option.some.inj entry).symm

theorem get?_remaining_of_touches (h : commit.Touches path) :
    (remaining openCommits commit).get? path = none := by
  cases entry : (remaining openCommits commit).get? path with
  | none => rfl
  | some u => exact absurd h (remaining_iff.1 entry).2

theorem fits_nextRow (h : commit.Formed now) (closed : BranchRow) (source : Option BranchRow) :
    (nextRow commit closed source).Fits commit.branchPath now where
  path := rfl
  head := rfl
  base_nonneg := h.base_nonneg
  base_le := Int.le_of_lt h.base_lt
  start_le := h.le_now

theorem fits_fresh (h : commit.Formed now) (source : String) :
    (BranchRow.fresh source commit.timepoint commit.timepoint).Fits source now where
  path := rfl
  head := rfl
  base_nonneg := Int.le_trans h.base_nonneg (Int.le_of_lt h.base_lt)
  base_le := Int.le_refl _
  start_le := h.le_now

theorem advanced (h : Consistent index openCommits now commits) (hc : commit ∈ commits)
    (held : Held index openCommits commit row) (source : Option BranchRow) :
    Consistent (index.advance commit.branchPath (row.close commit.timepoint)
        (nextRow commit (row.close commit.timepoint) source))
      (remaining openCommits commit) now commits := by
  have formed := h.formed commit hc
  have rest := h.without (h.forgotten hc held.entry)
  have time : (nextRow commit (row.close commit.timepoint) source).start = commit.timepoint := rfl
  apply rest.advance formed.valid held.last (get?_remaining_of_touches (.inl rfl)) (Int.le_refl _)
    time held.before
  · exact fits_nextRow formed _ source
  · rfl
  · exact (h.live commit hc held.entry).begins

theorem completed (h : Consistent index openCommits now commits) (hc : commit ∈ commits)
    (held : Held index openCommits commit row) :
    Consistent (completedIndex index commit row) (remaining openCommits commit) now commits :=
  h.advanced hc held none

theorem promoted (h : Consistent index openCommits now commits) (hc : commit ∈ commits)
    (held : Held index openCommits commit row) {source : String} {sourceRow : BranchRow}
    (sourceHeld : SourceHeld index openCommits commit source sourceRow)
    (double : commit.source = some source) :
    Consistent (promotedIndex index commit row source sourceRow) (remaining openCommits commit) now
      commits := by
  have formed := h.formed commit hc
  obtain ⟨valid, distinct⟩ := formed.source source double
  have first := h.advanced hc held (some (sourceRow.close commit.timepoint))
  have time : (BranchRow.fresh source commit.timepoint commit.timepoint).start =
      commit.timepoint := rfl
  apply first.advance valid _ (get?_remaining_of_touches (.inr double)) (Int.le_refl _) time
    sourceHeld.before
  · exact fits_fresh formed source
  · rfl
  · intro parent above
    obtain ⟨closed, hcl⟩ := RowIndex.eq_append_of_last? sourceHeld.last
    obtain ⟨f, hf, -, before⟩ :=
      h.valid.parents source parent valid above sourceRow (by simp [hcl])
    refine ⟨f.start, ?_, ?_⟩
    · rw [RowIndex.begin?_advance parent held.last, RowIndex.begin?_eq_some_iff]
      exact ⟨f, hf, rfl⟩
    · have := sourceHeld.before
      change f.start ≤ commit.timepoint
      lia
  · rw [RowIndex.last?_advance _ _ _ formed.valid valid, if_neg distinct]
    exact sourceHeld.last

end Consistent

end

/--
What completing a commit may come to, whatever became of the commit before.
-/
inductive Completion (commit : Commit) (site : Site) :
    EStateM.Result StoreError Site BranchRow → Prop where
  | refused (reason : String)
    (not : ¬ (commit.IsOpen site.directory.openCommits ∧
      ¬ (commit.kind = .promotion ∧ commit.source = none))) :
    Completion commit site (.error (.commitState reason) site)
  | alone (row : BranchRow) (result : EStateM.Result StoreError Site BranchRow)
    (held : Held site.directory.index site.directory.openCommits commit row)
    (replaced : row.replaced = commit.branch.replaced) (kind : commit.kind ≠ .promotion)
    (single : commit.source = none)
    (written : CompleteOutcome commit site (completedIndex site.directory.index commit row)
      (nextRow commit (row.close commit.timepoint) none) result) :
    Completion commit site result
  | promotion (row : BranchRow) (source : String) (sourceRow : BranchRow)
    (result : EStateM.Result StoreError Site BranchRow)
    (held : Held site.directory.index site.directory.openCommits commit row)
    (replaced : row.replaced = commit.branch.replaced) (double : commit.source = some source)
    (valid : Path.Valid source) (distinct : source ≠ commit.branchPath)
    (sourceHeld : SourceHeld site.directory.index site.directory.openCommits commit source
      sourceRow)
    (written : CompleteOutcome commit site
      (promotedIndex site.directory.index commit row source sourceRow)
      (nextRow commit (row.close commit.timepoint) (some (sourceRow.close commit.timepoint)))
      result) :
    Completion commit site result

theorem Consistent.complete_cases {site : Site} {now : Timepoint} {commits : List Commit}
    {commit : Commit}
    (h : Consistent site.directory.index site.directory.openCommits now commits)
    (hc : commit ∈ commits) : Completion commit site (complete commit site) := by
  have formed := h.formed commit hc
  by_cases entry : commit.IsOpen site.directory.openCommits
  · have live := h.live commit hc entry
    obtain ⟨row, held, replaced⟩ := live.branch
    cases double : commit.source with
    | none =>
      by_cases kind : commit.kind = .promotion
      · obtain ⟨reason, answer⟩ := @complete_of_no_source site commit kind double
        rw [answer]
        exact .refused reason fun both => both.2 ⟨kind, double⟩
      · have written := complete_outcome h.valid formed.valid held kind double
        exact .alone row _ held replaced kind double written
    | some source =>
      obtain ⟨valid, distinct⟩ := formed.source source double
      obtain ⟨sourceRow, sourceHeld⟩ := live.source source double
      have written := complete_outcome_of_source h.valid formed.valid valid distinct held
        sourceHeld double
      exact .promotion row source sourceRow _ held replaced double valid distinct sourceHeld written
  · rw [complete_of_not_open entry]
    exact .refused _ fun both => entry both.1

end Directory

end TemporalStore
