import TemporalStore.Proofs.Directory.Sound

/-!
This module contains the proof that opening and completing commits keeps a directory sound, where
every commit that is opened adds a handle.
-/

namespace TemporalStore.Directory

section

variable {site : Site} {commits : List Commit} {path : String}

theorem keepsHistory_completed {index : RowIndex} {commit : Commit} {row : BranchRow}
    {now : Timepoint} (h : index.Valid now) (last : index.last? commit.branchPath = some row) :
    index.KeepsHistory (completedIndex index commit row) :=
  h.keepsHistory_advance last _ _

theorem keepsHistory_promoted {index : RowIndex} {openCommits : OrderedMap String Timepoint}
    {now : Timepoint} {commit : Commit} {row sourceRow : BranchRow} {source : String}
    (h : Consistent index openCommits now commits) (hc : commit ∈ commits)
    (held : Held index openCommits commit row)
    (sourceHeld : SourceHeld index openCommits commit source sourceRow)
    (double : commit.source = some source) :
    index.KeepsHistory (promotedIndex index commit row source sourceRow) := by
  obtain ⟨valid, distinct⟩ := (h.formed commit hc).source source double
  have first := h.advanced hc held (some (sourceRow.close commit.timepoint))
  apply (h.valid.keepsHistory_advance held.last _ _).trans
  apply first.valid.keepsHistory_advance
  rw [RowIndex.last?_advance _ _ _ (h.formed commit hc).valid valid, if_neg distinct]
  exact sourceHeld.last

theorem kept_complete {commit : Commit} (h : site.Sound commits) (hc : commit ∈ commits) :
    Kept commits (complete commit site) := by
  have out := h.consistent.complete_cases hc
  generalize complete commit site = result at out ⊢
  cases out with
  | refused reason not =>
    apply Kept.error _ _ _ h
    intro violation
    simp
  | alone row result held _ _ _ written =>
    cases written with
    | refused e host kept =>
      obtain ⟨plain, sound⟩ := sound_of_refused h kept
      exact .error e _ plain sound
    | completed host kept =>
      apply Kept.ok
      constructor
      · exact h.consistent.completed hc held
      · exact h.agrees.keep (keepsHistory_completed h.consistent.valid held.last)
      · exact .of_persisted_ok kept rfl rfl rfl
  | promotion row source sourceRow result held _ double _ _ sourceHeld written =>
    cases written with
    | refused e host kept =>
      obtain ⟨plain, sound⟩ := sound_of_refused h kept
      exact .error e _ plain sound
    | completed host kept =>
      apply Kept.ok
      constructor
      · exact h.consistent.promoted hc held sourceHeld double
      · exact h.agrees.keep (keepsHistory_promoted h.consistent hc held sourceHeld double)
      · exact .of_persisted_ok kept rfl rfl rfl

inductive Opened (commits : List Commit) : EStateM.Result StoreError Site Commit → Prop where
  | ok (commit : Commit) (site : Site) (sound : site.Sound (commits ++ [commit])) :
    Opened commits (.ok commit site)
  | error (e : StoreError) (site : Site) (plain : e.Plain) (sound : site.Sound commits) :
    Opened commits (.error e site)

theorem base_of_commit {index : RowIndex} {now t : Timepoint} {row : BranchRow} (kind : CommitKind)
    (h : index.Valid now) (later : now < t) (hp : Path.Valid path)
    (last : index.last? path = some row) :
    0 ≤ commitBase index kind path row ∧ commitBase index kind path row < t ∧
      ∀ parent, Path.parent? path = some parent →
        ∃ b, index.begin? parent = some b ∧ b ≤ commitBase index kind path row := by
  have fits := h.fits_last hp last
  have nonneg := fits.base_nonneg
  have base_le := fits.base_le
  have start_le := fits.start_le
  obtain ⟨closed, hcl⟩ := RowIndex.eq_append_of_last? last
  cases above : Path.parent? path with
  | none =>
    have same : commitBase index kind path row = row.base := by
      unfold commitBase
      rw [above]
      cases kind <;> rfl
    rw [same]
    refine ⟨nonneg, by lia, ?_⟩
    intro parent hp
    simp at hp
  | some parent =>
    obtain ⟨first, hf, begins, -⟩ := h.parents path parent hp above row (by simp [hcl])
    have begin' := RowIndex.begin?_eq_some_iff.2 ⟨first, hf, rfl⟩
    obtain ⟨parentRow, parentLast⟩ := RowIndex.last?_isSome_of_first? hf
    have parentFits := h.fits_last (Path.valid_of_parent? hp above) parentLast
    have head := parentFits.head
    have parentBase := parentFits.base_nonneg
    have parentBaseLe := parentFits.base_le
    have parentStart := parentFits.start_le
    have order := h.first_le_last hf parentLast
    have same : commitBase index kind path row = row.base ∨
        commitBase index kind path row = parentRow.head := by
      unfold commitBase
      rw [above]
      cases kind with
      | rebase => simp [parentLast]
      | content => exact .inl rfl
      | promotion => exact .inl rfl
    rcases same with same | same
    · rw [same]
      refine ⟨nonneg, by lia, ?_⟩
      intro parent' hp
      rw [← Option.some.inj hp]
      exact ⟨first.start, begin', begins⟩
    · rw [same]
      refine ⟨by lia, by lia, ?_⟩
      intro parent' hp
      rw [← Option.some.inj hp]
      exact ⟨first.start, begin', by lia⟩

section

variable {row : BranchRow}

theorem touches_openedCommit (kind : CommitKind) (rowPath : row.path = path) (q : String) :
    (openedCommit site path kind row).Touches q ↔ q = path := by
  unfold Commit.Touches openedCommit Commit.branchPath
  simp [rowPath]

theorem formed_openedCommit (kind : CommitKind)
    (h : site.directory.index.Valid site.directory.clock.last) (hp : Path.Valid path)
    (last : site.directory.index.last? path = some row) :
    (openedCommit site path kind row).Formed (nextTimepoint site) := by
  obtain ⟨nonneg, base_lt, -⟩ := base_of_commit kind h (last_lt_ticked site) hp last
  have rowPath : row.path = path := (h.fits_last hp last).path
  constructor
  · change Path.Valid row.path
    rw [rowPath]
    exact hp
  · intro source hs
    simp [openedCommit] at hs
  · exact nonneg
  · exact base_lt
  · exact Int.le_refl _

theorem live_openedCommit (kind : CommitKind)
    (h : site.directory.index.Valid site.directory.clock.last) (hp : Path.Valid path)
    (last : site.directory.index.last? path = some row) :
    Live (site.directory.index.setLocked path true)
      (site.directory.openCommits.insert path (nextTimepoint site))
      (openedCommit site path kind row) := by
  have fits := h.fits_last hp last
  have rowPath : row.path = path := fits.path
  obtain ⟨-, -, begins⟩ := base_of_commit kind h (last_lt_ticked site) hp last
  constructor
  · refine ⟨{ row with locked := true }, ⟨?_, ?_, rfl, rfl, ?_⟩, rfl⟩
    · change (site.directory.openCommits.insert path _).get? row.path = _
      rw [rowPath, OrderedMap.get?_insert_self]
      rfl
    · have lastLocked := RowIndex.last?_setLocked_self true hp last
      exact (congrArg (RowIndex.last? _) rowPath).trans lastLocked
    · exact Int.lt_of_le_of_lt fits.start_le (last_lt_ticked site)
  · intro source hs
    simp [openedCommit] at hs
  · intro parent above
    change Path.parent? row.path = some parent at above
    rw [rowPath] at above
    rw [RowIndex.begin?_setLocked]
    exact begins parent above

end

theorem kept_openCommit (h : site.Sound commits) (hp : Path.Valid path) (kind : CommitKind) :
    Opened commits (openCommit path kind site) := by
  have valid := h.consistent.valid
  have out := openCommit_outcome valid h.agrees hp kind
  have later := last_lt_ticked site
  generalize openCommit path kind site = result at out ⊢
  cases out with
  | notLocked e site' lock =>
    cases kept_of_lock (sound_ticked h) hp lock with
    | error _ _ plain sound => exact .error e site' plain sound
  | opened row host history last unlocked kept agrees =>
    have rowPath : row.path = path := (valid.fits_last hp last).path
    have touches := @touches_openedCommit site path row kind rowPath
    have locked := h.consistent.setLocked hp (.inl rfl : true = true ∨ _)
    apply Opened.ok
    constructor
    · change Consistent _ (site.directory.openCommits.insert path (nextTimepoint site))
        (openedCommit site path kind row).timepoint _
      apply locked.opened later
      · exact formed_openedCommit kind valid hp last
      · intro q u
        rw [touches, OrderedMap.get?_insert_eq_some_iff, @eq_comm _ _ u]
        rfl
      · intro q hq
        rw [(touches q).1 hq]
        exact h.consistent.get?_eq_none_of_unlocked last unlocked
      · exact live_openedCommit kind valid hp last
    · exact agrees
    · exact .of_persisted_ok kept rfl rfl rfl

theorem sound_lockedFor {host : Host} (h : site.Sound commits) (hp : Path.Valid path)
    (kept : site.persisted (site.directory.index.setLocked path true) = .ok () host) :
    (lockedFor site path host).Sound commits := by
  apply sound_announced
  exact sound_relocked (sound_ticked h) hp (.inl rfl) kept

section

variable {source : String} {row other : BranchRow}

theorem touches_openedPromotion (rowPath : row.path = path) (q : String) :
    (openedPromotion site source row).Touches q ↔ q = path ∨ q = source := by
  unfold Commit.Touches openedPromotion Commit.branchPath
  simp [rowPath, eq_comm]

theorem formed_openedPromotion (h : site.directory.index.Valid site.directory.clock.last)
    (hp : Path.Valid path) (hs : Path.Valid source) (distinct : path ≠ source)
    (last : site.directory.index.last? path = some row) :
    (openedPromotion site source row).Formed (nextTimepoint site) := by
  obtain ⟨nonneg, base_lt, -⟩ := base_of_commit .promotion h (last_lt_ticked site) hp last
  have rowPath : row.path = path := (h.fits_last hp last).path
  constructor
  · change Path.Valid row.path
    rw [rowPath]
    exact hp
  · intro source' hs'
    rw [← Option.some.inj hs']
    refine ⟨hs, ?_⟩
    intro same
    exact distinct (rowPath.symm.trans same.symm)
  · exact nonneg
  · exact base_lt
  · exact Int.le_refl _

theorem live_openedPromotion (h : site.directory.index.Valid site.directory.clock.last)
    (hp : Path.Valid path) (hs : Path.Valid source) (distinct : path ≠ source)
    (last : site.directory.index.last? path = some row)
    (last' : (site.directory.index.setLocked path true).last? source = some other) :
    Live ((site.directory.index.setLocked path true).setLocked source true)
      ((site.directory.openCommits.insert path (nextTimepoint site)).insert source
        (nextTimepoint site))
      (openedPromotion site source row) := by
  have fits := h.fits_last hp last
  have rowPath : row.path = path := fits.path
  have otherFits := (h.setLocked hp true).fits_last hs last'
  obtain ⟨-, -, begins⟩ := base_of_commit .promotion h (last_lt_ticked site) hp last
  -- the second lock leaves the first branch alone
  have targetLast : ((site.directory.index.setLocked path true).setLocked source true).last?
      path = some { row with locked := true } := by
    rw [RowIndex.last?_setLocked _ _ hs hp, if_neg distinct]
    exact RowIndex.last?_setLocked_self true hp last
  constructor
  · refine ⟨{ row with locked := true }, ⟨?_, ?_, rfl, rfl, ?_⟩, rfl⟩
    · change ((site.directory.openCommits.insert path _).insert source _).get? row.path = _
      rw [rowPath, OrderedMap.get?_insert_of_ne distinct, OrderedMap.get?_insert_self]
      rfl
    · exact (congrArg (RowIndex.last? _) rowPath).trans targetLast
    · exact Int.lt_of_le_of_lt fits.start_le (last_lt_ticked site)
  · intro source' hs'
    rw [← Option.some.inj hs']
    have sourceLast := RowIndex.last?_setLocked_self true hs last'
    refine ⟨{ other with locked := true }, OrderedMap.get?_insert_self, sourceLast, rfl, ?_⟩
    exact Int.lt_of_le_of_lt otherFits.start_le (last_lt_ticked site)
  · intro parent above
    change Path.parent? row.path = some parent at above
    rw [rowPath] at above
    rw [RowIndex.begin?_setLocked, RowIndex.begin?_setLocked]
    exact begins parent above

end

theorem kept_openPromotion {source : String} (h : site.Sound commits) (hp : Path.Valid path)
    (hs : Path.Valid source) : Opened commits (openPromotion path source site) := by
  have valid := h.consistent.valid
  have out := openPromotion_outcome valid hp hs
  have later := last_lt_ticked site
  generalize openPromotion path source site = result at out ⊢
  cases out with
  | itself same =>
    apply Opened.error _ _ _ h
    intro violation
    simp
  | notLocked e site' lock =>
    cases kept_of_lock (sound_ticked h) hp lock with
    | error _ _ plain sound => exact .error e site' plain sound
  | stuck row host e e' site' site'' last unlocked kept lock release =>
    have free := h.consistent.get?_eq_none_of_unlocked last unlocked
    cases kept_of_lock (sound_lockedFor h hp kept) hs lock with
    | error _ _ _ sound =>
      have free' : site'.directory.openCommits.get? path = none := by
        rw [lock.openCommits_of_error]
        exact free
      cases kept_of_release sound hp free' release with
      | error _ _ plain sound => exact .error e' site'' plain sound
  | givenBack row host e site' site'' wasLocked last unlocked kept lock release =>
    have free := h.consistent.get?_eq_none_of_unlocked last unlocked
    cases kept_of_lock (sound_lockedFor h hp kept) hs lock with
    | error _ _ plain sound =>
      have free' : site'.directory.openCommits.get? path = none := by
        rw [lock.openCommits_of_error]
        exact free
      cases kept_of_release sound hp free' release with
      | ok _ _ sound => exact .error e _ plain (sound_announced sound _)
  | opened row other host host' distinct last unlocked kept last' unlocked' kept' =>
    have locked := (sound_lockedFor h hp kept).consistent
    have rowPath : row.path = path := (valid.fits_last hp last).path
    have touches := @touches_openedPromotion site path source row rowPath
    have both := (h.consistent.setLocked hp (.inl rfl : true = true ∨ _)).setLocked hs
      (.inl rfl : true = true ∨ _)
    apply Opened.ok
    constructor
    · change Consistent _ ((site.directory.openCommits.insert path (nextTimepoint site)).insert
        source (nextTimepoint site)) (openedPromotion site source row).timepoint _
      apply both.opened later
      · exact formed_openedPromotion valid hp hs distinct last
      · intro q u
        rw [touches, OrderedMap.get?_insert_eq_some_iff, OrderedMap.get?_insert_eq_some_iff]
        change _ ↔ (_ ∧ u = nextTimepoint site) ∨ _
        grind
      · intro q hq
        rcases (touches q).1 hq with rfl | rfl
        · exact h.consistent.get?_eq_none_of_unlocked last unlocked
        · exact locked.get?_eq_none_of_unlocked last' unlocked'
      · exact live_openedPromotion valid hp hs distinct last last'
    · exact (h.agrees.keep (valid.keepsHistory_setLocked path true)).keep
        (locked.valid.keepsHistory_setLocked source true)
    · exact .of_persisted_ok kept' rfl rfl rfl

end

end TemporalStore.Directory
