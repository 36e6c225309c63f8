import TemporalStore.Proofs.Directory.Failure
import TemporalStore.Proofs.Timeline.Filed
import TemporalStore.Visibility.Build

/-!
This module contains what the operations of a directory keep whatever paths they are given: rows are
filed under their flat paths, each has the path of a row that was there before or one that it is
given, nothing is open from the future, and open commits are left alone unless they are named.
-/

namespace TemporalStore

/--
What holds of a directory that has issued `now`, whatever paths it was asked for: its rows have
`named` paths, and commits that are `pinned` are open, each under a single path.
-/
structure Site.Orderly (site : Site) (named : String → Prop) (pinned : String → Timepoint → Prop)
    (now : Timepoint) : Prop where
  filed : site.directory.index.Filed named
  entries : ∀ path t, site.directory.openCommits.get? path = some t →
    t ≤ site.directory.clock.last
  pins : ∀ path t, pinned path t → ∀ q, site.directory.openCommits.get? q = some t ↔ q = path
  stored : site.Stored
  issued : now ≤ site.directory.clock.last

/--
An orderly directory is left behind. What succeeds gives an answer that is `good`.
-/
inductive Tidy {α : Type} (named : String → Prop) (pinned : String → Timepoint → Prop)
    (now : Timepoint) (good : α → Prop) : EStateM.Result StoreError Site α → Prop where
  | ok (a : α) (site : Site) (orderly : site.Orderly named pinned now) (isGood : good a) :
    Tidy named pinned now good (.ok a site)
  | error (e : StoreError) (site : Site) (orderly : site.Orderly named pinned now) :
    Tidy named pinned now good (.error e site)

/--
Whoever finds an orderly directory leaves an orderly one behind.
-/
def Yields {α : Type} (named : String → Prop) (pinned : String → Timepoint → Prop)
    (now : Timepoint) (x : DirectoryM α) (good : α → Prop) : Prop :=
  ∀ site : Site, site.Orderly named pinned now → Tidy named pinned now good (x site)

section

variable {named : String → Prop} {pinned : String → Timepoint → Prop} {now : Timepoint}
  {site site' : Site} {α β : Type} {good : α → Prop} {good' : β → Prop} {x : DirectoryM α}
  {f : α → DirectoryM β}

theorem Site.Orderly.of_rests {heard : List Event} (h : site.Orderly named pinned now)
    (rests : site.Rests site' heard) : site'.Orderly named pinned now where
  filed := by
    rw [rests.index]
    exact h.filed
  entries := by
    intro path t entry
    rw [rests.openCommits] at entry
    exact Int.le_trans (h.entries path t entry) rests.clock
  pins := by
    rw [rests.openCommits]
    exact h.pins
  stored := h.stored.of_keeps rests.file rests.index rests.keeps
  issued := Int.le_trans h.issued rests.clock

theorem Site.Orderly.announced (h : site.Orderly named pinned now) (event : Event) :
    (site.announced event).Orderly named pinned now :=
  ⟨h.filed, h.entries, h.pins, h.stored, h.issued⟩

/-! ## Rules -/

theorem yields_pure {a : α} (isGood : good a) : Yields named pinned now (pure a) good :=
  fun site h => .ok a site h isGood

theorem yields_throw (e : StoreError) : Yields named pinned now (throw e) good :=
  fun site h => .error e site h

theorem Tidy.bind {result : EStateM.Result StoreError Site α}
    (ran : x site = result) (h : Tidy named pinned now good result)
    (hf : ∀ a, good a → Yields named pinned now (f a) good') :
    Tidy named pinned now good' ((x >>= f) site) := by
  cases h with
  | ok a middle orderly isGood =>
    rw [bind_ok ran]
    exact hf a isGood middle orderly
  | error e middle orderly =>
    rw [bind_error ran]
    exact .error e middle orderly

theorem yields_bind (hx : Yields named pinned now x good)
    (hf : ∀ a, good a → Yields named pinned now (f a) good') :
    Yields named pinned now (x >>= f) good' :=
  fun site h => (hx site h).bind rfl hf

theorem yields_get_bind {f : Site → DirectoryM β}
    (hf : ∀ site : Site, site.Orderly named pinned now →
      Tidy named pinned now good' (f site site)) :
    Yields named pinned now ((get : DirectoryM Site) >>= f) good' := fun site h => hf site h

theorem yields_discard (hx : Yields named pinned now x good) :
    Yields named pinned now (discard x) fun _ => True := by
  intro site h
  have out := hx site h
  cases result : x site with
  | ok a middle =>
    rw [result] at out
    rw [discard_ok result]
    cases out with
    | ok _ _ orderly _ => exact .ok () middle orderly trivial
  | error e middle =>
    rw [result] at out
    rw [discard_error result]
    cases out with
    | error _ _ orderly => exact .error e middle orderly

theorem yields_tryCatch {handler : StoreError → DirectoryM α} (hx : Yields named pinned now x good)
    (hh : ∀ e, Yields named pinned now (handler e) good) :
    Yields named pinned now (tryCatch x handler) good := by
  intro site h
  have out := hx site h
  cases result : x site with
  | ok a middle =>
    rw [result] at out
    rw [tryCatch_ok result]
    exact out
  | error e middle =>
    rw [result] at out
    rw [tryCatch_error result]
    cases out with
    | error _ _ orderly => exact hh e middle orderly

theorem yields_mapM {l : List α} {g : α → DirectoryM β}
    (hg : ∀ a ∈ l, Yields named pinned now (g a) fun _ => True) :
    Yields named pinned now (l.mapM g) fun _ => True := by
  induction l with
  | nil =>
    rw [List.mapM_nil]
    exact yields_pure trivial
  | cons a l ih =>
    rw [List.forall_mem_cons] at hg
    rw [List.mapM_cons]
    apply yields_bind hg.1
    intro b _
    apply yields_bind (ih hg.2)
    intro bs _
    exact yields_pure trivial

theorem yields_forM {l : List α} {g : α → DirectoryM PUnit}
    (hg : ∀ a, Yields named pinned now (g a) fun _ => True) :
    Yields named pinned now (l.forM g) fun _ => True := by
  induction l with
  | nil => exact yields_pure trivial
  | cons a l ih =>
    apply yields_bind (hg a)
    intro _ _
    exact ih

/--
Whoever only looks leaves an orderly directory orderly.
-/
theorem yields_of_upholds (looks : Upholds (fun site site' => site.Rests site' []) x)
    (isGood : ∀ (site site' : Site) a, site.Orderly named pinned now → x site = .ok a site' →
      good a) : Yields named pinned now x good := by
  intro site h
  cases result : x site with
  | ok a site' => exact .ok a site' (h.of_rests (looks.of_ok result)) (isGood site site' a h result)
  | error e site' => exact .error e site' (h.of_rests (looks.of_error result))

end

namespace Directory

variable {named : String → Prop} {pinned : String → Timepoint → Prop} {now : Timepoint}
  {site site' : Site} {path : String} {row : BranchRow}

/-! ## Looking things up -/

theorem yields_latest (path : String) :
    Yields named pinned now (latest path) fun row => named row.path := by
  apply yields_of_upholds (upholds_latest Site.lasting_rests path)
  intro site site' row h ok
  exact h.filed.named_of_mem (RowIndex.mem_of_current (latest_ok ok).1).1

theorem exists_of_toCreate_ok (ok : toCreate path site = .ok row site') :
    Path.Valid path ∧ row.path = path := by
  unfold toCreate at ok
  cases valid : Path.validate path with
  | error e =>
    rw [valid] at ok
    obtain ⟨u, middle, checks, -⟩ := exists_of_bind_ok ok
    cases e <;> cases checks
  | ok u =>
    rw [valid, bind_ok (checked_ok u site), bind_ok (tick_eq site)] at ok
    obtain ⟨found, middle, -, rest⟩ := exists_of_bind_ok ok
    split at rest
    · cases rest
    · obtain ⟨base, middle', -, made⟩ := exists_of_bind_ok rest
      obtain ⟨rfl, -⟩ := EStateM.Result.ok.inj made
      exact ⟨valid, rfl⟩

theorem current_of_heldRow_ok {commit : Commit} (ok : heldRow commit site = .ok row site') :
    site.directory.index.current commit.branchPath = .ok (some row) ∧
      row.start = commit.branch.start ∧ site' = site := by
  obtain ⟨found, middle, looked, rest⟩ := exists_of_bind_ok ok
  cases found with
  | none => cases rest
  | some current =>
    obtain ⟨there, rfl⟩ := current_ok looked
    simp only at rest
    split at rest
    · rename_i held
      obtain ⟨rfl, rfl⟩ := EStateM.Result.ok.inj rest
      exact ⟨there, held.2, rfl⟩
    · cases rest

theorem current_of_heldSource_ok {commit : Commit} {source : String}
    (ok : heldSource commit source site = .ok row site') :
    site.directory.index.current source = .ok (some row) ∧
      site.directory.openCommits.get? source = some commit.timepoint ∧ site' = site := by
  obtain ⟨found, middle, looked, rest⟩ := exists_of_bind_ok ok
  cases found with
  | none => cases rest
  | some current =>
    obtain ⟨there, rfl⟩ := current_ok looked
    simp only at rest
    rw [get_bind] at rest
    split at rest
    · rename_i held
      obtain ⟨rfl, rfl⟩ := EStateM.Result.ok.inj rest
      exact ⟨there, held.2, rfl⟩
    · cases rest

/--
The rows that are stored with a completed commit: those that are closed were there before, and the
others have the path of the handle and that of its source.
-/
inductive Batched (site : Site) (commit : Commit) : List BranchRow → Prop where
  | alone (closed : BranchRow) (single : commit.source = none)
    (there : site.directory.index.current commit.branchPath = .ok (some closed)) :
    Batched site commit [closed.close commit.timepoint,
      nextRow commit (closed.close commit.timepoint) none]
  | promotion (closed closedSource : BranchRow) (source : String)
    (double : commit.source = some source)
    (there : site.directory.index.current commit.branchPath = .ok (some closed))
    (sourceThere : site.directory.index.current source = .ok (some closedSource))
    (entry : site.directory.openCommits.get? source = some commit.timepoint) :
    Batched site commit [closed.close commit.timepoint,
      nextRow commit (closed.close commit.timepoint) (some (closedSource.close commit.timepoint)),
      closedSource.close commit.timepoint,
      BranchRow.fresh source commit.timepoint commit.timepoint]

theorem Batched.source_entry {commit : Commit} {batch : List BranchRow} {source : String}
    (h : Batched site commit batch) (double : commit.source = some source) :
    site.directory.openCommits.get? source = some commit.timepoint := by
  cases h with
  | alone closed single there => simp [double] at single
  | promotion closed closedSource source' double' there sourceThere entry =>
    rw [double, Option.some.injEq] at double'
    rw [double']
    exact entry

theorem batched_of_toComplete_ok {commit : Commit} {made : BranchRow × List BranchRow}
    (ok : toComplete commit site = .ok made site') :
    commit.IsOpen site.directory.openCommits ∧ Batched site commit made.2 ∧ site' = site := by
  unfold toComplete at ok
  rw [get_bind] at ok
  split at ok
  · rename_i entry
    refine ⟨entry, ?_⟩
    split at ok
    · cases ok
    · obtain ⟨closed, middle, looked, rest⟩ := exists_of_bind_ok ok
      obtain ⟨there, -, rfl⟩ := current_of_heldRow_ok looked
      split at rest
      · rename_i single
        obtain ⟨rfl, rfl⟩ := EStateM.Result.ok.inj rest
        exact ⟨.alone closed single there, rfl⟩
      · rename_i source double
        obtain ⟨closedSource, middle', looked', made'⟩ := exists_of_bind_ok rest
        obtain ⟨sourceThere, entry', rfl⟩ := current_of_heldSource_ok looked'
        obtain ⟨rfl, rfl⟩ := EStateM.Result.ok.inj made'
        exact ⟨.promotion closed closedSource source double there sourceThere entry', rfl⟩
  · cases ok

/--
The rows that a completed commit has stored.
-/
theorem batched_of_complete_ok {commit : Commit} (ok : complete commit site = .ok row site') :
    ∃ batch, Batched site commit batch ∧
      site'.directory.index = site.directory.index.apply batch := by
  rw [complete_eq] at ok
  obtain ⟨made, middle, host, found, -, told⟩ := exists_of_storing_ok ok
  obtain ⟨-, batched, rfl⟩ := batched_of_toComplete_ok found
  obtain ⟨-, rfl⟩ := EStateM.Result.ok.inj told
  exact ⟨made.2, batched, rfl⟩

/-! ## Storing rows -/

theorem yields_writeRows {batch : List BranchRow} (hb : ∀ row ∈ batch, named row.path) :
    Yields named pinned now (writeRows batch) fun _ => True := by
  intro site h
  cases kept : site.persisted (site.directory.index.apply batch) with
  | ok u host =>
    rw [writeRows_ok kept]
    exact .ok () _ ⟨h.filed.apply hb, h.entries, h.pins,
      Site.Stored.of_persisted_ok kept rfl rfl rfl, h.issued⟩ trivial
  | error e host =>
    rw [writeRows_error kept]
    exact .error e _ (h.of_rests (rests_of_refused kept))

theorem yields_storing {α β : Type} {find : DirectoryM α} {batch : α → List BranchRow}
    {tell : α → DirectoryM β} {good : α → Prop} {good' : β → Prop}
    (hf : Yields named pinned now find good) (hb : ∀ a, good a → ∀ row ∈ batch a, named row.path)
    (ht : ∀ a, good a → Yields named pinned now (tell a) good') :
    Yields named pinned now (storing find batch tell) good' := by
  apply yields_bind hf
  intro a isGood
  apply yields_bind (yields_writeRows (hb a isGood))
  intro _ _
  exact ht a isGood

theorem yields_announce (event : Event) : Yields named pinned now (announce event) fun _ => True :=
  fun _ h => .ok () _ (h.announced event) trivial

/--
A commit is no longer open under a path that is not pinned.
-/
theorem orderly_erase (h : site.Orderly named pinned now) (loose : ∀ t, ¬ pinned path t) :
    (site.withOpenCommits (site.directory.openCommits.erase path)).Orderly named pinned now where
  filed := h.filed
  entries q t entry := h.entries q t (OrderedMap.get?_erase_eq_some_iff.1 entry).2
  pins q t pin r := by
    change (site.directory.openCommits.erase path).get? r = some t ↔ r = q
    rw [OrderedMap.get?_erase_eq_some_iff, h.pins q t pin r, and_iff_right_iff_imp]
    rintro rfl rfl
    exact loose t pin
  stored := h.stored
  issued := h.issued

/--
A commit is open under a path that is not pinned, from a timepoint that is not pinned either.
-/
theorem orderly_insert {t : Timepoint} (h : site.Orderly named pinned now)
    (loose : ∀ t, ¬ pinned path t) (new : ∀ q, ¬ pinned q t) (issued : t ≤ now) :
    (site.withOpenCommits (site.directory.openCommits.insert path t)).Orderly named pinned
      now where
  filed := h.filed
  entries q u entry := by
    rcases OrderedMap.get?_insert_eq_some_iff.1 entry with ⟨-, rfl⟩ | ⟨-, entry⟩
    · exact Int.le_trans issued h.issued
    · exact h.entries q u entry
  pins q u pin r := by
    change (site.directory.openCommits.insert path t).get? r = some u ↔ r = q
    rw [OrderedMap.get?_insert_eq_some_iff, h.pins q u pin r]
    constructor
    · rintro (⟨-, rfl⟩ | ⟨-, same⟩)
      · exact absurd pin (new q)
      · exact same
    · rintro rfl
      right
      refine ⟨?_, rfl⟩
      rintro rfl
      exact loose u pin
  stored := h.stored
  issued := h.issued

/-! ## Locks -/

theorem yields_storing_row {α : Type} {find : DirectoryM BranchRow}
    {change : BranchRow → BranchRow} {tell : BranchRow → DirectoryM α} {good : α → Prop}
    (hf : Yields named pinned now find fun row => named row.path)
    (same : ∀ row, (change row).path = row.path)
    (ht : ∀ row, named row.path → Yields named pinned now (tell row) good) :
    Yields named pinned now (storing find (fun row => [change row]) tell) good := by
  apply yields_storing hf
  · intro row isNamed r mem
    rw [List.mem_singleton] at mem
    rw [mem, same]
    exact isNamed
  · exact ht

theorem yields_create (valid : ∀ path, Path.Valid path → named path) (path : String) :
    Yields named pinned now (create path) fun _ => True := by
  have found : Yields named pinned now (toCreate path) fun row => named row.path := by
    apply yields_of_upholds (upholds_toCreate Site.lasting_rests path)
    intro site site' row _ ok
    obtain ⟨hp, same⟩ := exists_of_toCreate_ok ok
    rw [same]
    exact valid path hp
  rw [create_eq]
  apply yields_storing_row found fun _ => rfl
  intro row _
  apply yields_bind (yields_announce _)
  intro _ _
  exact yields_pure trivial

theorem yields_lock (path : String) :
    Yields named pinned now (lock path) fun row => named row.path := by
  have found : Yields named pinned now (toLock path) fun row => named row.path := by
    apply yields_of_upholds (upholds_toLock Site.lasting_rests path)
    intro site site' row h ok
    obtain ⟨current, there, -, rfl, -⟩ := current_of_toLock_ok ok
    have isNamed : named current.path :=
      h.filed.named_of_mem (RowIndex.mem_of_current there).1
    exact isNamed
  rw [lock_eq]
  apply yields_storing_row found fun _ => rfl
  intro row isNamed
  apply yields_bind (yields_announce _)
  intro _ _
  exact yields_pure isNamed

theorem yields_release (path : String) : Yields named pinned now (release path) fun _ => True := by
  have found : Yields named pinned now (toRelease path) fun row => named row.path := by
    apply yields_of_upholds (upholds_toRelease Site.lasting_rests path)
    intro site site' row h ok
    exact h.filed.named_of_mem (RowIndex.mem_of_current (current_of_toRelease_ok ok).1).1
  have same (row : BranchRow) : { row with locked := false }.path = row.path := rfl
  rw [release_eq]
  apply yields_storing_row found same
  intro row _
  exact yields_pure trivial

theorem yields_releaseAnnounced (path : String) :
    Yields named pinned now (releaseAnnounced path) fun _ => True := by
  apply yields_bind (yields_discard (yields_release path))
  intro _ _
  exact yields_announce _

theorem yields_unlock (path : String) : Yields named pinned now (unlock path) fun _ => True := by
  apply yields_get_bind
  intro site h
  cases site.directory.openCommits.get? path with
  | some t => exact yields_throw _ site h
  | none => exact yields_releaseAnnounced path site h

theorem yields_erase_bind {α : Type} {good : α → Prop} {x : DirectoryM α}
    (loose : ∀ t, ¬ pinned path t) (hx : Yields named pinned now x good) :
    Yields named pinned now (do
      setOpenCommits ((← get).directory.openCommits.erase path)
      x) good := by
  intro site h
  rw [get_bind, bind_ok (setOpenCommits_eq _ _)]
  exact hx _ (orderly_erase h loose)

theorem yields_abandon (loose : ∀ t, ¬ pinned path t) :
    Yields named pinned now (forceUnlock.abandon path) fun _ => True := by
  apply yields_get_bind
  intro site h
  cases entry : site.directory.openCommits.get? path with
  | none => exact yields_pure trivial site h
  | some t =>
    simp only
    rw [bind_ok (setOpenCommits_eq _ _)]
    refine yields_mapM ?_ _ (orderly_erase h loose)
    intro partner mem
    -- what has the timepoint of a pinned commit is the commit itself
    have loose' : ∀ u, ¬ pinned partner.1 u := by
      intro u pin
      rw [List.mem_filter, ← OrderedMap.get?_eq_some_iff, OrderedMap.get?_erase_eq_some_iff] at mem
      have same : partner.2 = t := by simpa using mem.2
      have alone := h.pins partner.1 u pin
      rw [(alone partner.1).2 rfl, Option.some.injEq] at mem
      rw [← same, ← mem.1.2, alone path] at entry
      exact mem.1.1 entry.symm
    apply yields_erase_bind loose'
    apply yields_bind (yields_release partner.1)
    intro wasLocked _
    exact yields_pure trivial

theorem yields_report (record : LogRecord) :
    Yields named pinned now (liftM (Host.report record)) fun _ => True := by
  intro site h
  rw [report_eq]
  exact .ok () _ (h.of_rests (Site.lasting_rests.reported site record)) trivial

theorem yields_forceUnlock (loose : ∀ t, ¬ pinned path t) :
    Yields named pinned now (forceUnlock path) fun _ => True := by
  apply yields_bind (yields_release path)
  intro wasLocked _
  apply yields_bind (yields_abandon loose)
  intro others _
  apply yields_forM
  intro released
  apply yields_bind (yields_report _)
  intro _ _
  exact yields_announce _

/--
Unlocking by force can only fail before it has given up a commit that is pinned.
-/
theorem tidy_forceUnlock (h : site.Orderly named pinned now)
    (loose : ∀ u site', forceUnlock path site = .ok u site' → ∀ t, ¬ pinned path t) :
    Tidy named pinned now (fun _ => True) (forceUnlock path site) := by
  by_cases free : ∀ t, ¬ pinned path t
  · exact yields_forceUnlock free site h
  · have out := yields_release path site h
    cases released : release path site with
    | error e middle =>
      rw [released] at out
      have failed : forceUnlock path site = .error e middle := bind_error released
      rw [failed]
      cases out with
      | error _ _ orderly => exact .error e middle orderly
    | ok wasLocked middle =>
      rw [released] at out
      have succeeds : ∃ u site', forceUnlock path site = .ok u site' := by
        simp only [not_forall, not_not] at free
        obtain ⟨t, pin⟩ := free
        cases out with
        | ok _ _ orderly _ =>
          have alone : partners middle.directory.openCommits path = [] := by
            have entry := (orderly.pins path t pin path).2 rfl
            rw [List.eq_nil_iff_forall_not_mem]
            intro partner mem
            obtain ⟨other, entry', same⟩ := (mem_partners_iff entry).1 mem
            rw [same] at entry'
            exact other ((orderly.pins path t pin _).1 entry')
          obtain ⟨u, after, told⟩ := (neverFails_forM (l := [(path, wasLocked)]) fun released =>
            (neverFails_report (.forcedUnlock released.1 released.2)).bind fun _ =>
              neverFails_announce (.unlocked released.1 true)) (abandoned middle path)
          unfold forceUnlock
          rw [bind_ok released, bind_ok (abandon_alone alone)]
          exact ⟨u, after, told⟩
      obtain ⟨u, site', ok⟩ := succeeds
      exact absurd (loose u site' ok) free

theorem yields_giveBack {α : Type} (path : String) (e : StoreError) :
    Yields named pinned now (giveBack path e : DirectoryM α) fun _ => True := by
  apply yields_bind (yields_releaseAnnounced path)
  intro _ _
  exact yields_throw e

theorem yields_rebased (path : String) (kind : CommitKind) (row : BranchRow) (t : Timepoint) :
    Yields named pinned now (openCommit.rebased path kind row t) fun _ => True := by
  by_cases other : kind ≠ .rebase ∨ Path.parent? path = none
  · rw [rebased_of_other row t other]
    exact yields_pure trivial
  · simp only [not_or, not_not, ← ne_eq, Option.ne_none_iff_exists'] at other
    obtain ⟨rfl, parent, above⟩ := other
    rw [rebased_of_parent above]
    apply yields_tryCatch
    · have looks := upholds_rowAt Site.lasting_rests parent t
      apply yields_bind (yields_of_upholds looks fun _ _ _ _ _ => trivial)
      intro parentRow _
      exact yields_pure trivial
    · exact yields_giveBack path

/--
The handle of a commit that has just been opened at `t`.
-/
structure Given (named : String → Prop) (t : Timepoint) (commit : Commit) : Prop where
  named : named commit.branchPath
  timepoint : commit.timepoint = t

theorem orderly_ticked (h : site.Orderly named pinned now) :
    site.ticked.Orderly named pinned (nextTimepoint site) where
  filed := h.filed
  entries path t entry := Int.le_trans (h.entries path t entry) (Int.le_of_lt (last_lt_ticked site))
  pins := h.pins
  stored := h.stored
  issued := Int.le_refl _

/-! ## Opening commits -/

/--
All that is done to open a commit before it is taken note of.
-/
def toOpen (path : String) (kind : CommitKind) : DirectoryM Commit := do
  let t ← tick
  let row ← lock path
  let base ← openCommit.rebased path kind row t
  return { branch := { row with base }, timepoint := t, kind }

/--
All that is done to open a promotion between two branches before it is taken note of.
-/
def toPromote (path source : String) : DirectoryM Commit := do
  let t ← tick
  let row ← lock path
  tryCatch (discard (lock source)) (giveBack path)
  return { branch := row, timepoint := t, kind := .promotion, source := some source }

theorem openCommit_eq (path : String) (kind : CommitKind) : openCommit path kind = do
    let commit ← toOpen path kind
    setOpenCommits ((← get).directory.openCommits.insert path commit.timepoint)
    return commit := by
  unfold openCommit toOpen
  simp only [bind_assoc, pure_bind]

theorem openPromotion_eq {path source : String} (distinct : path ≠ source) :
    openPromotion path source = do
      let commit ← toPromote path source
      setOpenCommits
        (((← get).directory.openCommits.insert path commit.timepoint).insert source
          commit.timepoint)
      return commit := by
  unfold openPromotion toPromote
  rw [if_neg distinct]
  simp only [bind_assoc, pure_bind]
  rfl

theorem openPromotion_self (path : String) (site : Site) : openPromotion path path site =
    .error (.commitState s!"Branch {path} cannot be promoted into itself") site := by
  unfold openPromotion
  rw [if_pos rfl]
  rfl

theorem tidy_toOpen (h : site.Orderly named pinned now) (path : String) (kind : CommitKind) :
    Tidy named pinned (nextTimepoint site) (Given named (nextTimepoint site))
      (toOpen path kind site) := by
  unfold toOpen
  rw [bind_ok (tick_eq site)]
  refine yields_bind (yields_lock path) ?_ _ (orderly_ticked h)
  intro row isNamed
  apply yields_bind (yields_rebased path kind row _)
  intro base _
  exact yields_pure ⟨isNamed, rfl⟩

theorem tidy_toPromote (h : site.Orderly named pinned now) (path source : String) :
    Tidy named pinned (nextTimepoint site) (Given named (nextTimepoint site))
      (toPromote path source site) := by
  unfold toPromote
  rw [bind_ok (tick_eq site)]
  refine yields_bind (yields_lock path) ?_ _ (orderly_ticked h)
  intro row isNamed
  have second : Yields named pinned (nextTimepoint site)
      (tryCatch (discard (lock source)) (giveBack path)) fun _ => True :=
    yields_tryCatch (yields_discard (yields_lock source)) (yields_giveBack path)
  apply yields_bind second
  intro _ _
  exact yields_pure ⟨isNamed, rfl⟩

/--
Pinned commits were opened before.
-/
theorem not_pinned_next (h : site.Orderly named pinned now) (path : String) :
    ¬ pinned path (nextTimepoint site) := by
  intro pin
  have late := h.entries path _ ((h.pins path _ pin path).2 rfl)
  exact absurd (last_lt_ticked site) (Int.not_lt.2 late)

theorem tidy_openCommit (h : site.Orderly named pinned now) {path : String} {kind : CommitKind}
    (loose : ∀ commit site', openCommit path kind site = .ok commit site' → ∀ t, ¬ pinned path t) :
    Tidy named pinned (nextTimepoint site) (Given named (nextTimepoint site))
      (openCommit path kind site) := by
  have out := tidy_toOpen h path kind
  rw [openCommit_eq] at loose ⊢
  cases opened : toOpen path kind site with
  | error e middle =>
    rw [opened] at out
    rw [bind_error opened]
    cases out with
    | error _ _ orderly => exact .error e middle orderly
  | ok commit middle =>
    rw [opened] at out
    rw [bind_ok opened] at loose ⊢
    cases out with
    | ok _ _ orderly given =>
      have new (q : String) : ¬ pinned q commit.timepoint := by
        rw [given.timepoint]
        exact not_pinned_next h q
      exact .ok commit _ (orderly_insert orderly (loose commit _ rfl) new
        (Int.le_of_eq given.timepoint)) given

theorem tidy_openPromotion (h : site.Orderly named pinned now) {path source : String}
    (distinct : path ≠ source)
    (loose : ∀ commit site', openPromotion path source site = .ok commit site' →
      (∀ t, ¬ pinned path t) ∧ ∀ t, ¬ pinned source t) :
    Tidy named pinned (nextTimepoint site) (Given named (nextTimepoint site))
      (openPromotion path source site) := by
  have out := tidy_toPromote h path source
  rw [openPromotion_eq distinct] at loose ⊢
  cases opened : toPromote path source site with
  | error e middle =>
    rw [opened] at out
    rw [bind_error opened]
    cases out with
    | error _ _ orderly => exact .error e middle orderly
  | ok commit middle =>
    rw [opened] at out
    rw [bind_ok opened] at loose ⊢
    cases out with
    | ok _ _ orderly given =>
      have new (q : String) : ¬ pinned q commit.timepoint := by
        rw [given.timepoint]
        exact not_pinned_next h q
      have issued := Int.le_of_eq given.timepoint
      obtain ⟨loosePath, looseSource⟩ := loose commit _ rfl
      exact .ok commit _ (orderly_insert (orderly_insert orderly loosePath new issued) looseSource
        new issued) given

/-! ## Completion -/

theorem yields_conclude {commit : Commit} (loose : ∀ t, ¬ pinned commit.branchPath t)
    (looseSource : ∀ source, commit.source = some source → ∀ t, ¬ pinned source t)
    (row : BranchRow) : Yields named pinned now (conclude commit row) fun _ => True := by
  intro site h
  have erased := orderly_erase h loose
  cases single : commit.source with
  | none =>
    unfold conclude
    rw [single]
    exact .ok row _ (erased.announced _) trivial
  | some source =>
    unfold conclude
    rw [single]
    exact .ok row _ ((orderly_erase erased (looseSource source single)).announced _) trivial

theorem Batched.all_named {commit : Commit} {batch : List BranchRow} (h : Batched site commit batch)
    (orderly : site.Orderly named pinned now) (hn : named commit.branchPath)
    (hs : ∀ source, commit.source = some source → named source) :
    ∀ row ∈ batch, named row.path := by
  cases h with
  | alone closed single there =>
    have isNamed := orderly.filed.named_of_mem (RowIndex.mem_of_current there).1
    simp only [List.forall_mem_cons, List.not_mem_nil, false_implies, implies_true, and_true]
    exact ⟨isNamed, hn⟩
  | promotion closed closedSource source double there sourceThere entry =>
    have isNamed := orderly.filed.named_of_mem (RowIndex.mem_of_current there).1
    have isNamed' := orderly.filed.named_of_mem (RowIndex.mem_of_current sourceThere).1
    simp only [List.forall_mem_cons, List.not_mem_nil, false_implies, implies_true, and_true]
    exact ⟨isNamed, hn, isNamed', hs source double⟩

/--
A completed commit takes its own entries away and leaves those of others.
-/
theorem tidy_complete (h : site.Orderly named pinned now) {commit : Commit}
    (hn : named commit.branchPath) (hs : ∀ source, commit.source = some source → named source)
    (loose : ∀ path, ¬ pinned path commit.timepoint) :
    Tidy named pinned now (fun _ => True) (complete commit site) := by
  rw [complete_eq]
  unfold storing
  cases found : toComplete commit site with
  | error e middle =>
    rw [bind_error found]
    have looks := upholds_toComplete Site.lasting_rests commit
    exact .error e middle (h.of_rests (looks.of_error found))
  | ok made middle =>
    obtain ⟨here, batched, rfl⟩ := batched_of_toComplete_ok found
    rw [bind_ok found]
    have notPinned {path : String} (entry : middle.directory.openCommits.get? path =
        some commit.timepoint) (t : Timepoint) : ¬ pinned path t := by
      intro pin
      rw [(h.pins path t pin path).2 rfl, Option.some.injEq] at entry
      rw [entry] at pin
      exact loose path pin
    refine yields_bind (yields_writeRows (batched.all_named h hn hs)) ?_ _ h
    intro _ _
    apply yields_conclude (notPinned here)
    intro source double
    exact notPinned (batched.source_entry double)

theorem tidy_purge (h : site.Orderly named pinned now) (loose : ∀ path t, ¬ pinned path t) :
    Tidy named pinned now (fun _ => True) (purge site) := by
  have out := purge_outcome site
  generalize purge site = result at out
  cases out with
  | refused e host kept => exact .error e _ (h.of_rests (rests_of_refused kept))
  | done host kept =>
    refine .ok _ _ ⟨RowIndex.filed_empty, ?_, ?_, .of_persisted_ok kept rfl rfl rfl, h.issued⟩
      trivial
    · intro path t entry
      simp [Site.announced, Site.reported, purged] at entry
    · intro path t pin
      exact absurd pin (loose path t)

theorem tidy_save (h : site.Orderly named pinned now) :
    Tidy named pinned now (fun _ => True) (save site) := by
  rw [save_eq]
  cases kept : site.persisted site.directory.index with
  | ok u host =>
    rw [persist_ok kept]
    exact .ok () _ ⟨h.filed, h.entries, h.pins, .of_persisted_ok kept rfl rfl rfl, h.issued⟩ trivial
  | error e host =>
    rw [persist_error kept]
    exact .error e _ (h.of_rests (rests_of_refused kept))

end Directory

/-! ## Criteria -/

namespace Criteria

variable {named : String → Prop} {pinned : String → Timepoint → Prop} {now : Timepoint}

theorem yields_inheritedLevels (paths : List String) (base : Timepoint)
    (hidden : OrderedSet VersionId) :
    Yields named pinned now (inheritedLevels paths base hidden) fun _ => True := by
  induction paths generalizing base hidden with
  | nil => exact yields_pure trivial
  | cons path paths ih =>
    have looks := Directory.upholds_rowAt Site.lasting_rests path base
    unfold inheritedLevels
    apply yields_bind (yields_of_upholds looks fun _ _ _ _ _ => trivial)
    intro row _
    apply yields_bind (ih row.base _)
    intro levels _
    exact yields_pure trivial

theorem yields_build (row : BranchRow) (t : Timepoint) (hidden : OrderedSet VersionId) :
    Yields named pinned now (build row t hidden) fun _ => True := by
  apply yields_bind (yields_inheritedLevels _ _ _)
  intro levels _
  exact yields_pure trivial

theorem yields_ofBranch (path : String) :
    Yields named pinned now (ofBranch path) fun _ => True := by
  apply yields_bind (Directory.yields_latest path)
  intro row _
  exact yields_build row row.head row.replaced

end Criteria

end TemporalStore
