import TemporalStore.Proofs.Directory.Consistent

/-!
This module contains the proof that no operation on the branches of a directory breaks its
invariant, and that none finds a contradiction among its rows.
-/

namespace TemporalStore

/--
A failure for any reason but that the rows contradict each other.
-/
def StoreError.Plain (e : StoreError) : Prop := ∀ violation, e ≠ .dataIntegrity violation

structure Site.Sound (site : Site) (commits : List Commit) : Prop where
  consistent : Directory.Consistent site.directory.index site.directory.openCommits
    site.directory.clock.last commits
  agrees : site.directory.history.Agrees site.directory.index
  stored : site.Stored

namespace Directory

/--
The outcome of an operation that leaves a sound site behind.
-/
inductive Kept {α : Type} (commits : List Commit) : EStateM.Result StoreError Site α → Prop where
  | ok (a : α) (site : Site) (sound : site.Sound commits) : Kept commits (.ok a site)
  | error (e : StoreError) (site : Site) (plain : e.Plain) (sound : site.Sound commits) :
    Kept commits (.error e site)

section

variable {site : Site} {commits : List Commit} {path : String}

theorem sound_of_refused {index : RowIndex} {e : StoreError} {host : Host}
    (h : site.Sound commits) (kept : site.persisted index = .error e host) :
    e.Plain ∧ (site.withHost host).Sound commits := by
  obtain ⟨⟨cause, rfl⟩, keeps⟩ := Site.keeps_of_persisted_error kept
  constructor
  · intro violation
    simp
  · exact ⟨h.consistent, h.agrees, h.stored.of_keeps rfl rfl keeps⟩

theorem sound_ticked (h : site.Sound commits) : site.ticked.Sound commits where
  consistent := h.consistent.mono (Int.le_of_lt (last_lt_ticked site))
  agrees := h.agrees
  stored := h.stored

theorem sound_announced (h : site.Sound commits) (event : Event) :
    (site.announced event).Sound commits :=
  ⟨h.consistent, h.agrees, h.stored⟩

theorem sound_relocked {locked : Bool} {host : Host} (h : site.Sound commits)
    (hp : Path.Valid path) (free : locked = true ∨ site.directory.openCommits.get? path = none)
    (kept : site.persisted (site.directory.index.setLocked path locked) = .ok () host) :
    (relocked site path locked host).Sound commits where
  consistent := h.consistent.setLocked hp free
  agrees := h.agrees.keep (h.consistent.valid.keepsHistory_setLocked path locked)
  stored := .of_persisted_ok kept rfl rfl rfl

theorem kept_of_lock {result : EStateM.Result StoreError Site BranchRow} (h : site.Sound commits)
    (hp : Path.Valid path) (out : LockOutcome path site result) : Kept commits result := by
  cases out with
  | absent last =>
    apply Kept.error _ _ _ h
    intro violation
    simp
  | held row last locked =>
    apply Kept.error _ _ _ h
    intro violation
    simp
  | refused row e host last unlocked kept =>
    obtain ⟨plain, sound⟩ := sound_of_refused h kept
    exact .error e _ plain sound
  | taken row host last unlocked kept =>
    apply Kept.ok
    apply sound_announced
    exact sound_relocked h hp (.inl rfl) kept

theorem kept_of_release {result : EStateM.Result StoreError Site Bool} (h : site.Sound commits)
    (hp : Path.Valid path) (free : site.directory.openCommits.get? path = none)
    (out : ReleaseOutcome path site result) : Kept commits result := by
  cases out with
  | absent last =>
    apply Kept.error _ _ _ h
    intro violation
    simp
  | refused row e host last kept =>
    obtain ⟨plain, sound⟩ := sound_of_refused h kept
    exact .error e _ plain sound
  | done row host last kept => exact .ok _ _ (sound_relocked h hp (.inr free) kept)

theorem kept_releaseAnnounced (h : site.Sound commits) (hp : Path.Valid path)
    (free : site.directory.openCommits.get? path = none) :
    Kept commits (releaseAnnounced path site) := by
  have released := kept_of_release h hp free (release_outcome h.consistent.valid hp)
  rw [releaseAnnounced_eq]
  generalize release path site = result at released ⊢
  cases released with
  | ok wasLocked site' sound => exact .ok _ _ (sound_announced sound _)
  | error e site' plain sound => exact .error e site' plain sound

theorem kept_unlock (h : site.Sound commits) (hp : Path.Valid path) :
    Kept commits (unlock path site) := by
  cases entry : site.directory.openCommits.get? path with
  | some t =>
    rw [unlock_of_open entry]
    apply Kept.error _ _ _ h
    intro violation
    simp
  | none =>
    rw [unlock_of_free entry]
    exact kept_releaseAnnounced h hp entry

/-! ## Unlocking by force -/

theorem pairwise_partners (openCommits : OrderedMap String Timepoint) (path : String) :
    (partners openCommits path).Pairwise fun a b => compare a.1 b.1 = .lt := by
  unfold partners
  cases openCommits.get? path with
  | none => exact List.Pairwise.nil
  | some t => exact (openCommits.erase path).sorted.filter _

/--
The other branch that the open commit of a branch holds, if there is one, can be unlocked too.
-/
theorem partners_of_consistent {index : RowIndex} {openCommits : OrderedMap String Timepoint}
    {now : Timepoint} (h : Consistent index openCommits now commits) (path : String) :
    partners openCommits path = [] ∨ ∃ partner t, partners openCommits path = [(partner, t)] ∧
      Path.Valid partner ∧ ∃ row, index.last? partner = some row := by
  cases ht : openCommits.get? path with
  | none =>
    left
    unfold partners
    rw [ht]
  | some t =>
    obtain ⟨commit, hc, rfl, touches, open'⟩ := h.owned path t ht
    have live := h.live commit hc open'
    have formed := h.formed commit hc
    -- entries of one timepoint have one owner
    have touched : ∀ e ∈ partners openCommits path, commit.Touches e.1 ∧ e.1 ≠ path ∧
        e.2 = commit.timepoint := by
      intro e he
      obtain ⟨other, entry, same⟩ := (mem_partners_iff ht).1 he
      obtain ⟨owner, ho, time, touches', -⟩ := h.owned e.1 e.2 entry
      rw [h.eq_of_timepoint_eq ho hc (time.trans same)] at touches'
      exact ⟨touches', other, same⟩
    cases hp : partners openCommits path with
    | nil => exact .inl rfl
    | cons e es =>
      right
      rw [hp] at touched
      obtain ⟨eTouches, eOther, eTime⟩ := touched e List.mem_cons_self
      obtain ⟨row, last, -⟩ := live.last_of_touches eTouches
      have alone : es = [] := by
        cases es with
        | nil => rfl
        | cons f fs =>
          obtain ⟨fTouches, fOther, -⟩ := touched f (by simp)
          have same := Commit.eq_of_touches touches eTouches fTouches eOther fOther
          have sorted := pairwise_partners openCommits path
          rw [hp] at sorted
          have before := List.rel_of_pairwise_cons sorted List.mem_cons_self
          rw [same] at before
          exact absurd before (OrderedMap.compare_self_ne_lt _)
      refine ⟨e.1, e.2, ?_, formed.valid_of_touches eTouches, row, last⟩
      rw [alone]

theorem consistent_of_alone {index : RowIndex} {openCommits : OrderedMap String Timepoint}
    {now : Timepoint} (h : Consistent index openCommits now commits)
    (others : partners openCommits path = []) :
    Consistent index (openCommits.erase path) now commits := by
  cases ht : openCommits.get? path with
  | none =>
    rw [OrderedMap.erase_of_get?_eq_none ht]
    exact h
  | some t => exact h.without (forgotten_of_alone others ht)

theorem get?_erase_self (openCommits : OrderedMap String Timepoint) (path : String) :
    (openCommits.erase path).get? path = none := by
  rw [OrderedMap.get?_erase, if_pos Std.ReflCmp.compare_self]

theorem get?_erase_erase (openCommits : OrderedMap String Timepoint) (path partner : String) :
    ((openCommits.erase path).erase partner).get? path = none := by
  rw [OrderedMap.get?_erase, get?_erase_self]
  simp

theorem kept_forceUnlock (h : site.Sound commits) (hp : Path.Valid path) :
    Kept commits (forceUnlock path site) := by
  have one := partners_of_consistent h.consistent path
  have out := forceUnlock_outcome h.consistent.valid hp one
  have history := h.consistent.valid.keepsHistory_setLocked path false
  generalize forceUnlock path site = result at out ⊢
  cases out with
  | absent last =>
    apply Kept.error _ _ _ h
    intro violation
    simp
  | refused row e host last kept =>
    obtain ⟨plain, sound⟩ := sound_of_refused h kept
    exact .error e _ plain sound
  | alone row host last kept others =>
    have rest := consistent_of_alone h.consistent others
    apply Kept.ok
    constructor
    · exact rest.setLocked hp (.inr (get?_erase_self _ _))
    · exact h.agrees.keep history
    · exact .of_persisted_ok kept rfl rfl rfl
  | partnerRefused row host partner t e host' last kept others kept' =>
    have rest := h.consistent.without (forgotten_of_together others)
    have first : (relocked site path false host).Stored := .of_persisted_ok kept rfl rfl rfl
    obtain ⟨⟨cause, rfl⟩, keeps⟩ := Site.keeps_of_persisted_error kept'
    apply Kept.error
    · intro violation
      simp
    · constructor
      · exact rest.setLocked hp (.inr (get?_erase_erase _ _ _))
      · exact h.agrees.keep history
      · exact first.of_keeps rfl rfl keeps
  | together row host partner t other host' last kept others last' kept' =>
    have rest := h.consistent.without (forgotten_of_together others)
    have unlocked := @Consistent.setLocked _ _ _ _ path false rest hp
      (.inr (get?_erase_erase _ _ _))
    have valid : Path.Valid partner := by
      rcases one with none | ⟨partner', t', others', valid, -⟩
      · simp [none] at others
      · rw [others'] at others
        simp only [List.cons.injEq, Prod.mk.injEq, and_true] at others
        rw [← others.1]
        exact valid
    apply Kept.ok
    constructor
    · exact unlocked.setLocked valid (.inr (get?_erase_self _ _))
    · exact (h.agrees.keep history).keep (unlocked.valid.keepsHistory_setLocked partner false)
    · exact .of_persisted_ok kept' rfl rfl rfl

/-! ## Creating a branch, deleting all rows -/

theorem base_of_inherits {index : RowIndex} {now t base : Timepoint} (h : index.Valid now)
    (nonneg : 0 ≤ now) (later : now < t) (hp : Path.Valid path)
    (inherits : InheritsFrom index path t base) :
    0 ≤ base ∧ base ≤ t ∧ ∀ parent, Path.parent? path = some parent →
      ∃ b, index.begin? parent = some b ∧ b ≤ base ∧ b < t := by
  unfold InheritsFrom at inherits
  cases above : Path.parent? path with
  | none =>
    rw [above] at inherits
    simp only at inherits
    rw [inherits]
    refine ⟨by lia, Int.le_refl _, ?_⟩
    intro parent h
    simp at h
  | some parent =>
    rw [above] at inherits
    obtain ⟨row, last, rfl⟩ := inherits
    have fits := h.fits_last (Path.valid_of_parent? hp above) last
    obtain ⟨first, hf⟩ := RowIndex.first?_isSome_of_last? last
    have begins := h.first_le_last hf last
    have head := fits.head
    have base := fits.base_nonneg
    have base_le := fits.base_le
    have start_le := fits.start_le
    refine ⟨by lia, by lia, ?_⟩
    intro parent' h
    rw [← Option.some.inj h]
    exact ⟨first.start, RowIndex.begin?_eq_some_iff.2 ⟨first, hf, rfl⟩, by lia, by lia⟩

theorem kept_create (h : site.Sound commits) (hp : Path.Valid path) :
    Kept commits (create path site) := by
  have out := create_outcome h.consistent.valid hp
  have ticked := sound_ticked h
  have later := last_lt_ticked site
  generalize create path site = result at out ⊢
  cases out with
  | existing row last =>
    apply Kept.error _ _ _ ticked
    intro violation
    simp
  | orphan parent last above missing =>
    apply Kept.error _ _ _ ticked
    intro violation
    simp
  | refused base e host last inherits kept =>
    obtain ⟨plain, sound⟩ := @sound_of_refused site.ticked _ _ _ _ ticked kept
    exact .error e _ plain sound
  | created base host last inherits kept =>
    obtain ⟨nonneg, base_le, above⟩ :=
      base_of_inherits h.consistent.valid h.consistent.nonneg later hp inherits
    apply Kept.ok
    constructor
    · apply h.consistent.begin hp last (Int.le_of_lt later) _ rfl above
      exact ⟨rfl, rfl, nonneg, base_le, Int.le_refl _⟩
    · exact h.agrees.keep (RowIndex.keepsHistory_begin last _)
    · exact .of_persisted_ok kept rfl rfl rfl

theorem kept_purge (h : site.Sound commits) : Kept commits (purge site) := by
  have out := purge_outcome site
  generalize purge site = result at out ⊢
  cases out with
  | refused e host kept =>
    obtain ⟨plain, sound⟩ := sound_of_refused h kept
    exact .error e _ plain sound
  | done host kept =>
    apply Kept.ok
    constructor
    · exact {
        nonneg := h.consistent.nonneg
        valid := RowIndex.valid_empty _
        formed := h.consistent.formed
        ordered := h.consistent.ordered
        live := fun commit _ entry => by simp [purged, Site.announced, Site.reported] at entry
        owned := fun path t entry => by simp [purged, Site.announced, Site.reported] at entry }
    · exact HistoryCache.agrees_clear _ _
    · exact .of_persisted_ok kept rfl rfl rfl

theorem kept_save (h : site.Sound commits) : Kept commits (save site) := by
  rw [save_eq]
  cases kept : site.persisted site.directory.index with
  | error e host =>
    obtain ⟨plain, sound⟩ := sound_of_refused h kept
    rw [persist_error kept]
    exact .error e _ plain sound
  | ok a host =>
    rw [persist_ok kept]
    exact .ok _ _ ⟨h.consistent, h.agrees, .of_persisted_ok kept rfl rfl rfl⟩

end

end Directory

end TemporalStore
