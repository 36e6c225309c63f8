import TemporalStore.Directory.Lock
import TemporalStore.Proofs.Directory.Basic

/-!
This module contains what becomes of a directory when a branch is locked or unlocked.
-/

namespace TemporalStore.Directory

def relocked (site : Site) (path : String) (locked : Bool) (host : Host) : Site :=
  (site.withIndex (site.directory.index.setLocked path locked)).withHost host

inductive LockOutcome (path : String) (site : Site) :
    EStateM.Result StoreError Site BranchRow → Prop where
  | absent (last : site.directory.index.last? path = none) :
    LockOutcome path site (.error (.branchNotFound path) site)
  | held (row : BranchRow) (last : site.directory.index.last? path = some row)
    (locked : row.locked = true) : LockOutcome path site (.error (.branchLocked path) site)
  | refused (row : BranchRow) (e : StoreError) (host : Host)
    (last : site.directory.index.last? path = some row) (unlocked : row.locked = false)
    (kept : site.persisted (site.directory.index.setLocked path true) = .error e host) :
    LockOutcome path site (.error e (site.withHost host))
  | taken (row : BranchRow) (host : Host) (last : site.directory.index.last? path = some row)
    (unlocked : row.locked = false)
    (kept : site.persisted (site.directory.index.setLocked path true) = .ok () host) :
    LockOutcome path site
      (.ok { row with locked := true } ((relocked site path true host).announced (.locked path)))

/--
What unlocking a branch without telling anyone may come to.
-/
inductive ReleaseOutcome (path : String) (site : Site) :
    EStateM.Result StoreError Site Bool → Prop where
  | absent (last : site.directory.index.last? path = none) :
    ReleaseOutcome path site (.error (.branchNotFound path) site)
  | refused (row : BranchRow) (e : StoreError) (host : Host)
    (last : site.directory.index.last? path = some row)
    (kept : site.persisted (site.directory.index.setLocked path false) = .error e host) :
    ReleaseOutcome path site (.error e (site.withHost host))
  | done (row : BranchRow) (host : Host) (last : site.directory.index.last? path = some row)
    (kept : site.persisted (site.directory.index.setLocked path false) = .ok () host) :
    ReleaseOutcome path site (.ok row.locked (relocked site path false host))

section

variable {site : Site} {path : String} {now : Timepoint}

theorem lock_outcome (h : site.directory.index.Valid now) (hp : Path.Valid path) :
    LockOutcome path site (lock path site) := by
  unfold lock
  have latest := latest_eq h hp
  cases hl : site.directory.index.last? path with
  | none =>
    rw [hl] at latest
    rw [bind_error latest]
    exact .absent hl
  | some row =>
    rw [hl] at latest
    rw [bind_ok latest]
    cases locked : row.locked with
    | true => exact .held row hl locked
    | false =>
      have batch := h.apply_setLocked hp hl true
      simp only [Bool.false_eq_true, if_false]
      cases kept : site.persisted (site.directory.index.setLocked path true) with
      | error e host =>
        rw [← batch] at kept
        rw [bind_error (writeRows_error kept)]
        rw [batch] at kept
        exact .refused row e host hl locked kept
      | ok a host =>
        rw [← batch] at kept
        rw [bind_ok (writeRows_ok kept), batch]
        rw [batch] at kept
        exact .taken row host hl locked kept

theorem LockOutcome.eq_of_locked {row : BranchRow}
    {result : EStateM.Result StoreError Site BranchRow} (out : LockOutcome path site result)
    (last : site.directory.index.last? path = some row) (locked : row.locked = true) :
    result = .error (.branchLocked path) site := by
  cases out with
  | held row last' locked' => rfl
  | absent last' => simp [last] at last'
  | refused row' e host last' unlocked kept =>
    rw [last, Option.some.injEq] at last'
    simp [← last', locked] at unlocked
  | taken row' host last' unlocked kept =>
    rw [last, Option.some.injEq] at last'
    simp [← last', locked] at unlocked

theorem LockOutcome.ne_error_of_unlocked {row : BranchRow} {site' : Site} {e : StoreError}
    (memory : site.directory.file = none)
    (last : site.directory.index.last? path = some row) (unlocked : row.locked = false) :
    ¬ LockOutcome path site (.error e site') := by
  intro out
  cases out with
  | absent last' => simp [last] at last'
  | held row' last' locked =>
    rw [last, Option.some.injEq] at last'
    simp [← last', unlocked] at locked
  | refused row' e host last' unlocked' kept => simp [Site.persisted_of_file_eq_none memory] at kept

theorem release_outcome (h : site.directory.index.Valid now) (hp : Path.Valid path) :
    ReleaseOutcome path site (release path site) := by
  unfold release
  rw [bind_ok (current_eq h)]
  cases hl : site.directory.index.last? path with
  | none => exact .absent hl
  | some row =>
    have batch := h.apply_setLocked hp hl false
    simp only
    cases kept : site.persisted (site.directory.index.setLocked path false) with
    | error e host =>
      rw [← batch] at kept
      rw [bind_error (writeRows_error kept)]
      rw [batch] at kept
      exact .refused row e host hl kept
    | ok a host =>
      rw [← batch] at kept
      rw [bind_ok (writeRows_ok kept), batch]
      rw [batch] at kept
      exact .done row host hl kept

theorem releaseAnnounced_eq (site : Site) (path : String) :
    releaseAnnounced path site = match release path site with
      | .ok _ site => .ok () (site.announced (.unlocked path false))
      | .error e site => .error e site := by
  unfold releaseAnnounced
  cases hr : release path site with
  | ok locked site' => apply bind_ok (discard_ok hr)
  | error e site' => apply bind_error (discard_error hr)

theorem unlock_of_open {t : Timepoint} (h : site.directory.openCommits.get? path = some t) :
    unlock path site = .error (.commitState s!"Branch {path} has commit {t} open") site := by
  unfold unlock
  rw [get_bind, h]
  rfl

theorem unlock_of_free (h : site.directory.openCommits.get? path = none) :
    unlock path site = releaseAnnounced path site := by
  unfold unlock
  rw [get_bind, h]

end

/-! ## Unlocking by force -/

/--
The other branches that are held by the commit that is open on a branch.
-/
def partners (openCommits : OrderedMap String Timepoint) (path : String) :
    List (String × Timepoint) :=
  match openCommits.get? path with
  | none => []
  | some t => (openCommits.erase path).entries.filter (·.2 = t)

def forced (site : Site) (path : String) (wasLocked : Bool) : Site :=
  (site.reported (.forcedUnlock path wasLocked)).announced (.unlocked path true)

def abandoned (site : Site) (path : String) : Site :=
  site.withOpenCommits (site.directory.openCommits.erase path)

/--
What unlocking a branch by force may come to, where its commit holds at most one other branch.
-/
inductive ForceUnlockOutcome (path : String) (site : Site) :
    EStateM.Result StoreError Site Unit → Prop where
  | absent (last : site.directory.index.last? path = none) :
    ForceUnlockOutcome path site (.error (.branchNotFound path) site)
  | refused (row : BranchRow) (e : StoreError) (host : Host)
    (last : site.directory.index.last? path = some row)
    (kept : site.persisted (site.directory.index.setLocked path false) = .error e host) :
    ForceUnlockOutcome path site (.error e (site.withHost host))
  | alone (row : BranchRow) (host : Host) (last : site.directory.index.last? path = some row)
    (kept : site.persisted (site.directory.index.setLocked path false) = .ok () host)
    (others : partners site.directory.openCommits path = []) :
    ForceUnlockOutcome path site
      (.ok () (forced (abandoned (relocked site path false host) path) path row.locked))
  | partnerRefused (row : BranchRow) (host : Host) (partner : String) (t : Timepoint)
    (e : StoreError) (host' : Host) (last : site.directory.index.last? path = some row)
    (kept : site.persisted (site.directory.index.setLocked path false) = .ok () host)
    (others : partners site.directory.openCommits path = [(partner, t)])
    (kept' : (relocked site path false host).persisted
      ((site.directory.index.setLocked path false).setLocked partner false) = .error e host') :
    ForceUnlockOutcome path site (.error e
      ((abandoned (abandoned (relocked site path false host) path) partner).withHost host'))
  | together (row : BranchRow) (host : Host) (partner : String) (t : Timepoint) (other : BranchRow)
    (host' : Host) (last : site.directory.index.last? path = some row)
    (kept : site.persisted (site.directory.index.setLocked path false) = .ok () host)
    (others : partners site.directory.openCommits path = [(partner, t)])
    (last' : (site.directory.index.setLocked path false).last? partner = some other)
    (kept' : (relocked site path false host).persisted
      ((site.directory.index.setLocked path false).setLocked partner false) = .ok () host') :
    ForceUnlockOutcome path site (.ok ()
      (forced (forced (relocked (abandoned (abandoned (relocked site path false host) path) partner)
        partner false host') path row.locked) partner other.locked))

section

variable {openCommits : OrderedMap String Timepoint} {path partner : String} {t : Timepoint}

theorem mem_partners_iff {e : String × Timepoint} (ht : openCommits.get? path = some t) :
    e ∈ partners openCommits path ↔
      e.1 ≠ path ∧ openCommits.get? e.1 = some e.2 ∧ e.2 = t := by
  obtain ⟨q, u⟩ := e
  unfold partners
  rw [ht]
  simp only [List.mem_filter, decide_eq_true_eq]
  rw [← OrderedMap.get?_eq_some_iff, OrderedMap.get?_erase_eq_some_iff, and_assoc]

theorem get?_of_partners (h : partners openCommits path = [(partner, t)]) :
    openCommits.get? path = some t ∧ openCommits.get? partner = some t ∧ partner ≠ path := by
  have found : ∃ u, openCommits.get? path = some u := by
    cases ho : openCommits.get? path with
    | none => simp [partners, ho] at h
    | some u => exact ⟨u, rfl⟩
  obtain ⟨u, hu⟩ := found
  have mem : (partner, t) ∈ partners openCommits path := by simp [h]
  obtain ⟨other, entry, same⟩ := (mem_partners_iff hu).1 mem
  simp only at same
  rw [← same] at hu
  exact ⟨hu, entry, other⟩

theorem forgotten_of_alone (h : partners openCommits path = [])
    (ht : openCommits.get? path = some t) (q : String) (u : Timepoint) :
    (openCommits.erase path).get? q = some u ↔ openCommits.get? q = some u ∧ u ≠ t := by
  rw [OrderedMap.get?_erase_eq_some_iff]
  constructor
  · rintro ⟨other, entry⟩
    refine ⟨entry, ?_⟩
    intro same
    have mem := (@mem_partners_iff openCommits path t (q, u) ht).2 ⟨other, entry, same⟩
    simp [h] at mem
  · rintro ⟨entry, other⟩
    refine ⟨?_, entry⟩
    intro same
    rw [same, ht] at entry
    exact other (Option.some.inj entry).symm

theorem forgotten_of_together (h : partners openCommits path = [(partner, t)]) (q : String)
    (u : Timepoint) :
    ((openCommits.erase path).erase partner).get? q = some u ↔
      openCommits.get? q = some u ∧ u ≠ t := by
  obtain ⟨ht, hpartner, -⟩ := get?_of_partners h
  rw [OrderedMap.get?_erase_eq_some_iff, OrderedMap.get?_erase_eq_some_iff]
  constructor
  · rintro ⟨notPartner, other, entry⟩
    refine ⟨entry, ?_⟩
    intro same
    have mem := (@mem_partners_iff openCommits path t (q, u) ht).2 ⟨other, entry, same⟩
    simp only [h, List.mem_singleton, Prod.mk.injEq] at mem
    exact notPartner mem.1
  · rintro ⟨entry, other⟩
    refine ⟨?_, ?_, entry⟩
    · intro same
      rw [same, hpartner] at entry
      exact other (Option.some.inj entry).symm
    · intro same
      rw [same, ht] at entry
      exact other (Option.some.inj entry).symm

end

section

variable {site : Site} {path : String} {now : Timepoint}

theorem abandon_alone (h : partners site.directory.openCommits path = []) :
    forceUnlock.abandon path site = .ok [] (abandoned site path) := by
  unfold forceUnlock.abandon
  unfold partners at h
  rw [get_bind]
  cases ho : site.directory.openCommits.get? path with
  | none =>
    have same : abandoned site path = site := by
      unfold abandoned
      rw [OrderedMap.erase_of_get?_eq_none ho]
      rfl
    rw [same]
    rfl
  | some t =>
    rw [ho] at h
    simp only at h ⊢
    rw [bind_ok (setOpenCommits_eq _ _), h]
    rfl

theorem abandon_together {partner : String} {t : Timepoint}
    (h : partners site.directory.openCommits path = [(partner, t)]) :
    forceUnlock.abandon path site =
      match release partner (abandoned (abandoned site path) partner) with
        | .ok wasLocked site => .ok [(partner, wasLocked)] site
        | .error e site => .error e site := by
  unfold forceUnlock.abandon
  unfold partners at h
  rw [get_bind]
  cases ho : site.directory.openCommits.get? path with
  | none => simp [ho] at h
  | some t' =>
    rw [ho] at h
    simp only at h ⊢
    rw [bind_ok (setOpenCommits_eq _ _), h, List.mapM_cons, List.mapM_nil]
    cases hr : release partner (abandoned (abandoned site path) partner) with
    | error e site' =>
      apply bind_error
      rw [get_bind, bind_ok (setOpenCommits_eq _ _)]
      apply bind_error hr
    | ok wasLocked site' =>
      have one : (do
          setOpenCommits ((← get).directory.openCommits.erase partner)
          return (partner, ← release partner) : DirectoryM (String × Bool)) (abandoned site path) =
          .ok (partner, wasLocked) site' := by
        rw [get_bind, bind_ok (setOpenCommits_eq _ _)]
        apply bind_ok hr
      apply bind_ok one

theorem forceUnlock_outcome (h : site.directory.index.Valid now) (hp : Path.Valid path)
    (one : partners site.directory.openCommits path = [] ∨
      ∃ partner t, partners site.directory.openCommits path = [(partner, t)] ∧
        Path.Valid partner ∧ ∃ row, site.directory.index.last? partner = some row) :
    ForceUnlockOutcome path site (forceUnlock path site) := by
  unfold forceUnlock
  have first := release_outcome h hp
  cases hr : release path site with
  | error e site' =>
    rw [bind_error hr]
    rw [hr] at first
    cases first with
    | absent last => exact .absent last
    | refused row e host last kept => exact .refused row e host last kept
  | ok wasLocked site' =>
    rw [bind_ok hr]
    rw [hr] at first
    cases first with
    | done row host last kept =>
      rcases one with others | ⟨partner, t, others, valid, other, hother⟩
      · have abandon := @abandon_alone (relocked site path false host) path others
        rw [bind_ok abandon]
        exact .alone row host last kept others
      · have abandon := @abandon_together (relocked site path false host) path partner t others
        have second := @release_outcome
          (abandoned (abandoned (relocked site path false host) path) partner) partner now
          (h.setLocked hp false) valid
        cases hr' : release partner
            (abandoned (abandoned (relocked site path false host) path) partner) with
        | error e site'' =>
          rw [hr'] at abandon second
          rw [bind_error abandon]
          cases second with
          | absent last' =>
            -- the partner was there, and no row goes away by unlocking one
            change (site.directory.index.setLocked path false).last? partner = none at last'
            rw [RowIndex.last?_setLocked _ _ hp valid] at last'
            split at last'
            · simp [last] at last'
            · simp [hother] at last'
          | refused row' e host' last' kept' =>
            exact .partnerRefused row host partner t e host' last kept others kept'
        | ok wasLocked' site'' =>
          rw [hr'] at abandon second
          rw [bind_ok abandon]
          cases second with
          | done row' host' last' kept' =>
            exact .together row host partner t row' host' last kept others last' kept'

end

end TemporalStore.Directory
