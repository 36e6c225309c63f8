import TemporalStore.Directory.Create
import TemporalStore.Proofs.Directory.Basic

/-!
This module contains what becomes of a directory when a branch is created, when all rows are
deleted, and when the directory is read from its file.
-/

namespace TemporalStore.Directory

/--
What a branch that is created at `t` is based on: the head of its parent, or `t` if it is a root.
-/
def InheritsFrom (index : RowIndex) (path : String) (t base : Timepoint) : Prop :=
  match Path.parent? path with
  | none => base = t
  | some parent => ∃ row, index.last? parent = some row ∧ base = row.head

def nextTimepoint (site : Site) : Timepoint := site.ticked.directory.clock.last

inductive CreateOutcome (path : String) (site : Site) :
    EStateM.Result StoreError Site BranchRow → Prop where
  | existing (row : BranchRow) (last : site.directory.index.last? path = some row) :
    CreateOutcome path site (.error (.branchExists path) site.ticked)
  | orphan (parent : String) (last : site.directory.index.last? path = none)
    (above : Path.parent? path = some parent) (missing : site.directory.index.last? parent = none) :
    CreateOutcome path site (.error (.parentNotFound parent) site.ticked)
  | refused (base : Timepoint) (e : StoreError) (host : Host)
    (last : site.directory.index.last? path = none)
    (inherits : InheritsFrom site.directory.index path (nextTimepoint site) base)
    (kept : site.persisted (site.directory.index.put path
      [BranchRow.fresh path base (nextTimepoint site)]) = .error e host) :
    CreateOutcome path site (.error e (site.ticked.withHost host))
  | created (base : Timepoint) (host : Host) (last : site.directory.index.last? path = none)
    (inherits : InheritsFrom site.directory.index path (nextTimepoint site) base)
    (kept : site.persisted (site.directory.index.put path
      [BranchRow.fresh path base (nextTimepoint site)]) = .ok () host) :
    CreateOutcome path site (.ok (BranchRow.fresh path base (nextTimepoint site))
      (((site.ticked.withIndex (site.directory.index.put path
        [BranchRow.fresh path base (nextTimepoint site)])).withHost host).announced
          (.created path base (nextTimepoint site))))

section

variable {site : Site} {path : String} {now : Timepoint}

theorem inheritedBase_eq (h : site.directory.index.Valid now) (t : Timepoint) :
    (∃ base, InheritsFrom site.directory.index path t base ∧
        create.inheritedBase path t site = .ok base site) ∨
      ∃ parent, Path.parent? path = some parent ∧ site.directory.index.last? parent = none ∧
        create.inheritedBase path t site = .error (.parentNotFound parent) site := by
  unfold create.inheritedBase InheritsFrom
  cases above : Path.parent? path with
  | none =>
    left
    exact ⟨t, rfl, rfl⟩
  | some parent =>
    have found : current parent site = .ok (site.directory.index.last? parent) site := current_eq h
    simp only
    rw [bind_ok found]
    cases last : site.directory.index.last? parent with
    | none =>
      right
      exact ⟨parent, rfl, last, rfl⟩
    | some row =>
      left
      exact ⟨row.head, ⟨row, rfl, rfl⟩, rfl⟩

theorem create_outcome (h : site.directory.index.Valid now) (hp : Path.Valid path) :
    CreateOutcome path site (create path site) := by
  have found : current path site.ticked = .ok (site.directory.index.last? path) site.ticked :=
    current_eq h
  unfold create
  rw [hp, bind_ok (checked_ok () site), bind_ok (tick_eq site), bind_ok found]
  cases last : site.directory.index.last? path with
  | some row => exact .existing row last
  | none =>
    simp only [Option.isSome_none, Bool.false_eq_true, if_false]
    rcases @inheritedBase_eq site.ticked path now h (nextTimepoint site) with
      ⟨base, inherits, answer⟩ | ⟨parent, above, missing, answer⟩
    · have batch : site.ticked.directory.index.apply
          [BranchRow.fresh path base (nextTimepoint site)] =
          site.directory.index.put path [BranchRow.fresh path base (nextTimepoint site)] :=
        RowIndex.apply_begin last rfl
      have answer : create.inheritedBase path site.ticked.directory.clock.last site.ticked =
          .ok base site.ticked := answer
      rw [bind_ok answer]
      cases kept : site.persisted (site.directory.index.put path
          [BranchRow.fresh path base (nextTimepoint site)]) with
      | error e host =>
        have refused : site.ticked.persisted (site.ticked.directory.index.apply
            [BranchRow.fresh path base (nextTimepoint site)]) = .error e host := by
          rw [batch]
          exact kept
        have written := writeRows_error refused
        unfold nextTimepoint at written
        rw [bind_error written]
        exact .refused base e host last inherits kept
      | ok a host =>
        have stored : site.ticked.persisted (site.ticked.directory.index.apply
            [BranchRow.fresh path base (nextTimepoint site)]) = .ok () host := by
          rw [batch]
          exact kept
        have written := writeRows_ok stored
        rw [batch] at written
        unfold nextTimepoint at written
        rw [bind_ok written]
        exact .created base host last inherits kept
    · have answer : create.inheritedBase path site.ticked.directory.clock.last site.ticked =
          .error (.parentNotFound parent) site.ticked := answer
      rw [bind_error answer]
      exact .orphan parent last above missing

end

/-! ## Deleting all rows -/

def purged (site : Site) : Site :=
  { site with directory := { site.directory with
      index := {}
      openCommits := ∅
      history := site.directory.history.clear } }

inductive PurgeOutcome (site : Site) : EStateM.Result StoreError Site Nat → Prop where
  | refused (e : StoreError) (host : Host) (kept : site.persisted {} = .error e host) :
    PurgeOutcome site (.error e (site.withHost host))
  | done (host : Host) (kept : site.persisted {} = .ok () host) :
    PurgeOutcome site (.ok site.directory.rowCount
      (((purged (site.withHost host)).reported (.purged site.directory.rowCount)).announced
        (.purged site.directory.rowCount)))

theorem purge_outcome (site : Site) : PurgeOutcome site (purge site) := by
  cases kept : site.persisted {} with
  | error e host =>
    have answer : purge site = .error e (site.withHost host) := by
      unfold purge
      rw [get_bind, bind_error (persist_error kept)]
    rw [answer]
    exact .refused e host kept
  | ok a host =>
    have erased : (modify fun site => { site with
        directory := { site.directory with
          index := {}
          openCommits := ∅
          history := site.directory.history.clear } } : DirectoryM Unit) (site.withHost host) =
        .ok () (purged (site.withHost host)) := rfl
    unfold purge
    rw [get_bind, bind_ok (persist_ok kept), bind_ok erased, bind_ok (report_eq _ _),
      bind_ok (announce_eq _ _)]
    exact .done host kept

theorem save_eq (site : Site) : save site = persist site.directory.index site := by
  unfold save
  rw [get_bind]

/-! ## Reading a directory -/

theorem load_of_missing {name : String} {host : Host} (cacheSize : Nat)
    (h : host.disk.contains name = false) :
    load name cacheSize host = .ok (ofIndex (some name) {} cacheSize) host := by
  unfold load
  rw [get_bind, h]
  rfl

theorem load_of_read {name : String} {host : Host} {bytes : List UInt8} (cacheSize : Nat)
    (h : host.disk.read name = .ok bytes) :
    load name cacheSize host = match Record.ofFileBytes fileFormat Record.index? name bytes with
      | .ok index => .ok (ofIndex (some name) index cacheSize) host
      | .error e => .error e host := by
  have read := @Host.readRecord_of_read _ fileFormat Record.index? _ _ _ h
  unfold load
  rw [get_bind, Disk.contains_of_read h]
  cases hr : Record.ofFileBytes fileFormat Record.index? name bytes with
  | ok index =>
    rw [hr] at read
    simp only [if_true]
    apply bind_ok read
  | error e =>
    rw [hr] at read
    simp only [if_true]
    apply bind_error read

end TemporalStore.Directory
