import TemporalStore.Directory.Lookup
import TemporalStore.Proofs.Host.Replace
import TemporalStore.Proofs.Outcome
import TemporalStore.Proofs.Record.Branch
import TemporalStore.Proofs.Timeline.Lookup

/-!
This module contains what the small steps of a directory do: look a current row up, store rows and
announce an event.
-/

namespace TemporalStore

namespace Site

def withIndex (site : Site) (index : RowIndex) : Site :=
  { site with directory := { site.directory with index } }

def withOpenCommits (site : Site) (openCommits : OrderedMap String Timepoint) : Site :=
  { site with directory := { site.directory with openCommits } }

def withHost (site : Site) (host : Host) : Site := { site with host }

def announced (site : Site) (event : Event) : Site :=
  { site with directory := { site.directory with
      events := site.directory.events.broadcast event } }

def reported (site : Site) (record : LogRecord) : Site :=
  { site with host := { site.host with log := site.host.log ++ [record] } }

def ticked (site : Site) : Site :=
  { site with directory := { site.directory with
      clock := (site.directory.clock.tick site.host.wall).2 } }

/--
What keeping `index` in the file of the directory does to the host. Without a file there is nothing
to do.
-/
def persisted (site : Site) (index : RowIndex) : EStateM.Result StoreError Host Unit :=
  match site.directory.file with
  | some name => Host.writeRecord Directory.fileFormat name (Record.indexValue index) site.host
  | none => .ok () site.host

end Site

namespace Directory

open Site

variable {site : Site} {path : String}

theorem tick_eq (site : Site) : tick site = .ok site.ticked.directory.clock.last site.ticked := rfl

theorem last_lt_ticked (site : Site) :
    site.directory.clock.last < site.ticked.directory.clock.last := by
  apply Clock.last_lt_tick

theorem announce_eq (site : Site) (event : Event) :
    announce event site = .ok () (site.announced event) := rfl

theorem report_eq (site : Site) (record : LogRecord) :
    (liftM (Host.report record) : DirectoryM Unit) site = .ok () (site.reported record) := rfl

theorem setOpenCommits_eq (site : Site) (openCommits : OrderedMap String Timepoint) :
    setOpenCommits openCommits site = .ok () (site.withOpenCommits openCommits) := rfl

theorem checked_ok {α : Type} (a : α) (site : Site) : checked (.ok a) site = .ok a site := rfl

theorem lift_ok {α : Type} {act : HostM α} {a : α} {host : Host} (h : act site.host = .ok a host) :
    (liftM act : DirectoryM α) site = .ok a (site.withHost host) := by
  simp only [liftM, monadLift, MonadLift.monadLift, h]
  rfl

theorem lift_error {α : Type} {act : HostM α} {e : StoreError} {host : Host}
    (h : act site.host = .error e host) :
    (liftM act : DirectoryM α) site = .error e (site.withHost host) := by
  simp only [liftM, monadLift, MonadLift.monadLift, h]
  rfl

theorem persist_eq (site : Site) (index : RowIndex) :
    persist index site = match site.persisted index with
      | .ok () host => .ok () (site.withHost host)
      | .error e host => .error e (site.withHost host) := by
  unfold persist persisted
  rw [get_bind]
  cases site.directory.file with
  | none => rfl
  | some name =>
    cases hw : Host.writeRecord fileFormat name (Record.indexValue index) site.host with
    | ok a host =>
      simp only [hw]
      apply lift_ok hw
    | error e host =>
      simp only [hw]
      apply lift_error hw

theorem persist_ok {index : RowIndex} {host : Host} (h : site.persisted index = .ok () host) :
    persist index site = .ok () (site.withHost host) := by
  rw [persist_eq, h]

theorem persist_error {index : RowIndex} {host : Host} {e : StoreError}
    (h : site.persisted index = .error e host) :
    persist index site = .error e (site.withHost host) := by
  rw [persist_eq, h]

theorem writeRows_ok {batch : List BranchRow} {host : Host}
    (h : site.persisted (site.directory.index.apply batch) = .ok () host) :
    writeRows batch site =
      .ok () ((site.withIndex (site.directory.index.apply batch)).withHost host) := by
  unfold writeRows
  rw [get_bind, bind_ok (persist_ok h)]
  rfl

theorem writeRows_error {batch : List BranchRow} {host : Host} {e : StoreError}
    (h : site.persisted (site.directory.index.apply batch) = .error e host) :
    writeRows batch site = .error e (site.withHost host) := by
  unfold writeRows
  rw [get_bind, bind_error (persist_error h)]

/-! ## The current row -/

theorem current_of_index {found : Option BranchRow}
    (there : site.directory.index.current path = .ok found) :
    current path site = .ok found site := by
  unfold current
  rw [get_bind, there]
  rfl

section

variable {now : Timepoint} (h : site.directory.index.Valid now)

include h

theorem current_eq : current path site = .ok (site.directory.index.last? path) site :=
  current_of_index h.current_eq

theorem latestWithParentHead?_eq (hp : Path.Valid path) :
    latestWithParentHead? path site =
      .ok ((site.directory.index.last? path).map fun row =>
        (row, (Path.parent? path).bind fun parent =>
          (site.directory.index.last? parent).map BranchRow.head)) site := by
  unfold latestWithParentHead?
  rw [bind_ok (current_eq h)]
  cases hl : site.directory.index.last? path with
  | none => rfl
  | some row =>
    cases parent : Path.parent? path with
    | none => rfl
    | some parentPath =>
      obtain ⟨closed, hc⟩ := RowIndex.eq_append_of_last? hl
      obtain ⟨first, hf, -⟩ := h.parents path parentPath hp parent row (by simp [hc])
      obtain ⟨parentRow, hr⟩ := RowIndex.last?_isSome_of_first? hf
      simp only
      rw [bind_ok (current_eq h), hr]
      simp [hr]
      rfl

theorem latest?_eq (hp : Path.Valid path) :
    latest? path site = .ok (site.directory.index.last? path) site := by
  unfold latest?
  rw [bind_ok (latestWithParentHead?_eq h hp)]
  cases site.directory.index.last? path with
  | none => rfl
  | some row => rfl

theorem latest_eq (hp : Path.Valid path) :
    latest path site = match site.directory.index.last? path with
      | some row => .ok row site
      | none => .error (.branchNotFound path) site := by
  unfold latest
  rw [bind_ok (latest?_eq h hp)]
  cases site.directory.index.last? path with
  | none => rfl
  | some row => rfl

theorem latestWithStanding?_eq (hp : Path.Valid path) :
    ∃ answer, latestWithStanding? path site = .ok answer site := by
  unfold latestWithStanding?
  rw [bind_ok (latestWithParentHead?_eq h hp)]
  exact ⟨_, rfl⟩

end

end Directory

/-! ## The file -/

namespace Site

variable {site : Site} {index : RowIndex} {host : Host} {e : StoreError}

/--
The rows are in the file of the directory. Until they are written for the first time there is no
such file.
-/
def Stored (site : Site) : Prop :=
  ∀ name, site.directory.file = some name →
    (site.host.disk.contains name = false ∧ site.directory.index = {}) ∨
      site.host.disk.read name = .ok
        (Record.fileBytes Directory.fileFormat (Record.indexValue site.directory.index))

theorem persisted_of_file_eq_none (h : site.directory.file = none) :
    site.persisted index = .ok () site.host := by
  unfold persisted
  rw [h]

theorem read_of_persisted_ok (h : site.persisted index = .ok () host) {name : String}
    (hf : site.directory.file = some name) :
    host.disk.read name =
      .ok (Record.fileBytes Directory.fileFormat (Record.indexValue index)) := by
  unfold persisted at h
  rw [hf] at h
  obtain ⟨disk, rfl, read⟩ := Host.replaceFile_ok h
  exact read

theorem ids_of_persisted_ok (h : site.persisted index = .ok () host) :
    host.ids = site.host.ids := by
  unfold persisted at h
  cases hf : site.directory.file with
  | none =>
    simp only [hf, EStateM.Result.ok.injEq, true_and] at h
    rw [h]
  | some name =>
    rw [hf] at h
    obtain ⟨disk, rfl, -⟩ := Host.replaceFile_ok h
    rfl

theorem keeps_of_persisted_error (h : site.persisted index = .error e host) :
    (∃ cause, e = .io cause) ∧
      ∀ name, site.directory.file = some name → site.host.disk.Keeps host.disk name := by
  unfold persisted at h
  cases hf : site.directory.file with
  | none => simp [hf] at h
  | some name =>
    rw [hf] at h
    obtain ⟨⟨disk, rfl, keeps⟩, cause⟩ := Host.replaceFile_error h
    refine ⟨cause, ?_⟩
    intro name' hn
    rw [← Option.some.inj hn]
    exact keeps

theorem Stored.of_persisted_ok {site' : Site} (h : site.persisted index = .ok () host)
    (file : site'.directory.file = site.directory.file) (index' : site'.directory.index = index)
    (disk : site'.host.disk = host.disk) : site'.Stored := by
  intro name hf
  rw [file] at hf
  right
  rw [index', disk]
  exact read_of_persisted_ok h hf

theorem Stored.of_keeps {site' : Site} (h : site.Stored)
    (file : site'.directory.file = site.directory.file)
    (index : site'.directory.index = site.directory.index)
    (keeps : ∀ name, site.directory.file = some name →
      site.host.disk.Keeps site'.host.disk name) : site'.Stored := by
  intro name hf
  rw [file] at hf
  rw [index]
  rcases h name hf with ⟨absent, empty⟩ | read
  · left
    rw [(keeps name hf).contains]
    exact ⟨absent, empty⟩
  · right
    exact (keeps name hf).read _ read

end Site

end TemporalStore
