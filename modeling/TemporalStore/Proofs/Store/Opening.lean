import TemporalStore.Proofs.Directory.Reopen
import TemporalStore.Proofs.Store.Files

/-!
This module contains how stores are opened and closed, and that this and whatever is done with their
branches leaves all other files alone.
-/

namespace TemporalStore

namespace Store

variable {path : String}

/-! ## What is left alone -/

section

variable {file : String} (aside : Aside path file)

include aside

theorem leaves_acquire : Host.Leaves file (acquire path) := by
  apply (Host.leaves_write aside.lock []).bind
  intro _ host
  rw [get_bind]
  cases held : host.disk.hold? (lockName path) with
  | none => exact .refl _ _
  | some found =>
    have nodes : found.2.nodes = host.disk.nodes := by
      unfold Disk.hold? at held
      split at held
      · split at held
        · simp at held
        · rw [← Option.some.inj held]
      · simp at held
    apply Disk.keeps_of_sameDirectories
    · intro place
      change found.2.nodes.get? place = _ ↔ _
      rw [nodes]
    · intro spot part _ _
      change found.2.nodes.get? _ = _
      rw [nodes]

omit aside in
theorem leaves_release (serial : Nat) : Host.Leaves file (release serial) :=
  Host.leaves_modify fun _ => rfl

omit aside in
theorem leaves_load (name : String) (cacheSize : Nat) :
    Host.Leaves file (Directory.load name cacheSize) := by
  intro host
  rcases Directory.load_cases name cacheSize host with ⟨index, loaded⟩ | ⟨e, failed⟩
  · rw [loaded]
    exact .refl _ _
  · rw [failed]
    exact .refl _ _

omit aside in
theorem whileHeld_eq (path : String) (act : HostM Directory) :
    whileHeld path act = (do
      let lock ← acquire path
      tryCatch (act >>= fun directory => pure ({ path, lock, directory } : Store)) fun e => do
        release lock
        throw e) := by
  unfold whileHeld
  apply bind_congr
  intro lock
  funext host
  change EStateM.bind (EStateM.tryCatch (EStateM.bind act _) _) _ host =
    EStateM.tryCatch (EStateM.bind act _) _ host
  unfold EStateM.bind EStateM.tryCatch
  cases result : act host with
  | ok directory host' =>
    simp only [result]
    rfl
  | error e host' =>
    simp only [result]
    rfl

theorem leaves_whileHeld {act : HostM Directory} (h : Host.Leaves file act) :
    Host.Leaves file (whileHeld path act) := by
  rw [whileHeld_eq]
  apply (leaves_acquire aside).bind
  intro lock
  apply Host.Leaves.tryCatch
  · apply h.bind
    intro directory
    exact Host.leaves_pure _
  · intro e
    apply (leaves_release lock).bind
    intro _
    exact Host.leaves_throw e

omit aside in
theorem leaves_verifyManifest (path : String) : Host.Leaves file (verifyManifest path) := by
  apply (Host.leaves_ask _).bind
  intro bytes
  cases checkManifest bytes with
  | ok _ => exact Host.leaves_pure _
  | error e => exact Host.leaves_throw e

theorem leaves_openExisting {config : StoreConfig} (here : config.path = path) :
    Host.Leaves file (openExisting config) := by
  rw [← here] at aside
  have held : Host.Leaves file (whileHeld config.path
      (Directory.load (branchesName config.path) config.cacheSize)) :=
    leaves_whileHeld aside (leaves_load _ _)
  apply Host.Leaves.bind (Host.leaves_get_bind fun host => Host.leaves_pure _)
  intro initialized
  cases initialized with
  | false => exact Host.leaves_throw _
  | true =>
    apply (leaves_verifyManifest config.path).bind
    intro _
    exact held

end

/-! ## Branches -/

/--
As long as the branches are in their file of the store at `path`, the other file is left alone.
-/
def LeavesAside (path file : String) (site site' : Site) : Prop :=
  site'.directory.file = site.directory.file ∧
    (site.directory.file = some (branchesName path) →
      site.host.disk.Keeps site'.host.disk file)

theorem leavesAside_always {file : String} (aside : Aside path file) :
    Lasting.Always (LeavesAside path file) where
  refl _ := ⟨rfl, fun _ => .refl _ _⟩
  trans := by
    rintro site site' site'' ⟨same, keeps⟩ ⟨same', keeps'⟩
    refine ⟨same'.trans same, ?_⟩
    intro here
    exact (keeps here).trans (keeps' (same.trans here))
  ticked _ := ⟨rfl, fun _ => .refl _ _⟩
  reported _ _ := ⟨rfl, fun _ => .refl _ _⟩
  looked _ _ := ⟨rfl, fun _ => .refl _ _⟩
  announced _ _ := ⟨rfl, fun _ => .refl _ _⟩
  withOpenCommits _ _ := ⟨rfl, fun _ => .refl _ _⟩
  withIndex _ _ := ⟨rfl, fun _ => .refl _ _⟩
  persisted site index := by
    refine ⟨rfl, ?_⟩
    intro here
    have kept := Host.leaves_replaceFile aside.branches aside.temporary
      (Record.fileBytes Directory.fileFormat (Record.indexValue index)) site.host
    have same : site.persisted index = Host.replaceFile (branchesName path)
        (Record.fileBytes Directory.fileFormat (Record.indexValue index)) site.host := by
      unfold Site.persisted
      rw [here]
      rfl
    rw [same]
    exact kept

theorem leaves_onDirectory {file : String} {directory : Directory} {act : DirectoryM Unit}
    (h : Upholds (LeavesAside path file) act) (here : directory.file = some (branchesName path)) :
    Host.Leaves file (onDirectory directory act) := by
  intro host
  unfold onDirectory
  cases result : act ⟨directory, host⟩ with
  | ok u site => exact (h.of_ok result).2 here
  | error e site => exact (h.of_error result).2 here

theorem leaves_close {store : Store} {file : String} (aside : Aside path file)
    (here : store.directory.file = some (branchesName path)) :
    Host.Leaves file (close store) := by
  have saves : Host.Leaves file (onDirectory store.directory Directory.save) :=
    leaves_onDirectory (Directory.upholds_save (leavesAside_always aside)) here
  have tried : Host.Leaves file
      (tryCatch (discard (onDirectory store.directory Directory.save)) fun _ => pure ()) :=
    saves.discard.tryCatch fun _ => Host.leaves_pure ()
  exact tried.bind fun _ => leaves_release store.lock

/-! ## Opened stores -/

/--
The store is the one at `path`, and its branches are in their file there.
-/
structure IsAt (store : Store) (path : String) : Prop where
  same : store.path = path
  branches : store.directory.file = some (branchesName path)

/--
In one way or another a store is opened with success.
-/
def Opens (config : StoreConfig) (host : Host) (store : Store) (host' : Host) : Prop :=
  create config host = .ok store host' ∨ openExisting config host = .ok store host' ∨
    openOrCreate config host = .ok store host'

section

variable {config : StoreConfig} {host host' : Host} {store : Store}

theorem exists_of_whileHeld_ok {act : HostM Directory}
    (ok : whileHeld path act host = .ok store host') :
    ∃ lock middle, acquire path host = .ok lock middle ∧
      act middle = .ok store.directory host' ∧ store.path = path := by
  rw [whileHeld_eq] at ok
  obtain ⟨lock, middle, acquired, caught⟩ := exists_of_bind_ok ok
  refine ⟨lock, middle, acquired, ?_⟩
  cases result : act middle with
  | ok directory after =>
    have held : (act >>= fun directory => pure ({ path, lock, directory } : Store)) middle =
        .ok { path, lock, directory } after := bind_ok result
    rw [tryCatch_ok held] at caught
    cases caught
    exact ⟨rfl, rfl⟩
  | error e after =>
    have failed : (act >>= fun directory => pure ({ path, lock, directory } : Store)) middle =
        .error e after := bind_error result
    rw [tryCatch_error failed] at caught
    cases caught

theorem file_of_load_ok {name : String} {cacheSize : Nat} {directory : Directory}
    (ok : Directory.load name cacheSize host = .ok directory host') :
    directory.file = some name := by
  rcases Directory.load_cases name cacheSize host with ⟨index, loaded⟩ | ⟨e, failed⟩
  · rw [loaded] at ok
    cases ok
    rfl
  · rw [failed] at ok
    cases ok

theorem isInitialized_eq (path : String) (host : Host) :
    isInitialized path host = .ok (host.disk.contains (manifestName path)) host := rfl

theorem openExisting_of_missing (missing : host.disk.contains (manifestName config.path) = false) :
    openExisting config host = .error .notInitialized host := by
  unfold openExisting
  rw [bind_ok (isInitialized_eq config.path host), missing]
  rfl

theorem openExisting_of_present (present : host.disk.contains (manifestName config.path) = true) :
    openExisting config host = (do
      verifyManifest config.path
      whileHeld config.path (Directory.load (branchesName config.path) config.cacheSize)) host := by
  unfold openExisting
  rw [bind_ok (isInitialized_eq config.path host), present]
  rfl

theorem openOrCreate_of_present (present : host.disk.contains (manifestName config.path) = true) :
    openOrCreate config host = openExisting config host := by
  unfold openOrCreate
  rw [bind_ok (isInitialized_eq config.path host), present]
  rfl

theorem create_or_openExisting_of_openOrCreate (ok : openOrCreate config host = .ok store host') :
    create config host = .ok store host' ∨ openExisting config host = .ok store host' := by
  cases there : host.disk.contains (manifestName config.path) with
  | true =>
    rw [openOrCreate_of_present there] at ok
    exact .inr ok
  | false =>
    unfold openOrCreate at ok
    rw [bind_ok (isInitialized_eq config.path host), there] at ok
    cases may : config.createIfMissing with
    | true =>
      rw [may] at ok
      exact .inl ok
    | false =>
      rw [may] at ok
      cases ok

theorem opens_openExisting (ok : openExisting config host = .ok store host') :
    store.IsAt config.path ∧ host'.disk.contains (manifestName config.path) = true := by
  have kept := (leaves_openExisting (aside_manifest config.path) rfl).of_ok ok
  cases there : host.disk.contains (manifestName config.path) with
  | false =>
    rw [openExisting_of_missing there] at ok
    cases ok
  | true =>
    rw [openExisting_of_present there] at ok
    obtain ⟨_, middle, -, held⟩ := exists_of_bind_ok ok
    obtain ⟨_, _, -, loaded, path⟩ := exists_of_whileHeld_ok held
    exact ⟨⟨path, file_of_load_ok loaded⟩, kept.contains.trans there⟩

theorem opens_create (ok : create config host = .ok store host') :
    store.IsAt config.path ∧ host'.disk.contains (manifestName config.path) = true := by
  unfold create at ok
  obtain ⟨_, _, -, ok⟩ := exists_of_bind_ok ok
  obtain ⟨_, _, -, held⟩ := exists_of_bind_ok ok
  obtain ⟨_, before, -, made, path⟩ := exists_of_whileHeld_ok held
  obtain ⟨_, written, wrote, made⟩ := exists_of_bind_ok made
  obtain ⟨directory, middle, loaded, saved⟩ := exists_of_bind_ok made
  have file := file_of_load_ok loaded
  have aside := leavesAside_always (aside_manifest config.path)
  have there : written.disk.contains (manifestName config.path) = true := by
    unfold writeManifest at wrote
    rw [Host.change_eq] at wrote
    split at wrote
    · rename_i disk named
      cases wrote
      exact Disk.contains_of_read (Disk.read_of_write named)
    · cases wrote
  have kept : written.disk.Keeps middle.disk (manifestName config.path) :=
    (leaves_load _ _).of_ok loaded
  have kept' := (leaves_onDirectory (Directory.upholds_save aside) file).of_ok saved
  refine ⟨⟨path, ?_⟩, (kept'.contains.trans kept.contains).trans there⟩
  unfold onDirectory at saved
  cases result : Directory.save ⟨directory, middle⟩ with
  | ok u site =>
    rw [result] at saved
    simp only [EStateM.Result.ok.injEq] at saved
    rw [← saved.1, ((Directory.upholds_save aside).of_ok result).1]
    exact file
  | error e site =>
    rw [result] at saved
    cases saved

/--
The manifest is there when the store has been opened.
-/
theorem Opens.isAt (h : Opens config host store host') :
    store.IsAt config.path ∧ host'.disk.contains (manifestName config.path) = true := by
  rcases h with ok | ok | ok
  · exact opens_create ok
  · exact opens_openExisting ok
  · rcases create_or_openExisting_of_openOrCreate ok with ok | ok
    · exact opens_create ok
    · exact opens_openExisting ok

end

end Store

end TemporalStore
