import TemporalStore.Proofs.Document.Snapshot
import TemporalStore.Proofs.Store.Opening

/-!
This module contains the snapshots of a store that is used, closed and opened again: under every
name there is what was saved last under that name, whatever else is done.
-/

namespace TemporalStore

namespace Store

/--
Letters and digits are those of ASCII.
-/
def ValidName (name : String) : Prop :=
  name ≠ "" ∧ ∀ letter ∈ name.toList, letter.isAlphanum ∨ letter = '-' ∨ letter = '_'

instance (name : String) : Decidable (ValidName name) := inferInstanceAs (Decidable (_ ∧ _))

section

variable {path name : String} {kind : DocumentKind} {c : Collection} {host : Host}

theorem isCollectionName_iff : isCollectionName name = true ↔ ValidName name := by
  unfold isCollectionName ValidName
  simp [or_assoc]

theorem namedSnapshot_of (h : isCollectionName name) :
    namedSnapshot path name host = .ok (collectionName path name) host := by
  unfold namedSnapshot snapshotName
  rw [if_pos h]
  rfl

theorem namedSnapshot_of_not (h : ¬ isCollectionName name) :
    namedSnapshot path name host =
      .error (.invalidPath s!"Invalid collection name: {name}") host := by
  unfold namedSnapshot snapshotName
  rw [if_neg h]
  rfl

theorem saveCollection_of (h : isCollectionName name) :
    saveCollection path name kind c host =
      Host.replaceFile (collectionName path name) (c.snapshotBytes kind) host := by
  unfold saveCollection
  rw [bind_ok (namedSnapshot_of h)]
  rfl

theorem loadCollection_of (h : isCollectionName name) :
    loadCollection path name kind host =
      if host.disk.contains (collectionName path name) then
        Collection.readSnapshot kind (collectionName path name) host
      else .ok {} host := by
  unfold loadCollection
  rw [bind_ok (namedSnapshot_of h), get_bind]
  split
  · rfl
  · rfl

theorem saveCollection_of_not (h : ¬ isCollectionName name) :
    saveCollection path name kind c host =
      .error (.invalidPath s!"Invalid collection name: {name}") host := by
  unfold saveCollection
  exact bind_error (namedSnapshot_of_not h)

theorem loadCollection_of_not (h : ¬ isCollectionName name) :
    loadCollection path name kind host =
      .error (.invalidPath s!"Invalid collection name: {name}") host := by
  unfold loadCollection
  exact bind_error (namedSnapshot_of_not h)

end

section

variable {path name file : String}

theorem leaves_saveCollection (kind : DocumentKind) (c : Collection)
    (apart : isCollectionName name → Disk.Apart (collectionName path name) file)
    (temporary : isCollectionName name →
      Disk.Apart (Host.temporaryName (collectionName path name)) file) :
    Host.Leaves file (saveCollection path name kind c) := by
  intro host
  by_cases valid : isCollectionName name
  · rw [saveCollection_of valid]
    exact Host.leaves_replaceFile (apart valid) (temporary valid) _ host
  · rw [saveCollection_of_not valid]
    exact .refl _ _

theorem leaves_readSnapshot (kind : DocumentKind) (name : String) :
    Host.Leaves file (Collection.readSnapshot kind name) := by
  have drawn (ids : IdSupply) (c : Collection) :
      Host.Leaves file (do modify fun host => { host with ids }; return c) :=
    (Host.leaves_modify fun _ => rfl).bind fun _ => Host.leaves_pure c
  apply (Host.leaves_readRecord name).bind
  intro docs
  apply Host.leaves_get_bind
  intro host
  exact drawn _ _

theorem leaves_loadCollection (path name : String) (kind : DocumentKind) :
    Host.Leaves file (loadCollection path name kind) := by
  intro host
  by_cases valid : isCollectionName name
  · rw [loadCollection_of valid]
    split
    · exact leaves_readSnapshot kind _ host
    · exact .refl _ _
  · rw [loadCollection_of_not valid]
    exact .refl _ _

end

end Store

/--
A store that is used over time, with the host that it is on. It need not be open at the moment.
-/
structure Depot where
  path : String
  host : Host
  store : Option Store := none

/--
What may be done with a store, with success or without.
-/
inductive Depot.Deed : Type 1 where
  | elapse (wall : Timepoint)
  | operate {α : Type} (op : Operation α)
  | save (name : String) (kind : DocumentKind) (c : Collection)
  | load (name : String) (kind : DocumentKind)
  | close
  | openExisting (cacheSize : Nat)
  | openOrCreate (createIfMissing : Bool) (cacheSize : Nat)

namespace Depot

open Store (collectionName manifestName isCollectionName Aside)

/--
The store is open from now on, unless it could not be opened.
-/
def opened (depot : Depot) (act : HostM Store) : Depot :=
  match act depot.host with
  | .ok store host => { depot with host, store := some store }
  | .error _ host => { depot with host }

/--
Nothing is done if the store is closed.
-/
def withStore (depot : Depot) (use : Store → Depot) : Depot :=
  match depot.store with
  | some store => use store
  | none => depot

def step (depot : Depot) : Deed → Depot
  | .elapse wall => { depot with host := { depot.host with wall } }
  | .operate op => depot.withStore fun store =>
    let site := afterwards (op.perform { directory := store.directory, host := depot.host })
    { depot with host := site.host, store := some { store with directory := site.directory } }
  | .save name kind c => depot.withStore fun store =>
    { depot with host := afterwards (Store.saveCollection store.path name kind c depot.host) }
  | .load name kind => depot.withStore fun store =>
    { depot with host := afterwards (Store.loadCollection store.path name kind depot.host) }
  | .close => depot.withStore fun store =>
    { depot with host := afterwards (Store.close store depot.host), store := none }
  | .openExisting cacheSize => depot.opened (Store.openExisting { path := depot.path, cacheSize })
  | .openOrCreate createIfMissing cacheSize =>
    depot.opened (Store.openOrCreate { path := depot.path, createIfMissing, cacheSize })

def run (depot : Depot) : List Deed → Depot
  | [] => depot
  | deed :: deeds => (depot.step deed).run deeds

/--
What is saved under the name, if this is what is done and it succeeds.
-/
def saved? (depot : Depot) (name : String) : Deed → Option (DocumentKind × Collection)
  | .save other kind c =>
    match depot.store with
    | some store =>
      match Store.saveCollection store.path other kind c depot.host with
      | .ok _ _ => if other = name then some (kind, c) else none
      | .error _ _ => none
    | none => none
  | _ => none

/--
What was saved last under the name.
-/
def lastSaved? (depot : Depot) (name : String) : List Deed → Option (DocumentKind × Collection)
  | [] => none
  | deed :: deeds => ((depot.step deed).lastSaved? name deeds).or (depot.saved? name deed)

/-! ## One deed -/

/--
The manifest of the store is in place, and if the store is open, it is the one at this path.
-/
structure Sound (depot : Depot) : Prop where
  manifest : depot.host.disk.contains (manifestName depot.path) = true
  isAt : ∀ store, depot.store = some store → store.IsAt depot.path

/--
Whatever is saved by it is in another file.
-/
def Deed.Spares (path file : String) : Deed → Prop
  | .save name _ _ => isCollectionName name →
    Disk.Apart (collectionName path name) file ∧
      Disk.Apart (Host.temporaryName (collectionName path name)) file
  | _ => True

section

variable {depot : Depot} {deed : Deed} {file name : String}

theorem opened_of_ok {act : HostM Store} {store : Store} {host : Host}
    (ok : act depot.host = .ok store host) :
    depot.opened act = { depot with host, store := some store } := by
  unfold opened
  rw [ok]

theorem opened_of_error {act : HostM Store} {e : StoreError} {host : Host}
    (failed : act depot.host = .error e host) : depot.opened act = { depot with host } := by
  unfold opened
  rw [failed]

theorem host_opened (depot : Depot) (act : HostM Store) :
    (depot.opened act).host = afterwards (act depot.host) := by
  cases result : act depot.host with
  | ok store host =>
    rw [opened_of_ok result]
    rfl
  | error e host =>
    rw [opened_of_error result]
    rfl

theorem path_opened (depot : Depot) (act : HostM Store) : (depot.opened act).path = depot.path := by
  cases result : act depot.host with
  | ok store host => rw [opened_of_ok result]
  | error e host => rw [opened_of_error result]

theorem withStore_of_open {store : Store} {use : Store → Depot}
    (isOpen : depot.store = some store) : depot.withStore use = use store := by
  unfold withStore
  rw [isOpen]

theorem holds_withStore {P : Depot → Prop} {use : Store → Depot} (idle : P depot)
    (used : ∀ store, depot.store = some store → P (use store)) : P (depot.withStore use) := by
  unfold withStore
  cases isOpen : depot.store with
  | none => exact idle
  | some store => exact used store isOpen

theorem path_step : (depot.step deed).path = depot.path := by
  cases deed with
  | elapse wall => rfl
  | openExisting cacheSize => exact path_opened depot _
  | openOrCreate createIfMissing cacheSize => exact path_opened depot _
  | _ => exact holds_withStore (P := fun after => after.path = depot.path) rfl fun _ _ => rfl

/--
A file stays as it is if nothing is saved to it.
-/
theorem keeps_step (h : depot.Sound) (aside : Aside depot.path file)
    (spares : deed.Spares depot.path file) :
    depot.host.disk.Keeps (depot.step deed).host.disk file := by
  have kept (act : HostM Store) (leaves : Host.Leaves file act) :
      depot.host.disk.Keeps (depot.opened act).host.disk file := by
    rw [host_opened]
    exact leaves depot.host
  have used {use : Store → Depot} (leaves : ∀ store, depot.store = some store →
      depot.host.disk.Keeps (use store).host.disk file) :
      depot.host.disk.Keeps (depot.withStore use).host.disk file :=
    holds_withStore (P := fun after => depot.host.disk.Keeps after.host.disk file) (.refl _ _)
      leaves
  cases deed with
  | elapse wall => exact .refl _ _
  | operate op =>
    apply used
    intro store isOpen
    have always := Store.leavesAside_always aside
    exact (Directory.upholds_perform always op ⟨store.directory, depot.host⟩).2
      (h.isAt store isOpen).branches
  | save name kind c =>
    apply used
    intro store isOpen
    rw [(h.isAt store isOpen).same]
    exact Store.leaves_saveCollection kind c (fun valid => (spares valid).1)
      (fun valid => (spares valid).2) depot.host
  | load name kind =>
    apply used
    intro store isOpen
    exact Store.leaves_loadCollection store.path name kind depot.host
  | close =>
    apply used
    intro store isOpen
    exact Store.leaves_close aside (h.isAt store isOpen).branches depot.host
  | openExisting cacheSize => exact kept _ (Store.leaves_openExisting aside rfl)
  | openOrCreate createIfMissing cacheSize =>
    have same := @Store.openOrCreate_of_present
      { path := depot.path, createIfMissing, cacheSize } depot.host h.manifest
    change Disk.Keeps _ (depot.opened _).host.disk file
    rw [host_opened, same]
    exact Store.leaves_openExisting aside rfl depot.host

theorem spares_manifest (deed : Deed) (path : String) :
    deed.Spares path (manifestName path) := by
  cases deed with
  | save name kind c =>
    intro valid
    exact ⟨Store.apart_collection_manifest valid,
      Store.apart_temporary_manifest (Store.getLast?_steps_collectionName valid)⟩
  | _ => trivial

theorem isAt_opened {act : HostM Store} {config : StoreConfig} (h : depot.Sound)
    (here : config.path = depot.path)
    (opens : ∀ store host, act depot.host = .ok store host →
      Store.Opens config depot.host store host) :
    ∀ store, (depot.opened act).store = some store → store.IsAt depot.path := by
  intro store isOpen
  cases result : act depot.host with
  | ok store' host =>
    rw [opened_of_ok result] at isOpen
    cases isOpen
    rw [← here]
    exact (opens store host result).isAt.1
  | error e host =>
    rw [opened_of_error result] at isOpen
    exact h.isAt store isOpen

theorem Sound.step (h : depot.Sound) (deed : Deed) : (depot.step deed).Sound where
  manifest := by
    have kept := keeps_step h (Store.aside_manifest depot.path) (spares_manifest deed depot.path)
    rw [path_step, kept.contains]
    exact h.manifest
  isAt := by
    have used {use : Store → Depot} (stays : ∀ store, depot.store = some store →
        ∀ store', (use store).store = some store' → store'.IsAt depot.path) :
        ∀ store', (depot.withStore use).store = some store' → store'.IsAt depot.path :=
      holds_withStore (P := fun after => ∀ store', after.store = some store' →
        store'.IsAt depot.path) h.isAt stays
    rw [path_step]
    cases deed with
    | elapse wall => exact h.isAt
    | operate op =>
      apply used
      rintro store isOpen _ ⟨⟩
      have before := h.isAt store isOpen
      have always := Store.leavesAside_always (Store.aside_manifest depot.path)
      have file := (Directory.upholds_perform always op ⟨store.directory, depot.host⟩).1
      exact ⟨before.same, file.trans before.branches⟩
    | save name kind c => exact used fun store isOpen => h.isAt
    | load name kind => exact used fun store isOpen => h.isAt
    | close =>
      apply used
      rintro store isOpen _ ⟨⟩
    | openExisting cacheSize => exact isAt_opened h rfl fun _ _ ok => .inr (.inl ok)
    | openOrCreate createIfMissing cacheSize => exact isAt_opened h rfl fun _ _ ok => .inr (.inr ok)

/-! ## Snapshots -/

theorem exists_of_saved? {deed : Deed} {kind : DocumentKind} {c : Collection}
    (saved : depot.saved? name deed = some (kind, c)) :
    deed = .save name kind c ∧ ∃ store host, depot.store = some store ∧
      Store.saveCollection store.path name kind c depot.host = .ok () host := by
  cases deed with
  | save other kind' c' =>
    unfold saved? at saved
    cases isOpen : depot.store with
    | none => simp [isOpen] at saved
    | some store =>
      rw [isOpen] at saved
      simp only at saved
      cases result : Store.saveCollection store.path other kind' c' depot.host with
      | ok u host =>
        simp only [result] at saved
        split at saved
        · rename_i same
          cases saved
          subst same
          exact ⟨rfl, store, host, rfl, result⟩
        · cases saved
      | error e host => simp [result] at saved
  | _ => cases saved

theorem read_of_saved? (h : depot.Sound) (valid : isCollectionName name)
    {kind : DocumentKind} {c : Collection} (saved : depot.saved? name deed = some (kind, c)) :
    (depot.step deed).host.disk.read (collectionName depot.path name) =
      .ok (c.snapshotBytes kind) := by
  obtain ⟨rfl, store, host, isOpen, ok⟩ := exists_of_saved? saved
  change (depot.withStore _).host.disk.read _ = _
  rw [withStore_of_open isOpen, ok]
  rw [(h.isAt store isOpen).same, Store.saveCollection_of valid] at ok
  obtain ⟨disk, rfl, read⟩ := Host.replaceFile_ok ok
  exact read

/--
A snapshot stays as it is unless another one is saved under its name.
-/
theorem keeps_of_saved?_eq_none (h : depot.Sound) (valid : isCollectionName name)
    (unsaved : depot.saved? name deed = none) :
    depot.host.disk.Keeps (depot.step deed).host.disk (collectionName depot.path name) := by
  have elsewhere (spares : deed.Spares depot.path (collectionName depot.path name)) :=
    keeps_step h (Store.aside_collection depot.path valid) spares
  cases deed with
  | save other kind c =>
    by_cases same : other = name
    · -- it was not saved, so saving it has failed
      subst same
      apply holds_withStore (P := fun after => depot.host.disk.Keeps after.host.disk _) (.refl _ _)
      intro store isOpen
      unfold saved? at unsaved
      rw [isOpen] at unsaved
      cases result : Store.saveCollection store.path other kind c depot.host with
      | ok u host => simp [result] at unsaved
      | error e host =>
        rw [(h.isAt store isOpen).same, Store.saveCollection_of valid] at result
        obtain ⟨⟨disk, rfl, kept⟩, -⟩ := Host.replaceFile_error result
        exact kept
    · apply elsewhere
      intro valid'
      exact ⟨Store.apart_collections valid' valid (Ne.symm same),
        Store.apart_temporary_collections valid' valid⟩
  | _ => exact elsewhere trivial

end

section

variable {depot : Depot} {deeds : List Deed} {name : String}

theorem path_run : (depot.run deeds).path = depot.path := by
  induction deeds generalizing depot with
  | nil => rfl
  | cons deed deeds ih => exact ih.trans path_step

theorem Sound.run (h : depot.Sound) : (depot.run deeds).Sound := by
  induction deeds generalizing depot with
  | nil => exact h
  | cons deed deeds ih => exact ih (h.step deed)

theorem keeps_run (h : depot.Sound) (valid : isCollectionName name)
    (unsaved : depot.lastSaved? name deeds = none) :
    depot.host.disk.Keeps (depot.run deeds).host.disk (collectionName depot.path name) := by
  induction deeds generalizing depot with
  | nil => exact .refl _ _
  | cons deed deeds ih =>
    obtain ⟨later, now⟩ := Option.or_eq_none_iff.1 unsaved
    have kept := ih (h.step deed) later
    rw [path_step] at kept
    exact (keeps_of_saved?_eq_none h valid now).trans kept

theorem read_run (h : depot.Sound) (valid : isCollectionName name) {kind : DocumentKind}
    {c : Collection} (saved : depot.lastSaved? name deeds = some (kind, c)) :
    (depot.run deeds).host.disk.read (collectionName depot.path name) =
      .ok (c.snapshotBytes kind) := by
  induction deeds generalizing depot with
  | nil => cases saved
  | cons deed deeds ih =>
    rcases Option.or_eq_some_iff.1 saved with later | ⟨later, now⟩
    · have read := ih (h.step deed) later
      rw [path_step] at read
      exact read
    · have kept := keeps_run (h.step deed) valid later
      rw [path_step] at kept
      exact kept.read _ (read_of_saved? h valid now)

/--
What is loaded under a name is what was saved last under it, for whoever looks for documents in it
as well as when it is saved again. Where nothing was saved the file is as it was, and without a file
nothing is loaded. Other names are refused, and nothing is done about them.
-/
theorem snapshots_of_run {config : StoreConfig} {before start : Host} {store final : Store}
    (opens : Store.Opens config before store start)
    (isOpen : (run { path := config.path, host := start, store } deeds).store = some final)
    (name : String) :
    let depot : Depot := { path := config.path, host := start, store }
    let host := (depot.run deeds).host
    (Store.ValidName name →
      (∀ kind c, depot.lastSaved? name deeds = some (kind, c) → c.OfKind kind →
        c.payloadLength kind ≤ Frame.maxPayload →
          Store.loadCollection final.path name kind host = .ok c host) ∧
      (depot.lastSaved? name deeds = none →
        start.disk.Keeps host.disk (collectionName config.path name) ∧
          (start.disk.contains (collectionName config.path name) = false →
            ∀ kind, Store.loadCollection final.path name kind host = .ok {} host))) ∧
    (¬ Store.ValidName name → ∀ kind c,
      let refusal := StoreError.invalidPath s!"Invalid collection name: {name}"
      Store.loadCollection final.path name kind host = .error refusal host ∧
        Store.saveCollection final.path name kind c host = .error refusal host) := by
  intro depot host
  obtain ⟨isAt, manifest⟩ := opens.isAt
  have sound : depot.Sound := by
    refine ⟨manifest, ?_⟩
    rintro _ ⟨⟩
    exact isAt
  have after : (depot.run deeds).Sound := sound.run
  have same : final.path = config.path := (after.isAt final isOpen).same.trans path_run
  rw [← Store.isCollectionName_iff]
  constructor
  · intro valid
    rw [same]
    constructor
    · intro kind c saved ofKind fits
      have read := read_run sound valid saved
      rw [Store.loadCollection_of valid, if_pos (Disk.contains_of_read read)]
      exact Collection.readSnapshot_of_read ofKind fits read
    · intro unsaved
      have kept := keeps_run sound valid unsaved
      refine ⟨kept, ?_⟩
      intro missing kind
      have absent := kept.contains.trans missing
      rw [Store.loadCollection_of valid, if_neg (Bool.eq_false_iff.1 absent)]
  · intro invalid kind c
    exact ⟨Store.loadCollection_of_not invalid, Store.saveCollection_of_not invalid⟩

end

/--
Two versions, of which the first has ended.
-/
def replacedVersion : Collection :=
  ((Collection.saveAll {} [{ path := "M", start := 1, term := "old" },
    { path := "M", start := 2, term := "new" }] {}).2.1).endVersions [.generated 1] 2

theorem ofKind_replacedVersion : replacedVersion.OfKind .plain :=
  (Collection.OfKind.empty.saveAll _ _ (by decide)).endVersions _ _ (by decide)

/--
The name that is saved twice is also that of the branches.
-/
def reopened : List Deed :=
  [.save "branches" .keyed {}, .operate (.create "M"), .save "branches" .plain replacedVersion,
    .save "M-1" .plain {}, .operate .purge, .close, .openOrCreate true 4, .operate (.create "M")]

theorem snapshots_of_reopened :
    ∃ (store : Store) (start : Host) (final : Store),
      let depot : Depot := { path := "store", host := start, store }
      let host := (depot.run reopened).host
      Store.Opens { path := "store" } {} store start ∧
        (depot.run reopened).store = some final ∧
        Store.loadCollection final.path "branches" .plain host = .ok replacedVersion host ∧
        Store.loadCollection final.path "M_1" .plain host = .ok {} host ∧
        Store.loadCollection final.path "" .plain host =
          .error (.invalidPath "Invalid collection name: ") host := by
  have ran : (match Store.create { path := "store" } {} with
      | .ok store start =>
        let depot : Depot := { path := "store", host := start, store }
        (depot.run reopened).store.isSome ∧
          depot.lastSaved? "branches" reopened = some (.plain, replacedVersion) ∧
          depot.lastSaved? "M_1" reopened = none ∧
          start.disk.contains (collectionName "store" "M_1") = false
      | .error _ _ => false) = true := by decide +kernel
  cases created : Store.create { path := "store" } {} with
  | ok store start =>
    rw [created, decide_eq_true_eq] at ran
    obtain ⟨isOpen, saved, unsaved, missing⟩ := ran
    obtain ⟨final, isOpen⟩ := Option.isSome_iff_exists.1 isOpen
    have opens : Store.Opens { path := "store" } {} store start := .inl created
    obtain ⟨valid, -⟩ := snapshots_of_run opens isOpen "branches"
    obtain ⟨fresh, -⟩ := snapshots_of_run opens isOpen "M_1"
    obtain ⟨-, refused⟩ := snapshots_of_run opens isOpen ""
    refine ⟨store, start, final, opens, isOpen, ?_, ?_, ?_⟩
    · exact (valid (Store.isCollectionName_iff.1 (by decide))).1 _ _ saved ofKind_replacedVersion
        (by decide +kernel)
    · exact ((fresh (Store.isCollectionName_iff.1 (by decide))).2 unsaved).2 missing _
    · exact (refused (fun named => named.1 rfl) .plain {}).1
  | error e host =>
    rw [created] at ran
    cases ran

end Depot

end TemporalStore
