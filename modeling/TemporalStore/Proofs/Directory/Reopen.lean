import TemporalStore.Proofs.Directory.Load
import TemporalStore.Proofs.Directory.Mirror

/-!
This module contains that the file of a directory is there as soon as something was stored, and what
is read back from it.
-/

namespace TemporalStore

/--
The file of the directory exists. A directory in memory has none.
-/
def Site.There (site : Site) : Prop :=
  ∀ name, site.directory.file = some name → site.host.disk.contains name = true

theorem Site.There.of_sameHome {site site' : Site} (h : site.There) (home : site.SameHome site') :
    site'.There := by
  intro name hf
  rw [home.file] at hf
  exact home.there name hf (h name hf)

theorem Site.there_of_persisted_ok {site : Site} {index : RowIndex} {host : Host}
    (h : site.persisted index = .ok () host) : (site.withHost host).There :=
  fun _ hf => Disk.contains_of_read (read_of_persisted_ok h hf)

/--
Whoever succeeds that way has written the file.
-/
def Puts {α : Type} (x : DirectoryM α) : Prop :=
  ∀ ⦃site site' : Site⦄ ⦃a : α⦄, x site = .ok a site' → site'.There

section

variable {α β : Type} {x : DirectoryM α} {f : α → DirectoryM β}

theorem Puts.bind (hx : Puts x) (hf : ∀ a, Upholds Site.SameHome (f a)) : Puts (x >>= f) := by
  intro site site' b ok
  obtain ⟨a, middle, first, second⟩ := exists_of_bind_ok ok
  exact (hx first).of_sameHome ((hf a).of_ok second)

theorem puts_bind (hf : ∀ a, Puts (f a)) : Puts (x >>= f) := by
  intro site site' b ok
  obtain ⟨a, middle, -, second⟩ := exists_of_bind_ok ok
  exact hf a second

theorem puts_throw (e : StoreError) : Puts (throw e : DirectoryM α) := by
  intro site site' a ok
  cases ok

theorem Puts.discard (hx : Puts x) : Puts (discard x) := by
  intro site site' u ok
  cases result : x site with
  | ok a middle =>
    rw [discard_ok result] at ok
    cases ok
    exact hx result
  | error e middle => simp [discard_error result] at ok

end

namespace Directory

open Site (sameHome_always)

theorem puts_persist (index : RowIndex) : Puts (persist index) := by
  intro site site' u ok
  cases kept : site.persisted index with
  | ok a host =>
    rw [persist_ok kept] at ok
    cases ok
    exact Site.there_of_persisted_ok kept
  | error e host => simp [persist_error kept] at ok

theorem puts_storing {α β : Type} {find : DirectoryM α} {batch : α → List BranchRow}
    {tell : α → DirectoryM β} (ht : ∀ a, Upholds Site.SameHome (tell a)) :
    Puts (storing find batch tell) := by
  intro site site' b ok
  obtain ⟨a, middle, host, -, kept, told⟩ := exists_of_storing_ok ok
  have there : Site.There
      ((middle.withIndex (middle.directory.index.apply (batch a))).withHost host) :=
    Site.there_of_persisted_ok kept
  exact there.of_sameHome ((ht a).of_ok told)

theorem puts_create (path : String) : Puts (create path) := by
  rw [create_eq]
  apply puts_storing
  intro row
  apply sameHome_always.bind (upholds_announce sameHome_always _)
  intro _
  exact sameHome_always.pure row

theorem puts_lock (path : String) : Puts (lock path) := by
  rw [lock_eq]
  apply puts_storing
  intro row
  apply sameHome_always.bind (upholds_announce sameHome_always _)
  intro _
  exact sameHome_always.pure row

theorem puts_release (path : String) : Puts (release path) := by
  rw [release_eq]
  apply puts_storing
  intro row
  exact sameHome_always.pure _

theorem puts_unlock (path : String) : Puts (unlock path) := by
  intro site site' u ok
  cases entry : site.directory.openCommits.get? path with
  | some t => simp [unlock_of_open entry] at ok
  | none =>
    rw [unlock_of_free entry] at ok
    exact (puts_release path).discard.bind (fun _ => upholds_announce sameHome_always _) ok

theorem puts_forceUnlock (path : String) : Puts (forceUnlock path) :=
  (puts_release path).bind fun wasLocked => upholds_afterRelease sameHome_always path wasLocked

theorem puts_openCommit (path : String) (kind : CommitKind) : Puts (openCommit path kind) := by
  apply puts_bind
  intro t
  exact (puts_lock path).bind fun row => upholds_afterLock sameHome_always path kind t row

theorem puts_openPromotion (path source : String) : Puts (openPromotion path source) := by
  unfold openPromotion
  split
  · exact puts_throw _
  · apply puts_bind
    intro t
    exact (puts_lock path).bind fun row => upholds_afterFirstLock sameHome_always path source t row

theorem puts_complete (commit : Commit) : Puts (complete commit) := by
  rw [complete_eq]
  apply puts_storing
  intro p
  exact upholds_conclude sameHome_always commit p.1

theorem puts_purge : Puts purge := by
  intro site site' n ok
  have out := purge_outcome site
  rw [ok] at out
  cases out with
  | done host kept =>
    exact (Site.there_of_persisted_ok kept).of_sameHome (Site.sameHome_of_disk_eq rfl rfl)

theorem puts_save : Puts save := by
  apply puts_bind
  intro site
  exact puts_persist _

theorem puts_perform {α : Type} {op : Operation α} (stores : op.Stores) : Puts op.perform := by
  cases op with
  | create path => exact puts_create path
  | lock path => exact puts_lock path
  | unlock path => exact puts_unlock path
  | forceUnlock path => exact puts_forceUnlock path
  | openCommit path kind => exact puts_openCommit path kind
  | openPromotion path source => exact puts_openPromotion path source
  | complete commit => exact puts_complete commit
  | purge => exact puts_purge
  | save => exact puts_save
  | _ => exact stores.elim

/-! ## Reading the file -/

section

variable {site : Site} {commits : List Commit} {name : String}

theorem ofFileBytes_of_sound (h : site.Sound commits)
    (small : site.directory.clock.last < 0x8000000000000000)
    (fits : (MessagePack.encode (Record.indexValue site.directory.index)).length ≤
      Frame.maxPayload) :
    Record.ofFileBytes fileFormat Record.index? name
      (Record.fileBytes fileFormat (Record.indexValue site.directory.index)) =
        .ok site.directory.index :=
  Record.ofFileBytes_fileBytes_of_le fileFormat name rfl fits (h.consistent.valid.inWords small)

/--
The file holds the rows, if it exists and the rows fit into a frame.
-/
theorem readRecord_of_sound (h : site.Sound commits) (file : site.directory.file = some name)
    (small : site.directory.clock.last < 0x8000000000000000)
    (fits : (MessagePack.encode (Record.indexValue site.directory.index)).length ≤
      Frame.maxPayload) (there : site.There) :
    Host.readRecord fileFormat Record.index? name site.host =
      .ok site.directory.index site.host := by
  rcases h.stored name file with ⟨absent, -⟩ | bytes
  · simp [there name file] at absent
  · rw [Host.readRecord_of_read bytes, ofFileBytes_of_sound h small fits]

theorem load_of_sound (h : site.Sound commits) (file : site.directory.file = some name)
    (cacheSize : Nat) (small : site.directory.clock.last < 0x8000000000000000)
    (fits : (MessagePack.encode (Record.indexValue site.directory.index)).length ≤
      Frame.maxPayload) :
    load name cacheSize site.host =
      .ok (ofIndex (some name) site.directory.index cacheSize) site.host := by
  rcases h.stored name file with ⟨absent, empty⟩ | bytes
  · rw [load_of_missing cacheSize absent, empty]
  · rw [load_of_read cacheSize bytes, ofFileBytes_of_sound h small fits]

/--
Opening a file does not touch it.
-/
theorem load_cases (name : String) (cacheSize : Nat) (host : Host) :
    (∃ index, load name cacheSize host = .ok (ofIndex (some name) index cacheSize) host) ∨
      ∃ e, load name cacheSize host = .error e host := by
  cases there : host.disk.contains name with
  | false => exact .inl ⟨{}, load_of_missing cacheSize there⟩
  | true =>
    cases read : host.disk.read name with
    | ok bytes =>
      rw [load_of_read cacheSize read]
      cases Record.ofFileBytes fileFormat Record.index? name bytes with
      | ok index => exact .inl ⟨index, rfl⟩
      | error e => exact .inr ⟨e, rfl⟩
    | error cause =>
      right
      have refused : Host.ask (·.read name) host = .error (.io cause.message) host := by
        unfold Host.ask
        rw [get_bind]
        simp only [read]
        rfl
      have unread : Host.readRecord fileFormat Record.index? name host =
          .error (.io cause.message) host := by
        unfold Host.readRecord
        exact bind_error refused
      unfold load
      rw [get_bind, there]
      exact ⟨_, bind_error unread⟩

end

end Directory

end TemporalStore
