import TemporalStore.Proofs.Directory.Sound

/-!
This module contains the proof that a directory is sound again after it was closed and read back
from its file.
-/

namespace TemporalStore

namespace RowIndex

variable {index : RowIndex} {now : Timepoint} {path : String} {row : BranchRow}

theorem Valid.exists_timeline (h : index.Valid now) {e : String × List BranchRow}
    (mem : e ∈ index.rows.entries) :
    ∃ path, Path.Valid path ∧ Path.flatten path = e.1 ∧ index.timeline path = e.2 := by
  have found := OrderedMap.get?_eq_some_iff.2 mem
  obtain ⟨-, path, hp, key⟩ := h.keys e.1 e.2 found
  refine ⟨path, hp, key, ?_⟩
  unfold timeline
  rw [key, found]
  rfl

theorem mem_allRows_of_mem_timeline (mem : row ∈ index.timeline path) : row ∈ index.allRows := by
  unfold timeline at mem
  cases found : index.rows.get? (Path.flatten path) with
  | none => simp [found] at mem
  | some rows =>
    rw [found] at mem
    unfold allRows
    rw [List.mem_flatten]
    exact ⟨rows, OrderedMap.mem_values_iff.2 ⟨_, found⟩, mem⟩

theorem Valid.ended_bounds (h : index.Valid now) (hp : Path.Valid path)
    (mem : row ∈ index.timeline path) {t : Timepoint} (ended : row.ended = some t) :
    row.start < t ∧ t ≤ now := by
  rcases h.eq_last_or_closed mem with last | ⟨-, e, current, he, before, last, after⟩
  · rw [h.ended_last last] at ended
    simp at ended
  · have fits := h.fits_last hp last
    rw [he, Option.some.injEq] at ended
    rw [← ended]
    exact ⟨before, Int.le_trans after fits.start_le⟩

theorem Valid.storable (h : index.Valid now) (small : now < 0x8000000000000000) :
    ∀ e ∈ index.rows.entries, ∀ row ∈ e.2, row.Storable := by
  intro e he row mem
  obtain ⟨path, hp, -, rows⟩ := h.exists_timeline he
  rw [← rows] at mem
  have fits := h.fits path hp row mem
  have head := fits.head
  have base_nonneg := fits.base_nonneg
  have base_le := fits.base_le
  have start_le := fits.start_le
  constructor
  · constructor <;> lia
  · constructor <;> lia
  · constructor <;> lia
  · intro t ended
    have bounds := h.ended_bounds hp mem ended
    constructor <;> lia

theorem Valid.inWords (h : index.Valid now) (small : now < 0x8000000000000000) : index.InWords :=
  fun e he row mem => (h.storable small e he row mem).inWords

theorem Valid.of_start_le {later : Timepoint} (h : index.Valid now)
    (starts : ∀ path, Path.Valid path → ∀ row ∈ index.timeline path, row.start ≤ later) :
    index.Valid later where
  keys := h.keys
  tiles := h.tiles
  fits path hp row mem := by
    have fits := h.fits path hp row mem
    exact ⟨fits.path, fits.head, fits.base_nonneg, fits.base_le, starts path hp row mem⟩
  parents := h.parents

/--
The clock of a directory that is read from its file has passed every start.
-/
theorem Valid.start_le_clock (h : index.Valid now) (hp : Path.Valid path)
    (mem : row ∈ index.timeline path) (file : Option String) (cacheSize : Nat) :
    row.start ≤ (Directory.ofIndex file index cacheSize).clock.last := by
  have head := (h.fits path hp row mem).head
  have found : row.start ∈ index.allRows.flatMap fun row => row.head :: row.ended.toList := by
    rw [List.mem_flatMap]
    refine ⟨row, mem_allRows_of_mem_timeline mem, ?_⟩
    rw [head]
    exact List.mem_cons_self
  unfold Directory.ofIndex
  cases latest : index.latestTimepoint with
  | none =>
    unfold latestTimepoint at latest
    rw [List.max?_eq_none_iff] at latest
    simp [latest] at found
  | some t =>
    have le : row.start ≤ t := (List.max?_eq_some_iff.1 latest).2 row.start found
    exact Int.le_trans le (Clock.le_last_observe {} t)

end RowIndex

namespace Directory

theorem clock_nonneg (file : Option String) (index : RowIndex) (cacheSize : Nat) :
    0 ≤ (ofIndex file index cacheSize).clock.last := by
  unfold ofIndex
  cases index.latestTimepoint with
  | none => exact Int.le_refl 0
  | some t =>
    change 0 ≤ max 0 t
    lia

theorem consistent_ofIndex {index : RowIndex} {now : Timepoint} (h : index.Valid now)
    (file : Option String) (cacheSize : Nat) :
    Consistent index ∅ (ofIndex file index cacheSize).clock.last [] where
  nonneg := clock_nonneg file index cacheSize
  valid := by
    apply h.of_start_le
    intro path hp row mem
    exact h.start_le_clock hp mem file cacheSize
  formed := by simp
  ordered := by simp
  live := by simp
  owned := by simp

theorem sound_ofIndex {index : RowIndex} {now : Timepoint} {host : Host} (h : index.Valid now)
    (file : Option String) (cacheSize : Nat)
    (stored : Site.Stored { directory := ofIndex file index cacheSize, host }) :
    Site.Sound { directory := ofIndex file index cacheSize, host } [] where
  consistent := consistent_ofIndex h file cacheSize
  agrees := HistoryCache.agrees_ofSize cacheSize index
  stored := stored

inductive LoadOutcome (host : Host) : EStateM.Result StoreError Host Directory → Prop where
  | read (directory : Directory) (sound : Site.Sound { directory, host } []) :
    LoadOutcome host (.ok directory host)
  | refused (e : StoreError) (plain : e.Plain) : LoadOutcome host (.error e host)

theorem load_outcome {site : Site} {commits : List Commit} {name : String} (h : site.Sound commits)
    (file : site.directory.file = some name) (cacheSize : Nat)
    (small : site.directory.clock.last < 0x8000000000000000)
    (size : (MessagePack.encode (Record.indexValue site.directory.index)).length <
      0x10000000000000000) :
    LoadOutcome site.host (load name cacheSize site.host) := by
  have valid := h.consistent.valid
  have none := RowIndex.valid_empty 0
  rcases h.stored name file with ⟨absent, -⟩ | bytes
  · rw [load_of_missing cacheSize absent]
    apply LoadOutcome.read
    apply sound_ofIndex none
    intro name' hn
    rw [← Option.some.inj hn]
    exact .inl ⟨absent, rfl⟩
  · rw [load_of_read cacheSize bytes]
    have magic : fileFormat.magic.length = 4 := rfl
    rcases Record.ofFileBytes_fileBytes fileFormat name magic size (valid.inWords small) with
      same | ⟨reason, failed⟩
    · rw [same]
      apply LoadOutcome.read
      apply sound_ofIndex valid
      intro name' hn
      rw [← Option.some.inj hn]
      exact .inr bytes
    · rw [failed]
      apply LoadOutcome.refused
      intro violation
      simp

/--
What is read from the file are the rows.
-/
theorem eq_ofIndex_of_stored {site : Site} {name : String} {cacheSize : Nat}
    {directory : Directory} {host : Host} (stored : site.Stored)
    (file : site.directory.file = some name)
    (storable : ∀ e ∈ site.directory.index.rows.entries, ∀ row ∈ e.2, row.Storable)
    (size : (MessagePack.encode (Record.indexValue site.directory.index)).length <
      0x10000000000000000)
    (ok : load name cacheSize site.host = .ok directory host) :
    directory = ofIndex (some name) site.directory.index cacheSize ∧ host = site.host := by
  rcases stored name file with ⟨absent, empty⟩ | bytes
  · rw [load_of_missing cacheSize absent] at ok
    cases ok
    rw [empty]
    exact ⟨rfl, rfl⟩
  · rw [load_of_read cacheSize bytes] at ok
    rcases Record.ofFileBytes_fileBytes fileFormat name rfl size
      (fun e he row mem => (storable e he row mem).inWords) with
      same | ⟨reason, failed⟩
    · rw [same] at ok
      cases ok
      exact ⟨rfl, rfl⟩
    · rw [failed] at ok
      cases ok

theorem eq_ofIndex_of_load_ok {site : Site} {commits : List Commit} {name : String}
    {cacheSize : Nat} {directory : Directory} {host : Host} (h : site.Sound commits)
    (file : site.directory.file = some name)
    (small : site.directory.clock.last < 0x8000000000000000)
    (size : (MessagePack.encode (Record.indexValue site.directory.index)).length <
      0x10000000000000000)
    (ok : load name cacheSize site.host = .ok directory host) :
    directory = ofIndex (some name) site.directory.index cacheSize :=
  (eq_ofIndex_of_stored h.stored file (h.consistent.valid.storable small) size ok).1

end Directory

end TemporalStore
