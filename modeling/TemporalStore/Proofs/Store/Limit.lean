import TemporalStore.Proofs.Document.Snapshot
import TemporalStore.Proofs.Host.Apart
import TemporalStore.Proofs.MessagePack.Text
import TemporalStore.Proofs.Path.Hierarchy
import TemporalStore.Proofs.Session.Reopen

/-!
This module contains which files can still be opened after a file was written. Only the reader keeps
to the limit on the length of a payload: a record is written at any length, and one that is too long
cannot be read any more. The file that had the temporary name is lost in any case.
-/

namespace TemporalStore

open MessagePack (Value encode)

/--
What the reader says of a payload that is too long.
-/
def Frame.tooLong (name : String) (length : Nat) : StoreError :=
  .corruption s!"Frame in {name} claims {length} bytes"

namespace Host

variable {format : FileFormat} {name : String} {v : Value} {host after : Host}

theorem read_of_writeRecord_ok (written : writeRecord format name v host = .ok () after) :
    after.disk.read name = .ok (Record.fileBytes format v) := by
  obtain ⟨disk, rfl, there⟩ := replaceFile_ok written
  exact there

theorem readRecord_of_lt {α : Type} (read : Value → Option α) (magic : format.magic.length = 4)
    (long : Frame.maxPayload < (encode v).length) (size : (encode v).length < 0x10000000000000000)
    (there : host.disk.read name = .ok (Record.fileBytes format v)) :
    readRecord format read name host = .error (Frame.tooLong name (encode v).length) host := by
  rw [readRecord_of_read there, Record.ofFileBytes_of_lt read name magic long size]
  rfl

theorem readRecord_ne_corruption {α : Type} (read : Value → Option α)
    (magic : format.magic.length = 4) (fits : (encode v).length ≤ Frame.maxPayload)
    (there : host.disk.read name = .ok (Record.fileBytes format v)) (reason : String) :
    readRecord format read name host ≠ .error (.corruption reason) host := by
  have accepted := Record.ofFileBytes_ne_corruption read name magic fits reason
  rw [readRecord_of_read there]
  intro refused
  split at refused
  · cases refused
  · rename_i e failed
    rw [(EStateM.Result.error.inj refused).1] at failed
    exact accepted failed

/--
What is left after a record was written. Its file can be opened unless the record is too long, the
file with the temporary name is gone, and other files are as they were.
-/
structure Wrote (format : FileFormat) (name : String) (v : Value) (host after : Host) : Prop where
  accepted : (encode v).length ≤ Frame.maxPayload → ∀ {α : Type} (read : Value → Option α) reason,
    readRecord format read name after ≠ .error (.corruption reason) after
  refused : Frame.maxPayload < (encode v).length → ∀ {α : Type} (read : Value → Option α),
    readRecord format read name after = .error (Frame.tooLong name (encode v).length) after
  temporary : after.disk.read (temporaryName name) = .error .noSuchFile
  others : ∀ other, Disk.Apart name other → Disk.Apart (temporaryName name) other →
    host.disk.Keeps after.disk other

theorem wrote_of_writeRecord (magic : format.magic.length = 4)
    (size : (encode v).length < 0x10000000000000000)
    (written : writeRecord format name v host = .ok () after) : Wrote format name v host after where
  accepted fits _ read reason :=
    readRecord_ne_corruption read magic fits (read_of_writeRecord_ok written) reason
  refused long _ read := readRecord_of_lt read magic long size (read_of_writeRecord_ok written)
  temporary := read_temporary_of_replaceFile written
  others _ apart temporary := (leaves_replaceFile apart temporary _).of_ok written

theorem replaceable_of_writeRecord {other : String}
    (written : writeRecord format name v host = .ok () after)
    (replaceable : host.disk.Replaceable other) : after.disk.Replaceable other := by
  obtain ⟨disk, same, ok | ⟨e, failed⟩⟩ := replaceFile_leaves name (Record.fileBytes format v) host
  · obtain rfl := (EStateM.Result.ok.inj (ok.symm.trans written)).2
    exact replaceable.of_sameDirectories same
  · exact absurd (failed.symm.trans written) nofun

end Host

namespace Directory

variable {site : Site} {commits : List Commit} {name : String}

def payloadLength (index : RowIndex) : Nat := (encode (Record.indexValue index)).length

theorem load_of_there (h : site.Sound commits) (file : site.directory.file = some name)
    (there : site.There) (small : site.directory.clock.last < 0x8000000000000000)
    (size : payloadLength site.directory.index < 0x10000000000000000) (cacheSize : Nat) :
    load name cacheSize site.host =
      if payloadLength site.directory.index ≤ Frame.maxPayload then
        .ok (ofIndex (some name) site.directory.index cacheSize) site.host
      else
        .error (Frame.tooLong name (payloadLength site.directory.index)) site.host := by
  split
  · rename_i fits
    exact load_of_sound h file cacheSize small fits
  · rename_i long
    rcases h.stored name file with ⟨absent, -⟩ | bytes
    · simp [there name file] at absent
    · rw [load_of_read cacheSize bytes,
        Record.ofFileBytes_of_lt Record.index? name rfl (Nat.lt_of_not_le long) size]
      rfl

end Directory

namespace Collection

variable {c : Collection} {kind : DocumentKind} {name : String} {host after : Host}

theorem readSnapshot_of_written (h : c.OfKind kind)
    (size : c.payloadLength kind < 0x10000000000000000)
    (written : c.writeSnapshot kind name host = .ok () after) :
    readSnapshot kind name after =
      if c.payloadLength kind ≤ Frame.maxPayload then .ok c after
      else .error (Frame.tooLong name (c.payloadLength kind)) after := by
  have there := Host.read_of_writeRecord_ok written
  split
  · rename_i fits
    exact readSnapshot_of_read h fits there
  · rename_i long
    exact bind_error (Host.readRecord_of_lt _ rfl (Nat.lt_of_not_le long) size there)

theorem readSnapshot_of_unread {e : DiskError} (missing : host.disk.read name = .error e) :
    readSnapshot kind name host = .error (.io e.message) host := by
  have asked : Host.ask (·.read name) host = .error (.io e.message) host := by
    unfold Host.ask
    rw [get_bind]
    simp only [missing]
    rfl
  exact bind_error (bind_error asked)

/--
A snapshot is lost if one is taken under a name of which it has the temporary name.
-/
theorem readSnapshot_of_displaced (h : c.OfKind kind)
    (fits : c.payloadLength kind ≤ Frame.maxPayload) (replaceable : host.disk.Replaceable name)
    (temporary : host.disk.Replaceable (Host.temporaryName name)) :
    ∃ first second, c.writeSnapshot kind (Host.temporaryName name) host = .ok () first ∧
      readSnapshot kind (Host.temporaryName name) first = .ok c first ∧
      c.writeSnapshot kind name first = .ok () second ∧
      readSnapshot kind (Host.temporaryName name) second =
        .error (.io DiskError.noSuchFile.message) second := by
  let v := Record.documentsValue kind c.documents.values
  obtain ⟨first, written, there⟩ := @Host.exists_writeRecord fileFormat _ host v temporary
  obtain ⟨second, again, -⟩ := @Host.exists_writeRecord fileFormat name first v
    (Host.replaceable_of_writeRecord written replaceable)
  refine ⟨first, second, written, readSnapshot_of_read h fits there, again, ?_⟩
  exact readSnapshot_of_unread (Host.read_temporary_of_replaceFile again)

end Collection

namespace Session

/--
After rows were stored, the file can be opened exactly if they fit into a frame.
-/
theorem load_of_step {start : Session} {actions : List Action} {action : Action} {name : String}
    (new : start.New) (file : start.site.directory.file = some name)
    (permitted : start.Permits (actions ++ [action])) (stores : action.Stores)
    (ok : ((start.run actions).step action).1 = .ok ()) :
    let site := (start.run (actions ++ [action])).site
    site.directory.clock.last < 0x8000000000000000 →
    Directory.payloadLength site.directory.index < 0x10000000000000000 →
    ∀ cacheSize, Directory.load name cacheSize site.host =
      if Directory.payloadLength site.directory.index ≤ Frame.maxPayload then
        .ok (.ofIndex (some name) site.directory.index cacheSize) site.host
      else
        .error (Frame.tooLong name (Directory.payloadLength site.directory.index)) site.host := by
  intro site small size cacheSize
  have sound := (sound_run new.sound permitted).site
  have kept : site.directory.file = some name :=
    (keepsFile_run new.sound permitted).1.trans file
  have there : site.There := by
    apply there_run new.sound permitted
    refine ⟨(action, ((start.run actions).step action).1), ?_, stores, ok⟩
    rw [answers_append]
    exact List.mem_append_right _ (List.mem_singleton_self _)
  exact Directory.load_of_there sound kept there small size cacheSize

/--
A record is written wherever a file can be, however long it is, and its length decides whether the
file can be opened. The same goes for the file of a directory after rows were stored, and for the
snapshot of a collection.
-/
theorem limit_of_reader (name : String) :
    (∀ (format : FileFormat) (v : Value) (host : Host),
      format.magic.length = 4 → (encode v).length < 0x10000000000000000 →
      ((∃ after, Host.writeRecord format name v host = .ok () after) ↔
        host.disk.Replaceable name) ∧
      ∀ after, Host.writeRecord format name v host = .ok () after →
        Host.Wrote format name v host after) ∧
    (∀ (start : Session) (actions : List Action) (action : Action), start.New →
      start.site.directory.file = some name → start.Permits (actions ++ [action]) →
      action.Stores → ((start.run actions).step action).1 = .ok () →
      let site := (start.run (actions ++ [action])).site
      site.directory.clock.last < 0x8000000000000000 →
      Directory.payloadLength site.directory.index < 0x10000000000000000 →
      ∀ cacheSize, Directory.load name cacheSize site.host =
        if Directory.payloadLength site.directory.index ≤ Frame.maxPayload then
          .ok (.ofIndex (some name) site.directory.index cacheSize) site.host
        else
          .error (Frame.tooLong name (Directory.payloadLength site.directory.index)) site.host) ∧
    ∀ (c : Collection) (kind : DocumentKind) (host after : Host), c.OfKind kind →
      c.payloadLength kind < 0x10000000000000000 →
      c.writeSnapshot kind name host = .ok () after →
      Collection.readSnapshot kind name after =
        if c.payloadLength kind ≤ Frame.maxPayload then .ok c after
        else .error (Frame.tooLong name (c.payloadLength kind)) after := by
  refine ⟨?_, ?_, ?_⟩
  · intro format v host magic size
    exact ⟨Host.replaceFile_ok_iff name _ host, fun after => Host.wrote_of_writeRecord magic size⟩
  · intro start actions action new file permitted stores ok
    exact load_of_step new file permitted stores ok
  · intro c kind host after h size written
    exact Collection.readSnapshot_of_written h size written

def saved : Session := onFile.run [.save]

theorem save_onFile : (onFile.step .save).1 = .ok () := by
  have ok : (onFile.step .save).1.isOk = true := by decide +kernel
  cases result : (onFile.step .save).1 with
  | ok u => rfl
  | error e => simp [result, Except.isOk, Except.toBool] at ok

theorem fits_saved :
    Directory.payloadLength saved.site.directory.index ≤ Frame.maxPayload := by
  decide +kernel

theorem load_saved (cacheSize : Nat) :
    Directory.load "rows" cacheSize saved.site.host =
      .ok (.ofIndex (some "rows") {} cacheSize) saved.site.host := by
  have empty : saved.site.directory.index = {} := by decide +kernel
  have small : saved.site.directory.clock.last < 0x8000000000000000 := by decide +kernel
  have size : Directory.payloadLength saved.site.directory.index < 0x10000000000000000 := by
    decide +kernel
  have decided := @load_of_step onFile [] .save "rows" new_onFile rfl ⟨trivial, trivial⟩ trivial
    save_onFile small size cacheSize
  rw [← empty]
  exact decided.trans (if_pos fits_saved)

theorem replaceable_saved : saved.site.host.disk.Replaceable "rows" := by
  constructor
  · apply Disk.takes_of_single <;> decide +kernel
  · apply Disk.takes_of_single <;> decide +kernel

def oneDocument : Collection :=
  (Collection.saveAll {} [{ businessId := some "1", term := "kept" }] {}).2.1

theorem ofKind_oneDocument : oneDocument.OfKind .plain := .saveAll .empty _ _ (by decide +kernel)

theorem limit_of_reader_short :
    (∃ after, Host.writeRecord Host.sampleFormat "records.bin" (.text "a") {} = .ok () after ∧
      Host.Wrote Host.sampleFormat "records.bin" (.text "a") {} after) ∧
    Directory.load "rows" 1 saved.site.host =
      .ok (.ofIndex (some "rows") saved.site.directory.index 1) saved.site.host ∧
    ∃ after, oneDocument.writeSnapshot .plain "records.bin" {} = .ok () after ∧
      Collection.readSnapshot .plain "records.bin" after = .ok oneDocument after := by
  obtain ⟨records, -, snapshots⟩ := limit_of_reader "records.bin"
  obtain ⟨-, sessions, -⟩ := limit_of_reader "rows"
  refine ⟨?_, ?_, ?_⟩
  · obtain ⟨writable, wrote⟩ := records Host.sampleFormat (.text "a") {} rfl (by decide +kernel)
    obtain ⟨after, written⟩ := writable.2 Host.replaceable_empty
    exact ⟨after, written, wrote after written⟩
  · have decided := sessions onFile [] .save new_onFile rfl ⟨trivial, trivial⟩ trivial
      save_onFile (by decide +kernel) (by decide +kernel) 1
    exact decided.trans (if_pos fits_saved)
  · obtain ⟨after, written⟩ :=
      (Host.replaceFile_ok_iff "records.bin" (oneDocument.snapshotBytes .plain) {}).2
        Host.replaceable_empty
    have decided := snapshots oneDocument .plain {} after ofKind_oneDocument
      (by decide +kernel) written
    exact ⟨after, written, decided.trans (if_pos (by decide +kernel))⟩

end Session

/-! ## A branch whose name is too long -/

def longName (n : Nat) : String := String.ofList (List.replicate n 'M')

section

variable {n : Nat}

theorem toList_longName : (longName n).toList = List.replicate n 'M' := by
  unfold longName
  rw [String.toList_ofList]

theorem not_mem_longName {c : Char} (h : c ≠ 'M') : c ∉ (longName n).toList := by
  rw [toList_longName, List.mem_replicate]
  exact fun mem => h mem.2

theorem isName_longName (h : 0 < n) : Path.IsName (longName n) where
  nonempty := by
    intro same
    have none := congrArg String.toList same
    rw [toList_longName, String.toList_empty, List.replicate_eq_nil_iff] at none
    exact absurd none (Nat.ne_of_gt h)
  single := not_mem_longName (by decide)
  plain := not_mem_longName (by decide)

theorem valid_longName (h : 0 < n) : Path.Valid (longName n) := by
  rw [Path.valid_iff_exists_names]
  refine ⟨[longName n], by simp, ?_, ?_⟩
  · simpa using isName_longName h
  · simp

theorem parent?_longName : Path.parent? (longName n) = none := by
  unfold Path.parent?
  rw [Option.map_eq_none_iff, Path.beforeLastSeparator?_eq_none_iff]
  exact not_mem_longName (by decide)

theorem flatten_longName : Path.flatten (longName n) = longName n := by
  rw [← String.toList_inj, Path.flatten_toList, toList_longName, List.map_replicate]
  rfl

theorem length_textBytes_longName : (MessagePack.textBytes (longName n)).length = n := by
  have single : (String.utf8EncodeChar 'M').length = 1 := by decide
  rw [MessagePack.textBytes_eq, toList_longName, List.length_flatMap, List.map_replicate, single,
    List.sum_replicate_nat, Nat.mul_one]

theorem length_encode_longName (h : 0x10000 ≤ n) :
    (encode (.text (longName n))).length = n + 5 := by
  have head : (MessagePack.lengthHead 0xa0 32 (some 0xd9) 0xda 0xdb n).length = 5 := by
    unfold MessagePack.lengthHead MessagePack.lengthHead.wide
    rw [if_neg (by omega), if_neg (by omega)]
    simp only [if_neg (show ¬ n < 0x100 by omega)]
    rfl
  unfold encode
  rw [List.length_append, length_textBytes_longName, head, Nat.add_comm]

theorem length_encode_fresh (h : 0x10000 ≤ n) :
    (encode (Record.rowValue (.fresh (longName n) 1 1))).length = n + 80 := by
  -- what surrounds the name does not depend on it
  let others := MessagePack.encodeEntries ((Record.rowFields.tail.map .text).zip
    [.ofInt 1, .ofInt 1, .ofInt 1, .nil, .bool false, .bool false, .array []])
  have parts : encode (Record.rowValue (.fresh (longName n) 1 1)) =
      0x88 :: (encode (.text "path") ++ (encode (.text (longName n)) ++ others)) := by
    rfl
  have path : (encode (.text "path")).length = 5 := by decide +kernel
  have rest : others.length = 69 := by decide +kernel
  rw [parts, List.length_cons, List.length_append, List.length_append, path, rest,
    length_encode_longName h]
  omega

/--
The name counts twice: once as the key of the rows, and once in the row.
-/
theorem payloadLength_longName (h : 0x10000 ≤ n) :
    Directory.payloadLength (RowIndex.put {} (longName n) [.fresh (longName n) 1 1]) =
      2 * n + 93 := by
  let row := Record.rowValue (.fresh (longName n) 1 1)
  have entries : (RowIndex.put {} (longName n) [.fresh (longName n) 1 1]).rows.entries =
      [(longName n, [.fresh (longName n) 1 1])] := by
    unfold RowIndex.put
    rw [flatten_longName]
    rfl
  have value : Record.indexValue (RowIndex.put {} (longName n) [.fresh (longName n) 1 1]) =
      .record [("rows", .record [(longName n, .array [row])])] := by
    unfold Record.indexValue Record.mapValue
    rw [entries]
    rfl
  have parts : encode (.record [("rows", .record [(longName n, .array [row])])]) =
      0x81 :: (encode (.text "rows") ++
        (0x81 :: (encode (.text (longName n)) ++ 0x91 :: encode row))) := by
    simp only [Value.record, List.map_cons, List.map_nil, encode, MessagePack.encodeEntries,
      MessagePack.encodeItems, List.append_nil]
    rfl
  have rows : (encode (.text "rows")).length = 5 := by decide +kernel
  have row : (encode row).length = n + 80 := length_encode_fresh h
  unfold Directory.payloadLength
  rw [value, parts]
  simp only [List.length_append, List.length_cons, length_encode_longName h, rows, row]
  omega

end

namespace Session

theorem create_longName {n : Nat} (h : 0 < n) :
    ∃ row site, Directory.create (longName n) saved.site = .ok row site ∧
      site.directory.index = RowIndex.put {} (longName n) [.fresh (longName n) 1 1] ∧
      site.directory.clock.last = 1 := by
  have empty : saved.site.directory.index = {} := by decide +kernel
  have file : saved.site.directory.file = some "rows" := by decide +kernel
  have next : Directory.nextTimepoint saved.site = 1 := by decide +kernel
  have valid : saved.site.directory.index.Valid 0 := by
    rw [empty]
    exact RowIndex.valid_empty 0
  have out := Directory.create_outcome valid (valid_longName h)
  generalize Directory.create (longName n) saved.site = result at out ⊢
  cases out with
  | existing row last =>
    rw [empty] at last
    cases last
  | orphan parent last above missing =>
    rw [parent?_longName] at above
    cases above
  | refused base e host last inherits kept =>
    -- the file was written before, so it can be written again
    unfold Site.persisted at kept
    rw [file] at kept
    obtain ⟨after, written, -⟩ := Host.exists_writeRecord _ replaceable_saved
    exact absurd (written.symm.trans kept) nofun
  | created base host last inherits kept =>
    have root : base = 1 := by
      unfold Directory.InheritsFrom at inherits
      rw [parent?_longName] at inherits
      exact inherits.trans next
    refine ⟨_, _, rfl, ?_, next⟩
    rw [root, next, empty]
    rfl

/--
The file that held no rows can be opened, and creating the branch succeeds. From then on the file
can be opened only as long as the name is short enough for a frame.
-/
theorem load_of_create_longName {n : Nat} (h : 0x10000 ≤ n) (small : n < 0x100000000) :
    onFile.Permits [.save, .create (longName n)] ∧
      (∀ answer ∈ onFile.answers [.save, .create (longName n)], answer.2 = .ok ()) ∧
      ∀ cacheSize,
        Directory.load "rows" cacheSize saved.site.host =
          .ok (.ofIndex (some "rows") {} cacheSize) saved.site.host ∧
        let site := (onFile.run [.save, .create (longName n)]).site
        Directory.load "rows" cacheSize site.host =
          if 2 * n + 93 ≤ Frame.maxPayload then
            .ok (.ofIndex (some "rows") site.directory.index cacheSize) site.host
          else
            .error (Frame.tooLong "rows" (2 * n + 93)) site.host := by
  obtain ⟨row, site, created, index, clock⟩ := create_longName (show 0 < n by omega)
  have valid := valid_longName (show 0 < n by omega)
  have permitted : onFile.Permits [.save, .create (longName n)] := ⟨trivial, valid, trivial⟩
  have create : saved.step (.create (longName n)) = (.ok (), { saved with site }) :=
    @call_ok _ saved _ (fun _ session => session) _ _ created
  have arrived : (onFile.run [.save, .create (longName n)]).site = site :=
    congrArg (·.2.site) create
  have payload : Directory.payloadLength site.directory.index = 2 * n + 93 := by
    rw [index]
    exact payloadLength_longName h
  refine ⟨permitted, ?_, ?_⟩
  · intro answer mem
    simp only [answers, List.mem_cons, List.not_mem_nil, or_false] at mem
    rcases mem with rfl | rfl
    · exact save_onFile
    · exact congrArg Prod.fst create
  · intro cacheSize
    constructor
    · exact load_saved cacheSize
    · have after := @load_of_step onFile [.save] (.create (longName n)) "rows" new_onFile rfl
        permitted trivial (congrArg Prod.fst create)
      simp only [List.singleton_append, arrived, clock, payload] at after
      rw [arrived]
      exact after (by decide) (by omega) cacheSize

/--
A directory whose only branch has a name of 512 MiB has stored it and cannot be opened again. The
only document of a snapshot is lost when another snapshot is taken.
-/
theorem limit_exceeded :
    (onFile.New ∧ onFile.Permits [.save, .create (longName 0x20000000)] ∧
      (∀ answer ∈ onFile.answers [.save, .create (longName 0x20000000)], answer.2 = .ok ()) ∧
      (∃ directory, Directory.load "rows" 1 (onFile.run [.save]).site.host =
        .ok directory (onFile.run [.save]).site.host) ∧
      Directory.load "rows" 1 (onFile.run [.save, .create (longName 0x20000000)]).site.host =
        .error (.corruption "Frame in rows claims 1073741917 bytes")
          (onFile.run [.save, .create (longName 0x20000000)]).site.host) ∧
    ∃ first second : Host,
      oneDocument.writeSnapshot .plain "records.bin.tmp" {} = .ok () first ∧
      Collection.readSnapshot .plain "records.bin.tmp" first = .ok oneDocument first ∧
      oneDocument.writeSnapshot .plain "records.bin" first = .ok () second ∧
      Collection.readSnapshot .plain "records.bin.tmp" second =
        .error (.io "No such file or directory (os error 2)") second := by
  constructor
  · obtain ⟨permitted, succeed, loads⟩ :=
      @load_of_create_longName 0x20000000 (by decide) (by decide)
    obtain ⟨before, after⟩ := loads 1
    refine ⟨new_onFile, permitted, succeed, ⟨_, before⟩, ?_⟩
    exact after.trans (if_neg (by decide))
  · have temporary : Host.temporaryName "records.bin" = "records.bin.tmp" := by decide +kernel
    have replaceable : ({} : Host).disk.Replaceable "records.bin.tmp" := by
      constructor
      · apply Disk.takes_of_single <;> decide +kernel
      · apply Disk.takes_of_single <;> decide +kernel
    rw [← temporary] at replaceable ⊢
    exact Collection.readSnapshot_of_displaced ofKind_oneDocument (by decide +kernel)
      Host.replaceable_empty replaceable

end Session

end TemporalStore
