import TemporalStore.Proofs.Host.Writable
import TemporalStore.Proofs.Record.Branch
import TemporalStore.Proofs.Record.Document
import TemporalStore.Proofs.Record.Event

/-!
This module contains what is read from the file of a record, when nothing has happened to the file
and when it is damaged.
-/

namespace TemporalStore.Host

open MessagePack (Value encode)

variable {format : FileFormat}

/--
A record is written wherever a file can be, and its file has the bytes of the record.
-/
theorem exists_writeRecord {name : String} {host : Host} (v : Value)
    (replaceable : host.disk.Replaceable name) :
    ∃ after, writeRecord format name v host = .ok () after ∧
      after.disk.read name = .ok (Record.fileBytes format v) := by
  obtain ⟨after, written⟩ :=
    (replaceFile_ok_iff name (Record.fileBytes format v) host).2 replaceable
  obtain ⟨disk, rfl, there⟩ := replaceFile_ok written
  exact ⟨_, written, there⟩

/-! ## Files as they were written -/

/--
Whoever reads the file finds `a`, whatever has been added to its end.
-/
def Gives {α : Type} (format : FileFormat) (read : Value → Option α) (file : List UInt8)
    (a : α) : Prop :=
  ∀ (rest : List UInt8) (name : String) (later : Host),
    later.disk.read name = .ok (file ++ rest) → readRecord format read name later = .ok a later

/--
Wherever a file can be written, `a` can be, and its file gives `a` back, unless `a` is longer than a
frame may be.
-/
def Recovers {α : Type} (format : FileFormat) (write : α → Value) (read : Value → Option α)
    (a : α) : Prop :=
  ∀ (name : String) (host : Host), (encode (write a)).length ≤ Frame.maxPayload →
    host.disk.Replaceable name →
    ∃ after file, writeRecord format name (write a) host = .ok () after ∧
      after.disk.read name = .ok file ∧ Gives format read file a

theorem recovers_of_plain {α : Type} {write : α → Value} {read : Value → Option α} {a : α}
    (magic : format.magic.length = 4) (plain : MessagePack.Plain MessagePack.maxDepth (write a))
    (back : read (write a) = some a) : Recovers format write read a := by
  intro name host fits replaceable
  obtain ⟨after, written, there⟩ := @exists_writeRecord format name host (write a) replaceable
  refine ⟨after, _, written, there, ?_⟩
  intro rest name' later there
  rw [readRecord_of_read there, Record.ofFileBytes_append name' magic fits plain back rest]

/--
Indices of rows, lists of documents and events are read back as they were written. Documents of a
kind have no parts that the kind does not have.
-/
theorem recovers_records (magic : format.magic.length = 4) :
    (∀ index : RowIndex, index.InWords →
      Recovers format Record.indexValue Record.index? index) ∧
    (∀ (kind : DocumentKind) (docs : List Document),
      (∀ d ∈ docs, d.InWords ∧ kind.restrict d = d) →
      Recovers format (Record.documentsValue kind) (Record.documents? kind) docs) ∧
    ∀ event : Event, event.InWords →
      Recovers format Record.eventValue Record.event? event := by
  refine ⟨?_, ?_, ?_⟩
  · intro index words
    apply recovers_of_plain magic (@Record.plain_indexValue index 1018 words)
    exact Record.index?_indexValue words
  · intro kind docs ofKind
    have words : ∀ d ∈ docs, d.InWords := fun d hd => (ofKind d hd).1
    have same : docs.map kind.restrict = docs := by
      rw [List.map_congr_left (g := id) fun d hd => (ofKind d hd).2, List.map_id]
    apply recovers_of_plain magic (@Record.plain_documentsValue kind docs 1020 words)
    rw [Record.documents?_documentsValue words, same]
  · intro event words
    apply recovers_of_plain magic (@Record.plain_eventValue 1022 event words)
    exact Record.event?_eventValue words

def sampleFormat : FileFormat where
  magic := [0x54, 0x53, 0x54, 0x00]
  version := 1

/--
Integers at the limits of their forms, a key with a NUL, a letter of two bytes and a branch without
rows.
-/
def sampleIndex : RowIndex where
  rows := OrderedMap.ofList [
    ("M\x00", [
      { path := "é", base := -0x8000000000000000, start := 127, head := 65536, ended := some (-33)
        locked := true, replaced := OrderedSet.ofList [⟨1⟩, ⟨0⟩] },
      { path := "", base := 128, start := 0x7fffffffffffffff, head := -32769 }]),
    ("", [])]

def sampleDocument : Document where
  id := some ⟨7⟩
  start := -1
  term := "a\x00b"
  fields := OrderedMap.ofList [("k", "")]
  deleted := true

theorem replaceable_empty : ({} : Host).disk.Replaceable "records.bin" := by
  constructor
  · apply Disk.takes_of_single <;> decide +kernel
  · apply Disk.takes_of_single <;> decide +kernel

theorem recovers_samples :
    (∃ after file,
      writeRecord sampleFormat "records.bin" (Record.indexValue sampleIndex) {} = .ok () after ∧
      after.disk.read "records.bin" = .ok file ∧
      Gives sampleFormat Record.index? file sampleIndex) ∧
    (∃ after file,
      writeRecord sampleFormat "records.bin" (Record.documentsValue .keyed [sampleDocument]) {} =
        .ok () after ∧
      after.disk.read "records.bin" = .ok file ∧
      Gives sampleFormat (Record.documents? .keyed) file [sampleDocument]) ∧
    ∃ after file,
      writeRecord sampleFormat "records.bin" (Record.eventValue (.purged 0xffffffffffffffff)) {} =
        .ok () after ∧
      after.disk.read "records.bin" = .ok file ∧
      Gives sampleFormat Record.event? file (.purged 0xffffffffffffffff) := by
  obtain ⟨index, documents, event⟩ := @recovers_records sampleFormat rfl
  have words : (Event.purged 0xffffffffffffffff).InWords := Nat.lt_add_one _
  refine ⟨?_, ?_, ?_⟩
  · exact index sampleIndex (by decide +kernel) _ _ (by decide +kernel) replaceable_empty
  · exact documents .keyed [sampleDocument] (by decide +kernel) _ _ (by decide +kernel)
      replaceable_empty
  · exact event _ words _ _ (by decide +kernel) replaceable_empty

/-! ## Damaged files -/

/--
Whoever reads these bytes, looking for whatever kind of record, gets an error of which `p` holds.
-/
def Refuses (format : FileFormat) (bytes : List UInt8) (p : StoreError → Prop) : Prop :=
  ∀ {α : Type} (read : Value → Option α) (name : String) (later : Host),
    later.disk.read name = .ok bytes →
    ∃ e, readRecord format read name later = .error e later ∧ p e

theorem refuses_of_decode {bytes : List UInt8} {p : StoreError → Prop}
    (h : ∀ name, ∃ e, Frame.decode format name bytes = .error e ∧ p e) :
    Refuses format bytes p := by
  intro α read name later there
  obtain ⟨e, refused, holds⟩ := h name
  have record : Record.ofFileBytes format read name bytes = .error e := by
    unfold Record.ofFileBytes
    rw [refused]
    rfl
  refine ⟨e, ?_, holds⟩
  rw [readRecord_of_read there, record]

/--
Damage to the file of a record is noticed: that it was cut short, that a byte of the magic or of the
version has changed, and that a byte of the checksum or of the payload has.
-/
theorem refuses_of_writeRecord {name : String} {v : Value} {host : Host}
    (magic : format.magic.length = 4) (fits : (encode v).length ≤ Frame.maxPayload)
    (replaceable : host.disk.Replaceable name) :
    ∃ after file, writeRecord format name v host = .ok () after ∧
      after.disk.read name = .ok file ∧
      (∀ cut, cut <+: file → cut ≠ file → Refuses format cut fun e => ∃ cause, e = .io cause) ∧
      ∀ (i : Nat) (b : UInt8) (h : i < file.length), b ≠ file[i] →
        (i < 5 → Refuses format (file.set i b) fun e => ∃ reason, e = .invalidFormat reason) ∧
        (13 ≤ i → Refuses format (file.set i b) fun e =>
          ∃ expected got, e = .checksumMismatch expected got) := by
  obtain ⟨after, written, there⟩ := @exists_writeRecord format name host v replaceable
  refine ⟨after, _, written, there, ?_, ?_⟩
  · intro cut h strict
    apply refuses_of_decode
    intro name
    exact ⟨_, Frame.decode_of_strict_prefix magic fits h strict, _, rfl⟩
  · intro i b h other
    constructor
    · intro front
      apply refuses_of_decode
      intro name
      obtain ⟨reason, refused⟩ :=
        @Frame.decode_of_changed_header format name _ i b magic front h other
      exact ⟨_, refused, reason, rfl⟩
    · intro back
      apply refuses_of_decode
      intro name
      obtain ⟨expected, got, refused⟩ :=
        @Frame.decode_of_changed_body format name _ i b magic fits back h other
      exact ⟨_, refused, expected, got, rfl⟩

theorem refuses_sample :
    ∃ after file, writeRecord sampleFormat "records.bin" (.text "a") {} = .ok () after ∧
      after.disk.read "records.bin" = .ok file ∧ file.length = 19 ∧
      Refuses sampleFormat (file.take 18) (fun e => ∃ cause, e = .io cause) ∧
      Refuses sampleFormat (file.set 4 2) (fun e => ∃ reason, e = .invalidFormat reason) ∧
      Refuses sampleFormat (file.set 18 0x62)
        fun e => ∃ expected got, e = .checksumMismatch expected got := by
  obtain ⟨after, file, written, there, cut, changed⟩ := @refuses_of_writeRecord sampleFormat
    "records.bin" (.text "a") {} rfl (by decide +kernel) replaceable_empty
  obtain ⟨after', written', there'⟩ :=
    @exists_writeRecord sampleFormat "records.bin" {} (.text "a") replaceable_empty
  obtain rfl : after' = after := by
    rw [written] at written'
    exact (EStateM.Result.ok.inj written').2.symm
  obtain rfl : Record.fileBytes sampleFormat (.text "a") = file := by
    rw [there'] at there
    exact Except.ok.inj there
  refine ⟨after', _, written, there, by decide +kernel, ?_, ?_, ?_⟩
  · exact cut _ (List.take_prefix _ _) (by decide +kernel)
  · exact (changed 4 2 (by decide +kernel) (by decide +kernel)).1 (by decide)
  · exact (changed 18 0x62 (by decide +kernel) (by decide +kernel)).2 (by decide)

end TemporalStore.Host
