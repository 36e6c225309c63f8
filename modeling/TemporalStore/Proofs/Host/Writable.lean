import TemporalStore.Proofs.Host.Replace

/-!
This module contains when a file can be replaced. This depends on the directories only, which
replacing a file leaves alone, so a file that was replaced once can be replaced again.
-/

namespace TemporalStore

namespace Disk

/--
A file of that name can be written: the name leads to a place in a directory, and there is no
directory at that place.
-/
def Takes (disk : Disk) (name : String) : Prop :=
  ∃ spot part, disk.locate name = .ok spot ∧ spot.last = .into part ∧
    spot.directoryMeant = false ∧ part.utf8ByteSize ≤ maxPartLength ∧
      disk.nodes.get? (placeIn spot.directory part) ≠ some .directory

/--
Both the file itself and its temporary one can be written.
-/
def Replaceable (disk : Disk) (name : String) : Prop :=
  disk.Takes (Host.temporaryName name) ∧ disk.Takes name

section

variable {disk disk' disk'' : Disk} {name newName : String} {bytes : List UInt8}

theorem SameDirectories.refl (disk : Disk) : disk.SameDirectories disk := fun _ => Iff.rfl

theorem SameDirectories.trans (h : disk.SameDirectories disk')
    (h' : disk'.SameDirectories disk'') : disk.SameDirectories disk'' :=
  fun place => (h' place).trans (h place)

theorem takes_of_single (h : disk.locate name = .ok ⟨"", .into name, false⟩)
    (short : name.utf8ByteSize ≤ maxPartLength)
    (plain : disk.nodes.get? (placeIn "" name) ≠ some .directory) : disk.Takes name :=
  ⟨_, name, h, rfl, rfl, short, plain⟩

theorem Takes.of_sameDirectories (h : disk.Takes name) (same : disk.SameDirectories disk') :
    disk'.Takes name := by
  obtain ⟨spot, part, locate, last, meant, short, plain⟩ := h
  refine ⟨spot, part, locate_ok_of_sameDirectories same locate, last, meant, short, ?_⟩
  rw [ne_eq, same]
  exact plain

theorem Replaceable.of_sameDirectories (h : disk.Replaceable name)
    (same : disk.SameDirectories disk') : disk'.Replaceable name :=
  ⟨h.1.of_sameDirectories same, h.2.of_sameDirectories same⟩

theorem takes_of_write (h : disk.write name bytes = .ok disk') : disk.Takes name := by
  unfold write at h
  cases hl : disk.locate name with
  | error e => simp [hl, bind, Except.bind] at h
  | ok spot =>
    simp only [hl, bind, Except.bind] at h
    split at h
    · rename_i part last meant
      cases he : disk.entry spot.directory part with
      | error e => simp [he] at h
      | ok node =>
        obtain ⟨short, found⟩ := entry_eq_ok_iff.1 he
        refine ⟨spot, part, hl, last, meant, short, ?_⟩
        rw [found]
        intro directory
        simp [he, directory, throw, throwThe, MonadExceptOf.throw] at h
    · simp [throw, throwThe, MonadExceptOf.throw] at h

theorem Takes.write (h : disk.Takes name) (bytes : List UInt8) :
    ∃ disk', disk.write name bytes = .ok disk' := by
  obtain ⟨spot, part, locate, last, meant, short, plain⟩ := h
  have entry := (@entry_eq_ok_iff disk spot.directory part _).2 ⟨short, rfl⟩
  unfold Disk.write
  simp only [locate, bind, Except.bind, last, meant, entry]
  cases found : disk.nodes.get? (placeIn spot.directory part) with
  | none => exact ⟨_, rfl⟩
  | some node =>
    cases node with
    | file serial old => exact ⟨_, rfl⟩
    | directory => exact absurd found plain

theorem sameDirectories_of_write (h : disk.write name bytes = .ok disk') :
    disk.SameDirectories disk' := by
  obtain ⟨spot, part, serial, -, -, plain, nodes⟩ := exists_insert_of_write h
  exact sameDirectories_insert plain nodes

theorem read_of_write (h : disk.write name bytes = .ok disk') : disk'.read name = .ok bytes := by
  obtain ⟨spot, part, serial, locate, last, plain, nodes⟩ := exists_insert_of_write h
  obtain ⟨spot', part', locate', last', meant, short, -⟩ := takes_of_write h
  obtain rfl : spot = spot' := Except.ok.inj (locate.symm.trans locate')
  obtain rfl : part = part' := Step.into.inj (last.symm.trans last')
  have entry : disk'.entry spot.directory part = .ok (some (.file serial bytes)) := by
    rw [entry_eq_ok_iff, nodes, OrderedMap.get?_insert_self]
    exact ⟨short, rfl⟩
  unfold read
  rw [find_of_locate (locate_ok_of_sameDirectories (sameDirectories_of_write h) locate), last]
  simp only [entry, meant]
  rfl

theorem takes_of_rename (h : disk.rename name newName = .ok disk') : disk.Takes newName := by
  obtain ⟨-, -, spot, part, -, -, -, -, locate, last, meant, short, -, plain, -⟩ :=
    exists_insert_of_rename h
  exact ⟨spot, part, locate, last, meant, short, plain⟩

theorem sameDirectories_of_rename (h : disk.rename name newName = .ok disk') :
    disk.SameDirectories disk' := by
  obtain ⟨spot, part, newSpot, newPart, serial, bytes, -, -, -, -, -, -, found, plain, nodes⟩ :=
    exists_insert_of_rename h
  have removed : disk.SameDirectories (disk.remove (placeIn spot.directory part)) := by
    apply sameDirectories_remove
    simp [found]
  apply removed.trans
  apply sameDirectories_insert _ nodes
  rw [ne_eq, removed]
  exact plain

/--
There is nothing under the old name any more.
-/
theorem read_of_renamed (takes : disk.Takes name) (apart : Apart name newName)
    (h : disk.rename name newName = .ok disk') : disk'.read name = .error .noSuchFile := by
  obtain ⟨spot, part, newSpot, newPart, serial, bytes, locate, last, newLocate, newLast, -, -,
    -, -, nodes⟩ := exists_insert_of_rename h
  obtain ⟨spot', part', locate', last', -, short, -⟩ := takes
  obtain rfl : spot = spot' := Except.ok.inj (locate.symm.trans locate')
  obtain rfl : part = part' := Step.into.inj (last.symm.trans last')
  have entry : disk'.entry spot.directory part = .ok none := by
    have elsewhere := apart disk spot part newSpot newPart locate last newLocate newLast
    rw [entry_eq_ok_iff, nodes, OrderedMap.get?_insert_of_ne elsewhere.symm,
      OrderedMap.get?_erase, if_pos Std.ReflOrd.compare_self]
    exact ⟨short, rfl⟩
  unfold read
  rw [find_of_locate (locate_ok_of_sameDirectories (sameDirectories_of_rename h) locate), last]
  simp only [entry]
  rfl

/--
What was just written can be renamed, if the new name can be written.
-/
theorem Takes.rename {written : Disk} (h : written.Takes newName) (takes : disk.Takes name)
    (hw : disk.write name bytes = .ok written) :
    ∃ disk', written.rename name newName = .ok disk' := by
  obtain ⟨spot, part, serial, locate, last, plain, nodes⟩ := exists_insert_of_write hw
  obtain ⟨spot', part', locate', last', meant', short', -⟩ := takes
  have sameSpot : spot = spot' := Except.ok.inj (locate.symm.trans locate')
  subst sameSpot
  have samePart : part = part' := Step.into.inj (last.symm.trans last')
  subst samePart
  obtain ⟨newSpot, newPart, newLocate, newLast, newMeant, newShort, newPlain⟩ := h
  have there := locate_ok_of_sameDirectories (sameDirectories_of_write hw) locate
  have entry : written.entry spot.directory part = .ok (some (.file serial bytes)) := by
    rw [entry_eq_ok_iff, nodes, OrderedMap.get?_insert_self]
    exact ⟨short', rfl⟩
  have newEntry := (@entry_eq_ok_iff written newSpot.directory newPart _).2 ⟨newShort, rfl⟩
  unfold Disk.rename
  simp only [there, newLocate, bind, Except.bind, last, newLast, entry, newEntry, meant', newMeant,
    newPlain]
  exact ⟨_, rfl⟩

end

end Disk

namespace Host

theorem replaceFile_eq (name : String) (bytes : List UInt8) (host : Host) :
    replaceFile name bytes host = match host.disk.write (temporaryName name) bytes with
      | .error e => .error (.io e.message) host
      | .ok written => match written.rename (temporaryName name) name with
        | .error e => .error (.io e.message) { host with disk := written }
        | .ok disk => .ok () { host with disk } := by
  change EStateM.bind (change (·.write (temporaryName name) bytes))
    (fun _ => change (·.rename (temporaryName name) name)) host = _
  unfold EStateM.bind
  rw [change_eq]
  cases host.disk.write (temporaryName name) bytes with
  | error e => rfl
  | ok written =>
    simp only [change_eq]
    cases written.rename (temporaryName name) name with
    | error e => rfl
    | ok disk => rfl

/--
Whether a file can be replaced does not depend on what is written to it.
-/
theorem replaceFile_ok_iff (name : String) (bytes : List UInt8) (host : Host) :
    (∃ host', replaceFile name bytes host = .ok () host') ↔ host.disk.Replaceable name := by
  rw [replaceFile_eq]
  cases hw : host.disk.write (temporaryName name) bytes with
  | error e =>
    simp only [reduceCtorEq, exists_false, false_iff]
    rintro ⟨takes, -⟩
    obtain ⟨disk, written⟩ := takes.write bytes
    simp [hw] at written
  | ok written =>
    have takes := Disk.takes_of_write hw
    have same := Disk.sameDirectories_of_write hw
    simp only
    cases hr : written.rename (temporaryName name) name with
    | error e =>
      simp only [reduceCtorEq, exists_false, false_iff]
      rintro ⟨-, named⟩
      obtain ⟨disk, renamed⟩ := (named.of_sameDirectories same).rename takes hw
      simp [hr] at renamed
    | ok disk =>
      simp only [EStateM.Result.ok.injEq, true_and, exists_eq', true_iff]
      exact ⟨takes, (Disk.takes_of_rename hr).of_sameDirectories same.symm⟩

/--
Replacing a file takes away whatever file had the temporary name.
-/
theorem read_temporary_of_replaceFile {name : String} {bytes : List UInt8} {host after : Host}
    (h : replaceFile name bytes host = .ok () after) :
    after.disk.read (temporaryName name) = .error .noSuchFile := by
  rw [replaceFile_eq] at h
  cases hw : host.disk.write (temporaryName name) bytes with
  | error e => simp [hw] at h
  | ok written =>
    have takes := (Disk.takes_of_write hw).of_sameDirectories (Disk.sameDirectories_of_write hw)
    simp only [hw] at h
    cases hr : written.rename (temporaryName name) name with
    | error e => simp [hr] at h
    | ok disk =>
      simp only [hr, EStateM.Result.ok.injEq, true_and] at h
      rw [← h]
      exact Disk.read_of_renamed takes (Disk.apart_temporary name) hr

/--
Replacing a file leaves the directories where they are, and changes nothing but the disk.
-/
theorem replaceFile_leaves (name : String) (bytes : List UInt8) (host : Host) :
    ∃ disk, host.disk.SameDirectories disk ∧
      (replaceFile name bytes host = .ok () { host with disk } ∨
        ∃ e, replaceFile name bytes host = .error e { host with disk }) := by
  rw [replaceFile_eq]
  cases hw : host.disk.write (temporaryName name) bytes with
  | error e => exact ⟨host.disk, .refl _, .inr ⟨_, rfl⟩⟩
  | ok written =>
    have same := Disk.sameDirectories_of_write hw
    simp only
    cases hr : written.rename (temporaryName name) name with
    | error e => exact ⟨written, same, .inr ⟨_, rfl⟩⟩
    | ok disk => exact ⟨disk, same.trans (Disk.sameDirectories_of_rename hr), .inl rfl⟩

end Host

end TemporalStore
