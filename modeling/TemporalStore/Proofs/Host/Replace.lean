import TemporalStore.Host.Basic
import TemporalStore.Proofs.Host.Name
import TemporalStore.Proofs.Ordered
import TemporalStore.Proofs.Outcome

/-!
This module contains what replacing a file does to that file: when it succeeds the file has the
new contents, and when it fails the file is what it was. What is read from a file is a matter of its
contents alone.
-/

namespace TemporalStore

namespace Disk

/--
The file of that name is the same on both disks.
-/
structure Keeps (disk disk' : Disk) (name : String) : Prop where
  contains : disk'.contains name = disk.contains name
  read : ∀ bytes, disk.read name = .ok bytes → disk'.read name = .ok bytes

theorem Keeps.refl (disk : Disk) (name : String) : disk.Keeps disk name := ⟨rfl, fun _ h => h⟩

theorem Keeps.trans {disk disk' disk'' : Disk} {name : String} (h : disk.Keeps disk' name)
    (h' : disk'.Keeps disk'' name) : disk.Keeps disk'' name where
  contains := h'.contains.trans h.contains
  read bytes there := h'.read bytes (h.read bytes there)

def SameDirectories (disk disk' : Disk) : Prop :=
  ∀ place, disk'.nodes.get? place = some .directory ↔ disk.nodes.get? place = some .directory

theorem SameDirectories.symm {disk disk' : Disk} (h : disk.SameDirectories disk') :
    disk'.SameDirectories disk :=
  fun place => (h place).symm

theorem sameDirectories_insert {disk disk' : Disk} {place : String} {serial : Nat}
    {bytes : List UInt8} (h : disk.nodes.get? place ≠ some .directory)
    (nodes : disk'.nodes = disk.nodes.insert place (.file serial bytes)) :
    disk.SameDirectories disk' := by
  intro other
  rw [nodes, OrderedMap.get?_insert]
  split
  · rename_i he
    have he : other = place := Std.LawfulEqOrd.eq_of_compare he
    rw [he]
    simp [h]
  · rfl

theorem sameDirectories_remove {disk : Disk} {place : String}
    (h : disk.nodes.get? place ≠ some .directory) : disk.SameDirectories (disk.remove place) := by
  intro other
  unfold remove
  rw [OrderedMap.get?_erase]
  split
  · rename_i he
    have he : other = place := Std.LawfulEqOrd.eq_of_compare he
    rw [he]
    simp [h]
  · rfl

section

variable {disk disk' : Disk}

theorem entry_eq_ok_iff {directory part : String} {node : Option DiskNode} :
    disk.entry directory part = .ok node ↔
      part.utf8ByteSize ≤ maxPartLength ∧ disk.nodes.get? (placeIn directory part) = node := by
  unfold entry
  split
  · rename_i long
    simp only [reduceCtorEq, false_iff, not_and]
    omega
  · rename_i short
    simp only [Except.ok.injEq, iff_and_self]
    omega

theorem enter_into_eq_ok_iff {directory part place : String} :
    disk.enter directory (.into part) = .ok place ↔
      part.utf8ByteSize ≤ maxPartLength ∧
        disk.nodes.get? (placeIn directory part) = some .directory ∧
        place = placeIn directory part := by
  have hentry (node : Option DiskNode) : disk.entry directory part = .ok node ↔
      part.utf8ByteSize ≤ maxPartLength ∧ disk.nodes.get? (placeIn directory part) = node :=
    entry_eq_ok_iff
  unfold enter
  cases he : disk.entry directory part with
  | error e =>
    have : ¬ part.utf8ByteSize ≤ maxPartLength := by
      intro short
      have := (hentry _).2 ⟨short, rfl⟩
      simp [he] at this
    simp [bind, Except.bind, he, this]
  | ok node =>
    obtain ⟨short, found⟩ := (hentry node).1 he
    rw [found]
    cases node with
    | none => simp [bind, Except.bind, he, throw, throwThe, MonadExceptOf.throw]
    | some node =>
      cases node with
      | file serial bytes => simp [bind, Except.bind, he, throw, throwThe, MonadExceptOf.throw]
      | directory => simp [bind, Except.bind, he, pure, Except.pure, short, eq_comm]

theorem enter_ok_of_sameDirectories (same : disk.SameDirectories disk') {directory place : String}
    {step : Step} (h : disk.enter directory step = .ok place) :
    disk'.enter directory step = .ok place := by
  cases step with
  | stay => exact h
  | up => exact h
  | into part =>
    rw [enter_into_eq_ok_iff] at h ⊢
    exact ⟨h.1, (same _).2 h.2.1, h.2.2⟩

theorem foldlM_enter_ok_of_sameDirectories (same : disk.SameDirectories disk')
    {steps : List Step} {directory place : String}
    (h : steps.foldlM disk.enter directory = .ok place) :
    steps.foldlM disk'.enter directory = .ok place := by
  induction steps generalizing directory with
  | nil => exact h
  | cons step steps ih =>
    rw [List.foldlM_cons] at h ⊢
    cases he : disk.enter directory step with
    | error e =>
      rw [he] at h
      simp [bind, Except.bind] at h
    | ok next =>
      rw [he] at h
      rw [enter_ok_of_sameDirectories same he]
      exact ih h

theorem locate_eq_ok_iff {name : String} {spot : Spot} :
    disk.locate name = .ok spot ↔
      '\x00' ∉ name.toList ∧ name.utf8ByteSize ≤ maxNameLength ∧
        (FileName.steps name).dropLast.foldlM disk.enter "" = .ok spot.directory ∧
        spot.last = (FileName.steps name).getLast?.getD .stay ∧
        spot.directoryMeant = FileName.endsInSeparator name := by
  unfold locate
  by_cases nul : '\x00' ∈ name.toList
  · simp [nul, throw, throwThe, MonadExceptOf.throw, bind, Except.bind]
  · by_cases long : maxNameLength < name.utf8ByteSize
    · simp [nul, long, throw, throwThe, MonadExceptOf.throw, bind, Except.bind]
    · simp only [nul, if_false, long]
      cases (FileName.steps name).dropLast.foldlM disk.enter "" with
      | error e => simp [bind, Except.bind]
      | ok directory =>
        obtain ⟨d, l, m⟩ := spot
        simp only [bind, Except.bind, pure, Except.pure, Except.ok.injEq, Spot.mk.injEq,
          not_false_eq_true, true_and]
        constructor
        · rintro ⟨rfl, rfl, rfl⟩
          exact ⟨by omega, rfl, rfl, rfl⟩
        · rintro ⟨-, rfl, rfl, rfl⟩
          exact ⟨rfl, rfl, rfl⟩

theorem locate_ok_of_sameDirectories (same : disk.SameDirectories disk') {name : String}
    {spot : Spot} (h : disk.locate name = .ok spot) : disk'.locate name = .ok spot := by
  rw [locate_eq_ok_iff] at h ⊢
  exact ⟨h.1, h.2.1, foldlM_enter_ok_of_sameDirectories same h.2.2.1, h.2.2.2⟩

theorem find_of_locate_error {name : String} {e : DiskError} (h : disk.locate name = .error e) :
    disk.find name = .error e := by
  unfold find
  rw [h]
  rfl

theorem find_of_locate {name : String} {spot : Spot} (h : disk.locate name = .ok spot) :
    disk.find name = match spot.last with
      | .into part => do
        match ← disk.entry spot.directory part, spot.directoryMeant with
        | some (.file _ _), true => throw .notADirectory
        | node, _ => return node
      | _ => return some .directory := by
  unfold find
  rw [h]
  rfl

theorem contains_of_read {name : String} {bytes : List UInt8} (h : disk.read name = .ok bytes) :
    disk.contains name = true := by
  unfold read at h
  unfold contains
  cases hf : disk.find name with
  | error e => simp [hf, bind, Except.bind] at h
  | ok node =>
    rw [hf] at h
    cases node with
    | none => simp [bind, Except.bind, throw, throwThe, MonadExceptOf.throw] at h
    | some node => rfl

/--
What stands at the place to which the name leads decides.
-/
theorem keeps_of_sameDirectories {name : String} (same : disk.SameDirectories disk')
    (there : ∀ spot part, disk.locate name = .ok spot → spot.last = .into part →
      disk'.nodes.get? (placeIn spot.directory part) =
        disk.nodes.get? (placeIn spot.directory part)) :
    disk.Keeps disk' name := by
  cases hl : disk.locate name with
  | error e =>
    -- a name that leads nowhere still leads nowhere: the directories are the same
    have failed : ∃ e', disk'.locate name = .error e' := by
      cases hl' : disk'.locate name with
      | error e' => exact ⟨e', rfl⟩
      | ok spot =>
        have := locate_ok_of_sameDirectories same.symm hl'
        simp [hl] at this
    obtain ⟨e', he'⟩ := failed
    have find : disk.find name = .error e := find_of_locate_error hl
    have find' : disk'.find name = .error e' := find_of_locate_error he'
    constructor
    · unfold contains
      rw [find, find']
    · intro bytes h
      unfold read at h
      simp [find, bind, Except.bind] at h
  | ok spot =>
    have find : disk'.find name = disk.find name := by
      rw [find_of_locate hl, find_of_locate (locate_ok_of_sameDirectories same hl)]
      cases hs : spot.last with
      | stay => rfl
      | up => rfl
      | into part =>
        have entry : disk'.entry spot.directory part = disk.entry spot.directory part := by
          unfold entry
          rw [there spot part hl hs]
        simp only [entry]
    constructor
    · unfold contains
      rw [find]
    · intro bytes h
      unfold read at h ⊢
      rw [find]
      exact h

theorem keeps_of_insert {name place : String} {serial : Nat} {bytes : List UInt8}
    (plain : disk.nodes.get? place ≠ some .directory)
    (elsewhere : ∀ spot part, disk.locate name = .ok spot → spot.last = .into part →
      placeIn spot.directory part ≠ place)
    (nodes : disk'.nodes = disk.nodes.insert place (.file serial bytes)) :
    disk.Keeps disk' name := by
  apply keeps_of_sameDirectories (sameDirectories_insert plain nodes)
  intro spot part locate last
  rw [nodes, OrderedMap.get?_insert_of_ne (elsewhere spot part locate last)]

end

/-! ## What writing and renaming do to the places -/

section

variable {disk disk' : Disk} {name newName : String} {bytes : List UInt8}

theorem exists_insert_of_write (h : disk.write name bytes = .ok disk') :
    ∃ spot part serial, disk.locate name = .ok spot ∧ spot.last = .into part ∧
      disk.nodes.get? (placeIn spot.directory part) ≠ some .directory ∧
      disk'.nodes = disk.nodes.insert (placeIn spot.directory part) (.file serial bytes) := by
  unfold write at h
  cases hl : disk.locate name with
  | error e => simp [hl, bind, Except.bind] at h
  | ok spot =>
    simp only [hl, bind, Except.bind] at h
    split at h
    · rename_i part last meant
      cases he : disk.entry spot.directory part with
      | error e => simp [he] at h
      | ok node =>
        have found := (entry_eq_ok_iff.1 he).2
        simp only [he] at h
        split at h
        · rename_i serial old
          simp only [pure, Except.pure, Except.ok.injEq] at h
          refine ⟨spot, part, serial, rfl, last, by simp [found], ?_⟩
          rw [← h]
          rfl
        · simp [throw, throwThe, MonadExceptOf.throw] at h
        · simp only [pure, Except.pure, Except.ok.injEq] at h
          refine ⟨spot, part, disk.nextSerial, rfl, last, by simp [found], ?_⟩
          rw [← h]
          rfl
    · simp [throw, throwThe, MonadExceptOf.throw] at h

theorem exists_insert_of_rename (h : disk.rename name newName = .ok disk') :
    ∃ spot part newSpot newPart serial bytes,
      disk.locate name = .ok spot ∧ spot.last = .into part ∧
      disk.locate newName = .ok newSpot ∧ newSpot.last = .into newPart ∧
      newSpot.directoryMeant = false ∧ newPart.utf8ByteSize ≤ maxPartLength ∧
      disk.nodes.get? (placeIn spot.directory part) = some (.file serial bytes) ∧
      disk.nodes.get? (placeIn newSpot.directory newPart) ≠ some .directory ∧
      disk'.nodes = (disk.nodes.erase (placeIn spot.directory part)).insert
        (placeIn newSpot.directory newPart) (.file serial bytes) := by
  unfold rename at h
  cases hl : disk.locate name with
  | error e => simp [hl, bind, Except.bind] at h
  | ok spot =>
    cases hn : disk.locate newName with
    | error e => simp [hl, hn, bind, Except.bind] at h
    | ok newSpot =>
      simp only [hl, hn, bind, Except.bind] at h
      split at h
      · rename_i part newPart last newLast
        cases he : disk.entry spot.directory part with
        | error e => simp [he] at h
        | ok node =>
          have found := (entry_eq_ok_iff.1 he).2
          simp only [he] at h
          split at h
          · rename_i serial bytes
            cases hne : disk.entry newSpot.directory newPart with
            | error e => simp [hne] at h
            | ok newNode =>
              obtain ⟨short, newFound⟩ := entry_eq_ok_iff.1 hne
              simp only [hne] at h
              split at h
              · simp [throw, throwThe, MonadExceptOf.throw] at h
              · rename_i meant
                simp only [not_or, Bool.not_eq_true] at meant
                split at h
                · simp [throw, throwThe, MonadExceptOf.throw] at h
                · rename_i plain
                  simp only [pure, Except.pure, Except.ok.injEq] at h
                  refine ⟨spot, part, newSpot, newPart, serial, bytes, rfl, last, rfl, newLast,
                    meant.2, short, found, ?_, ?_⟩
                  · rw [newFound]
                    exact plain
                  · rw [← h]
                    rfl
          · simp [throw, throwThe, MonadExceptOf.throw] at h
          · simp [throw, throwThe, MonadExceptOf.throw] at h
      · simp [throw, throwThe, MonadExceptOf.throw] at h

end

theorem placeIn_ne_of_part_ne {directory directory' part part' : String}
    (h : Path.separator ∉ part.toList) (h' : Path.separator ∉ part'.toList) (ne : part ≠ part') :
    placeIn directory part ≠ placeIn directory' part' := by
  have last (directory part : String) (h : Path.separator ∉ part.toList) :
      (Path.segments (placeIn directory part).toList).getLast? = some part.toList := by
    have single := Path.segments_of_not_mem h
    unfold placeIn
    split
    · simp [single]
    · rw [String.toList_append, String.toList_append, String.toList_singleton, List.append_assoc,
        List.singleton_append, Path.segments_append, single, List.getLast?_concat]
  intro same
  have := last directory part h
  rw [same, last directory' part' h'] at this
  exact ne (String.toList_inj.1 (Option.some.inj this)).symm

theorem read_of_rename {disk written disk' : Disk} {name newName : String} {bytes : List UInt8}
    (hw : disk.write name bytes = .ok written) (hr : written.rename name newName = .ok disk') :
    disk'.read newName = .ok bytes := by
  obtain ⟨spot, part, serial, locate, last, plain, nodes⟩ := exists_insert_of_write hw
  obtain ⟨spot', part', newSpot, newPart, serial', bytes', locate', last', newLocate, newLast,
    meant, short, found, newPlain, nodes'⟩ := exists_insert_of_rename hr
  -- the name that is renamed leads to the place that was just written
  have there := locate_ok_of_sameDirectories (sameDirectories_insert plain nodes) locate
  have sameSpot : spot = spot' := Except.ok.inj (there.symm.trans locate')
  subst sameSpot
  have samePart : part = part' := Step.into.inj (last.symm.trans last')
  subst samePart
  have sameBytes : bytes' = bytes := by
    rw [nodes, OrderedMap.get?_insert_self] at found
    simp only [Option.some.injEq, DiskNode.file.injEq] at found
    exact found.2.symm
  have removed : written.SameDirectories (written.remove (placeIn spot.directory part)) := by
    apply sameDirectories_remove
    simp [found]
  have moved : written.SameDirectories disk' := by
    intro place
    rw [← removed place]
    apply sameDirectories_insert _ nodes'
    rw [ne_eq, removed]
    exact newPlain
  have entry : disk'.entry newSpot.directory newPart = .ok (some (.file serial' bytes)) := by
    rw [entry_eq_ok_iff, nodes', OrderedMap.get?_insert_self, sameBytes]
    exact ⟨short, rfl⟩
  unfold read
  rw [find_of_locate (locate_ok_of_sameDirectories moved newLocate), newLast]
  simp only [entry, meant]
  rfl

/-! ## Different files -/

/--
Whatever the disk is like, the two names do not lead to the same place on it.
-/
def Apart (name other : String) : Prop :=
  ∀ (disk : Disk) spot part spot' part', disk.locate name = .ok spot → spot.last = .into part →
    disk.locate other = .ok spot' → spot'.last = .into part' →
      placeIn spot'.directory part' ≠ placeIn spot.directory part

section

variable {disk disk' : Disk} {name other part part' : String} {bytes : List UInt8}

theorem last_of_locate {spot : Spot} {step : Step} (locate : disk.locate name = .ok spot)
    (last : (FileName.steps name).getLast? = some step) : spot.last = step := by
  obtain ⟨-, -, -, same, -⟩ := locate_eq_ok_iff.1 locate
  rw [same, last]
  rfl

/--
The last parts tell names apart.
-/
theorem apart_of_last (last : (FileName.steps name).getLast? = some (.into part))
    (last' : (FileName.steps other).getLast? = some (.into part')) (ne : part' ≠ part) :
    Apart name other := by
  intro disk spot q spot' q' locate into locate' into'
  rw [last_of_locate locate last, Step.into.injEq] at into
  rw [last_of_locate locate' last', Step.into.injEq] at into'
  rw [← into, ← into']
  have plain := (FileName.part_of_mem_steps (List.mem_of_getLast? last)).1
  have plain' := (FileName.part_of_mem_steps (List.mem_of_getLast? last')).1
  exact placeIn_ne_of_part_ne plain' plain ne

theorem keeps_of_write (apart : Apart name other) (written : disk.write name bytes = .ok disk') :
    disk.Keeps disk' other := by
  obtain ⟨spot, part, serial, locate, last, plain, nodes⟩ := exists_insert_of_write written
  apply keeps_of_insert plain _ nodes
  intro spot' part' locate' last'
  exact apart disk spot part spot' part' locate last locate' last'

/--
The temporary file of a name is never the file of that name.
-/
theorem apart_temporary (name : String) : Apart (Host.temporaryName name) name := by
  intro disk spot part spot' part' locate last locate' last'
  have end' : (FileName.steps name).getLast? = some (.into part') := by
    obtain ⟨-, -, -, steps', -⟩ := locate_eq_ok_iff.1 locate'
    rw [last'] at steps'
    cases hs : (FileName.steps name).getLast? with
    | none => simp [hs] at steps'
    | some step =>
      rw [hs, Option.getD_some] at steps'
      rw [steps']
  -- only the last part of the name gets the suffix
  have longer : part' ≠ part' ++ ".tmp" := by
    intro same
    have := congrArg (fun s : String => s.toList.length) same
    simp [String.toList_append] at this
  exact apart_of_last (FileName.getLast?_steps_withSuffix end') end' longer disk spot part spot'
    part' locate last locate' last'

end

end Disk

namespace Host

theorem change_eq (f : Disk → Except DiskError Disk) (host : Host) :
    change f host = match f host.disk with
      | .ok disk => .ok () { host with disk }
      | .error e => .error (.io e.message) host := by
  change EStateM.bind (ask f) _ host = _
  unfold EStateM.bind ask
  rw [get_bind]
  cases hf : f host.disk with
  | ok disk =>
    simp only
    rfl
  | error e =>
    simp only
    rfl

theorem replaceFile_ok {name : String} {bytes : List UInt8} {host host' : Host}
    (h : replaceFile name bytes host = .ok () host') :
    ∃ disk, host' = { host with disk } ∧ disk.read name = .ok bytes := by
  change EStateM.bind (change _) _ host = _ at h
  unfold EStateM.bind at h
  rw [change_eq] at h
  cases hw : host.disk.write (temporaryName name) bytes with
  | error e => simp [hw] at h
  | ok written =>
    simp only [hw, change_eq] at h
    cases hr : written.rename (temporaryName name) name with
    | error e => simp [hr] at h
    | ok disk =>
      simp only [hr, EStateM.Result.ok.injEq, true_and] at h
      exact ⟨disk, h.symm, Disk.read_of_rename hw hr⟩

theorem replaceFile_error {name : String} {bytes : List UInt8} {host host' : Host} {e : StoreError}
    (h : replaceFile name bytes host = .error e host') :
    (∃ disk, host' = { host with disk } ∧ host.disk.Keeps disk name) ∧ ∃ cause, e = .io cause := by
  change EStateM.bind (change _) _ host = _ at h
  unfold EStateM.bind at h
  rw [change_eq] at h
  cases hw : host.disk.write (temporaryName name) bytes with
  | error cause =>
    simp only [hw, EStateM.Result.error.injEq] at h
    exact ⟨⟨host.disk, h.2.symm, Disk.Keeps.refl _ _⟩, _, h.1.symm⟩
  | ok written =>
    simp only [hw, change_eq] at h
    cases hr : written.rename (temporaryName name) name with
    | error cause =>
      simp only [hr, EStateM.Result.error.injEq] at h
      exact ⟨⟨written, h.2.symm, Disk.keeps_of_write (Disk.apart_temporary name) hw⟩, _, h.1.symm⟩
    | ok disk => simp [hr] at h

theorem readRecord_of_read {α : Type} {format : FileFormat} {record : MessagePack.Value → Option α}
    {name : String} {host : Host} {bytes : List UInt8} (h : host.disk.read name = .ok bytes) :
    readRecord format record name host =
      match Record.ofFileBytes format record name bytes with
      | .ok a => .ok a host
      | .error e => .error e host := by
  have asked : ask (·.read name) host = .ok bytes host := by
    unfold ask
    rw [get_bind]
    simp only [h]
    rfl
  unfold readRecord
  rw [bind_ok asked]
  cases Record.ofFileBytes format record name bytes with
  | ok a => rfl
  | error e => rfl

end Host

end TemporalStore
