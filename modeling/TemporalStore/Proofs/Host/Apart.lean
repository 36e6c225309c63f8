import TemporalStore.Proofs.Host.Writable

/-!
This module contains what is done to other files when one is written or replaced: nothing, if the
two names never lead to the same place.
-/

namespace TemporalStore

namespace Disk

section

variable {disk disk' : Disk} {name newName other : String}

theorem keeps_of_rename (apart : Apart name other) (apart' : Apart newName other)
    (renamed : disk.rename name newName = .ok disk') : disk.Keeps disk' other := by
  obtain ⟨spot, part, newSpot, newPart, serial, bytes, locate, last, newLocate, newLast, -, -, -,
    -, nodes⟩ := exists_insert_of_rename renamed
  apply keeps_of_sameDirectories (sameDirectories_of_rename renamed)
  intro spot' part' locate' last'
  have notOld := apart disk spot part spot' part' locate last locate' last'
  have notNew := apart' disk newSpot newPart spot' part' newLocate newLast locate' last'
  have notOld : ¬ compare (placeIn spot'.directory part') (placeIn spot.directory part) = .eq :=
    fun same => notOld (Std.LawfulEqOrd.eq_of_compare same)
  rw [nodes, OrderedMap.get?_insert_of_ne notNew, OrderedMap.get?_erase, if_neg notOld]

end

end Disk

namespace Host

/--
The file is the same afterwards, even if the operation fails.
-/
def Leaves (file : String) {α : Type} (x : HostM α) : Prop :=
  ∀ host : Host, host.disk.Keeps (afterwards (x host)).disk file

section

variable {file : String} {α β : Type} {x : HostM α} {f : α → HostM β}

theorem Leaves.of_ok (h : Leaves file x) {host host' : Host} {a : α}
    (ok : x host = .ok a host') : host.disk.Keeps host'.disk file := by
  have left := h host
  rw [ok] at left
  exact left

theorem Leaves.of_error (h : Leaves file x) {host host' : Host} {e : StoreError}
    (failed : x host = .error e host') : host.disk.Keeps host'.disk file := by
  have left := h host
  rw [failed] at left
  exact left

theorem leaves_pure (a : α) : Leaves file (pure a) := fun _ => .refl _ _

theorem leaves_throw (e : StoreError) : Leaves file (throw e : HostM α) := fun _ => .refl _ _

theorem leaves_get_bind {f : Host → HostM β} (hf : ∀ host, Leaves file (f host)) :
    Leaves file ((get : HostM Host) >>= f) := fun host => hf host host

theorem Leaves.bind (hx : Leaves file x) (hf : ∀ a, Leaves file (f a)) :
    Leaves file (x >>= f) := by
  intro host
  cases result : x host with
  | ok a host' =>
    rw [bind_ok result]
    exact (hx.of_ok result).trans (hf a host')
  | error e host' =>
    rw [bind_error result]
    exact hx.of_error result

theorem Leaves.tryCatch {handler : StoreError → HostM α} (hx : Leaves file x)
    (hh : ∀ e, Leaves file (handler e)) : Leaves file (tryCatch x handler) := by
  intro host
  cases result : x host with
  | ok a host' =>
    rw [tryCatch_ok result]
    exact hx.of_ok result
  | error e host' =>
    rw [tryCatch_error result]
    exact (hx.of_error result).trans (hh e host')

theorem Leaves.discard (hx : Leaves file x) : Leaves file (discard x) := by
  intro host
  cases result : x host with
  | ok a host' =>
    rw [discard_ok result]
    exact hx.of_ok result
  | error e host' =>
    rw [discard_error result]
    exact hx.of_error result

theorem leaves_modify {g : Host → Host} (same : ∀ host, (g host).disk.nodes = host.disk.nodes) :
    Leaves file (modify g : HostM Unit) := by
  intro host
  apply Disk.keeps_of_sameDirectories
  · intro place
    change (g host).disk.nodes.get? place = _ ↔ _
    rw [same]
  · intro spot part _ _
    change (g host).disk.nodes.get? _ = _
    rw [same]

theorem leaves_ask (g : Disk → Except DiskError α) : Leaves file (ask g) := by
  apply leaves_get_bind
  intro host
  cases g host.disk with
  | ok a => exact leaves_pure a
  | error e => exact leaves_throw _

theorem leaves_write {name : String} (apart : Disk.Apart name file) (bytes : List UInt8) :
    Leaves file (change (·.write name bytes)) := by
  intro host
  rw [change_eq]
  cases written : host.disk.write name bytes with
  | ok disk => exact Disk.keeps_of_write apart written
  | error e => exact .refl _ _

theorem leaves_replaceFile {name : String} (apart : Disk.Apart name file)
    (temporary : Disk.Apart (temporaryName name) file) (bytes : List UInt8) :
    Leaves file (replaceFile name bytes) := by
  intro host
  rw [replaceFile_eq]
  cases hw : host.disk.write (temporaryName name) bytes with
  | error e => exact .refl _ _
  | ok written =>
    have keeps := Disk.keeps_of_write temporary hw
    simp only
    cases hr : written.rename (temporaryName name) name with
    | error e => exact keeps
    | ok disk => exact keeps.trans (Disk.keeps_of_rename temporary apart hr)

theorem leaves_readRecord {format : FileFormat} {read : MessagePack.Value → Option α}
    (name : String) : Leaves file (readRecord format read name) := by
  apply (leaves_ask _).bind
  intro bytes
  cases Record.ofFileBytes format read name bytes with
  | ok a => exact leaves_pure a
  | error e => exact leaves_throw e

end

end Host

end TemporalStore
