import TemporalStore.Bytes.Checksum
import TemporalStore.Bytes.Endian
import TemporalStore.Bytes.Split
import TemporalStore.Error

/-!
This module contains the frame that protects the payload of a file: four magic bytes, a version,
the length of the payload in eight bytes, its checksum in four, both least significant byte
first, and the payload.
-/

namespace TemporalStore

/--
What tells one kind of file from another.
-/
structure FileFormat where
  /-- Four bytes. -/
  magic : List UInt8
  version : UInt8
  deriving DecidableEq, Inhabited

namespace Frame

/--
Longer payloads are refused.
-/
def maxPayload : Nat := 0x40000000

/--
What reading says at the end of the file, when it still expects bytes.
-/
def endOfFile : StoreError := .io "failed to fill whole buffer"

def encode (format : FileFormat) (payload : List UInt8) : List UInt8 :=
  format.magic ++ format.version :: (Bytes.littleEndian 8 payload.length ++
    (Bytes.littleEndian 4 (Bytes.crc32 payload).toNat ++ payload))

def take (n : Nat) (bs : List UInt8) : Except StoreError (List UInt8 × List UInt8) :=
  match Bytes.splitAt? n bs with
  | some split => .ok split
  | none => .error endOfFile

/--
The payload in the frame that `file` begins with; bytes after it do not matter. `name` is the
name of the file in messages.
-/
def decode (format : FileFormat) (name : String) (file : List UInt8) :
    Except StoreError (List UInt8) := do
  let (magic, file) ← take 4 file
  if magic ≠ format.magic then
    throw (.invalidFormat s!"Invalid magic in {name}")
  let (version, file) ← take 1 file
  if version ≠ [format.version] then
    throw (.invalidFormat s!"Unsupported format version {Bytes.ofLittleEndian version} in {name}")
  let (length, file) ← take 8 file
  let length := Bytes.ofLittleEndian length
  if maxPayload < length then
    throw (.corruption s!"Frame in {name} claims {length} bytes")
  let (checksum, file) ← take 4 file
  let expected := UInt32.ofNat (Bytes.ofLittleEndian checksum)
  let (payload, _) ← take length file
  let got := Bytes.crc32 payload
  if got ≠ expected then
    throw (.checksumMismatch expected got)
  return payload

theorem take_append {xs ys : List UInt8} {n : Nat} (h : xs.length = n) :
    take n (xs ++ ys) = .ok (xs, ys) := by
  subst h
  rw [take, Bytes.splitAt?_append]

/--
A frame gives its payload back, whatever follows it in the file.
-/
theorem decode_encode {format : FileFormat} {name : String} {payload rest : List UInt8}
    (magic : format.magic.length = 4) (size : payload.length ≤ maxPayload) :
    decode format name (encode format payload ++ rest) = .ok payload := by
  have length : Bytes.ofLittleEndian (Bytes.littleEndian 8 payload.length) = payload.length := by
    rw [Bytes.ofLittleEndian_littleEndian]
    apply Nat.mod_eq_of_lt
    unfold maxPayload at size
    simp only [Bytes.capacity]
    omega
  have checksum : UInt32.ofNat
      (Bytes.ofLittleEndian (Bytes.littleEndian 4 (Bytes.crc32 payload).toNat)) =
      Bytes.crc32 payload := by
    have : (Bytes.crc32 payload).toNat < Bytes.capacity 4 := (Bytes.crc32 payload).toNat_lt
    rw [Bytes.ofLittleEndian_littleEndian, Nat.mod_eq_of_lt this, UInt32.ofNat_toNat]
  have version : ∀ xs, take 1 (format.version :: xs) = .ok ([format.version], xs) := fun _ => rfl
  simp only [decode, encode, List.append_assoc, List.cons_append, bind, Except.bind]
  rw [take_append magic]
  simp only [ne_eq, not_true_eq_false, if_false, pure, Except.pure]
  rw [version]
  simp only [not_true_eq_false, if_false]
  rw [take_append Bytes.length_littleEndian]
  simp only [length, Nat.not_lt.2 size, if_false]
  rw [take_append Bytes.length_littleEndian]
  simp only [checksum]
  rw [take_append rfl]
  simp

end Frame

end TemporalStore
