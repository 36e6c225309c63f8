import TemporalStore.Proofs.Frame
import TemporalStore.Proofs.MessagePack.RoundTrip
import TemporalStore.Record.File

/-!
This module contains the proof that a record is read back from the bytes of its file, for any record
that is read back from its value and is not too long.
-/

namespace TemporalStore.Record

open MessagePack (Value Plain encode)

theorem ofFileBytes_append {α : Type} {format : FileFormat} {read : Value → Option α} {a : α}
    {v : Value} (name : String) (magic : format.magic.length = 4)
    (fits : (encode v).length ≤ Frame.maxPayload) (plain : Plain MessagePack.maxDepth v)
    (back : read v = some a) (rest : List UInt8) :
    ofFileBytes format read name (fileBytes format v ++ rest) = .ok a := by
  have small : (encode v).length < 0x100000000 := by
    unfold Frame.maxPayload at fits
    omega
  have value := MessagePack.decode_encode plain small []
  rw [List.append_nil] at value
  unfold ofFileBytes fileBytes
  rw [Frame.decode_encode magic fits]
  simp only [bind, Except.bind, value, Option.bind_some, back]
  rfl

/--
What is too long is refused, whatever kind of record is looked for.
-/
theorem ofFileBytes_of_lt {α : Type} {format : FileFormat} {v : Value} (read : Value → Option α)
    (name : String) (magic : format.magic.length = 4)
    (long : Frame.maxPayload < (encode v).length) (size : (encode v).length < 0x10000000000000000) :
    ofFileBytes format read name (fileBytes format v) =
      .error (.corruption s!"Frame in {name} claims {(encode v).length} bytes") := by
  have refused := @Frame.decode_encode_of_lt format _ [] name magic long size
  rw [List.append_nil] at refused
  unfold ofFileBytes fileBytes
  rw [refused]
  rfl

theorem ofFileBytes_ne_corruption {α : Type} {format : FileFormat} {v : Value}
    (read : Value → Option α) (name : String) (magic : format.magic.length = 4)
    (fits : (encode v).length ≤ Frame.maxPayload) (reason : String) :
    ofFileBytes format read name (fileBytes format v) ≠ .error (.corruption reason) := by
  have accepted := @Frame.decode_encode format name _ [] magic fits
  rw [List.append_nil] at accepted
  unfold ofFileBytes fileBytes
  rw [accepted]
  simp only [bind, Except.bind]
  split
  · exact nofun
  · exact nofun

end TemporalStore.Record
