import TemporalStore.Frame
import TemporalStore.MessagePack.Decode

/-!
This module contains the contents of the store's files: one value in a frame.
-/

namespace TemporalStore.Record

open MessagePack (Value)

def fileBytes (format : FileFormat) (v : Value) : List UInt8 :=
  Frame.encode format (MessagePack.encode v)

/--
The record in a file, where bytes that follow it in the payload do not matter.
-/
def ofFileBytes {α : Type} (format : FileFormat) (read : Value → Option α) (name : String)
    (file : List UInt8) : Except StoreError α := do
  let payload ← Frame.decode format name file
  match (MessagePack.decode MessagePack.maxDepth payload).bind fun (v, _) => read v with
  | some a => return a
  | none => throw (.deserialization s!"the payload of {name} is not a record of this kind")

end TemporalStore.Record
