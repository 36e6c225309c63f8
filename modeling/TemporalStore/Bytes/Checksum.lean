/-!
This module contains the 32 bit cyclic redundancy check in its reflected form, with the
generator polynomial `0x04C11DB7`.
-/

namespace TemporalStore.Bytes

namespace Checksum

/--
The generator polynomial, lowest power in the highest bit.
-/
def polynomial : UInt32 := 0xEDB88320

def stepBit (c : UInt32) : UInt32 :=
  if c &&& 1 = 1 then (c >>> 1) ^^^ polynomial else c >>> 1

def stepBits : (count : Nat) → UInt32 → UInt32
  | 0, c => c
  | count + 1, c => stepBits count (stepBit c)

def stepByte (c : UInt32) (b : UInt8) : UInt32 := stepBits 8 (c ^^^ b.toUInt32)

end Checksum

def crc32 (bs : List UInt8) : UInt32 := bs.foldl Checksum.stepByte 0xFFFFFFFF ^^^ 0xFFFFFFFF

end TemporalStore.Bytes
