import TemporalStore.Bytes.Endian

/-!
This module contains the values of MessagePack and their encoding.
-/

namespace TemporalStore.MessagePack

/--
How many bytes an integer without sign takes after the leading byte; `lead` means that it is in the
leading byte.
-/
inductive Width where
  | lead
  | one
  | two
  | four
  | eight
  deriving DecidableEq, Repr, Inhabited

namespace Width

/--
The narrowest width for an integer.
-/
def least (n : Nat) : Width :=
  if n < 0x80 then .lead
  else if n < 0x100 then .one
  else if n < 0x10000 then .two
  else if n < 0x100000000 then .four
  else .eight

end Width

/--
A MessagePack value. Integers that are written without a sign are told apart from those that are
written with one, and keep their width, because readers go by that where an integer stands for a
name.
-/
inductive Value where
  | nil
  | bool (b : Bool)
  | unsigned (n : Nat) (width : Width)
  | signed (i : Int)
  | float32 (bits : UInt32)
  | float64 (bits : UInt64)
  | text (s : String)
  | binary (bytes : List UInt8)
  | array (items : List Value)
  | map (entries : List (Value × Value))
  | extension (tag : UInt8) (bytes : List UInt8)
  deriving Inhabited

namespace Value

def ofNat (n : Nat) : Value := unsigned n (.least n)

def ofInt (i : Int) : Value := if 0 ≤ i then ofNat i.toNat else signed i

def record (fields : List (String × Value)) : Value :=
  map (fields.map fun (name, v) => (text name, v))

end Value

def tagged (tag : UInt8) (width n : Nat) : List UInt8 := tag :: Bytes.bigEndian width n

/--
The leading bytes that announce a length: in the lowest bits of the leading byte itself if the
length is below `limit`, else in the bytes that follow. `byteTag` is missing where lengths have
no form of one byte.
-/
def lengthHead (fixTag : UInt8) (limit : Nat) (byteTag : Option UInt8) (wordTag longTag : UInt8)
    (n : Nat) : List UInt8 :=
  if n < limit then
    [fixTag + UInt8.ofNat n]
  else
    match byteTag with
    | some tag => if n < 0x100 then tagged tag 1 n else wide
    | none => wide
where
  wide := if n < 0x10000 then tagged wordTag 2 n else tagged longTag 4 n

def unsignedBytes (n : Nat) : Width → List UInt8
  | .lead => [UInt8.ofNat n]
  | .one => tagged 0xcc 1 n
  | .two => tagged 0xcd 2 n
  | .four => tagged 0xce 4 n
  | .eight => tagged 0xcf 8 n

/--
A negative integer in two's complement.
-/
def signedBytes (i : Int) : List UInt8 :=
  if -32 ≤ i then [UInt8.ofNat (i + 256).toNat]
  else if -0x80 ≤ i then tagged 0xd0 1 (i + 0x100).toNat
  else if -0x8000 ≤ i then tagged 0xd1 2 (i + 0x10000).toNat
  else if -0x80000000 ≤ i then tagged 0xd2 4 (i + 0x100000000).toNat
  else tagged 0xd3 8 (i + 0x10000000000000000).toNat

def extensionHead (n : Nat) : List UInt8 :=
  match n with
  | 1 => [0xd4]
  | 2 => [0xd5]
  | 4 => [0xd6]
  | 8 => [0xd7]
  | 16 => [0xd8]
  | n => lengthHead 0 0 (some 0xc7) 0xc8 0xc9 n

def textBytes (s : String) : List UInt8 := s.toUTF8.data.toList

mutual

/--
The shortest encoding of a value in which integers without sign take the width that they have.
-/
def encode : Value → List UInt8
  | .nil => [0xc0]
  | .bool false => [0xc2]
  | .bool true => [0xc3]
  | .unsigned n width => unsignedBytes n width
  | .signed i => signedBytes i
  | .float32 bits => tagged 0xca 4 bits.toNat
  | .float64 bits => tagged 0xcb 8 bits.toNat
  | .text s =>
    let bytes := textBytes s
    lengthHead 0xa0 32 (some 0xd9) 0xda 0xdb bytes.length ++ bytes
  | .binary bytes => lengthHead 0 0 (some 0xc4) 0xc5 0xc6 bytes.length ++ bytes
  | .array items => lengthHead 0x90 16 none 0xdc 0xdd items.length ++ encodeItems items
  | .map entries => lengthHead 0x80 16 none 0xde 0xdf entries.length ++ encodeEntries entries
  | .extension tag bytes => extensionHead bytes.length ++ tag :: bytes

def encodeItems : List Value → List UInt8
  | [] => []
  | v :: vs => encode v ++ encodeItems vs

def encodeEntries : List (Value × Value) → List UInt8
  | [] => []
  | (k, v) :: es => encode k ++ (encode v ++ encodeEntries es)

end

end TemporalStore.MessagePack
