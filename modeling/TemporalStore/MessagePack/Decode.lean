import TemporalStore.Bytes.Split
import TemporalStore.MessagePack.Value

/-!
This module contains the reader of MessagePack values. It takes every form of a value, not only
the shortest, and leaves what follows the value.
-/

namespace TemporalStore.MessagePack

def takeNat (width : Nat) (bs : List UInt8) : Option (Nat × List UInt8) := do
  let (taken, bs) ← Bytes.splitAt? width bs
  return (Bytes.ofBigEndian taken, bs)

/--
What the leading bytes of a value announce: a value that is complete with them, or the length of
what follows.
-/
inductive Head where
  | whole (v : Value)
  | text (length : Nat)
  | binary (length : Nat)
  | array (length : Nat)
  | map (length : Nat)
  | extension (length : Nat)
  deriving Inhabited

def takeSigned (width : Nat) (bs : List UInt8) : Option (Head × List UInt8) := do
  let (n, bs) ← takeNat width bs
  return (.whole (.signed (Int.bmod n (Bytes.capacity width))), bs)

def takeHead (width : Nat) (f : Nat → Head) (bs : List UInt8) : Option (Head × List UInt8) := do
  let (n, bs) ← takeNat width bs
  return (f n, bs)

/--
Reads the leading bytes. One leading byte, `0xc1`, means nothing.
-/
def Head.read : List UInt8 → Option (Head × List UInt8)
  | [] => none
  | b :: bs =>
    let n := b.toNat
    if n < 0x80 then some (.whole (.unsigned n .lead), bs)
    else if n < 0x90 then some (.map (n - 0x80), bs)
    else if n < 0xa0 then some (.array (n - 0x90), bs)
    else if n < 0xc0 then some (.text (n - 0xa0), bs)
    else if 0xe0 ≤ n then some (.whole (.signed (n - 256)), bs)
    else match n with
      | 0xc0 => some (.whole .nil, bs)
      | 0xc2 => some (.whole (.bool false), bs)
      | 0xc3 => some (.whole (.bool true), bs)
      | 0xc4 => takeHead 1 .binary bs
      | 0xc5 => takeHead 2 .binary bs
      | 0xc6 => takeHead 4 .binary bs
      | 0xc7 => takeHead 1 .extension bs
      | 0xc8 => takeHead 2 .extension bs
      | 0xc9 => takeHead 4 .extension bs
      | 0xca => takeHead 4 (fun n => .whole (.float32 (UInt32.ofNat n))) bs
      | 0xcb => takeHead 8 (fun n => .whole (.float64 (UInt64.ofNat n))) bs
      | 0xcc => takeHead 1 (fun n => .whole (.unsigned n .one)) bs
      | 0xcd => takeHead 2 (fun n => .whole (.unsigned n .two)) bs
      | 0xce => takeHead 4 (fun n => .whole (.unsigned n .four)) bs
      | 0xcf => takeHead 8 (fun n => .whole (.unsigned n .eight)) bs
      | 0xd0 => takeSigned 1 bs
      | 0xd1 => takeSigned 2 bs
      | 0xd2 => takeSigned 4 bs
      | 0xd3 => takeSigned 8 bs
      | 0xd4 => some (.extension 1, bs)
      | 0xd5 => some (.extension 2, bs)
      | 0xd6 => some (.extension 4, bs)
      | 0xd7 => some (.extension 8, bs)
      | 0xd8 => some (.extension 16, bs)
      | 0xd9 => takeHead 1 .text bs
      | 0xda => takeHead 2 .text bs
      | 0xdb => takeHead 4 .text bs
      | 0xdc => takeHead 2 .array bs
      | 0xdd => takeHead 4 .array bs
      | 0xde => takeHead 2 .map bs
      | 0xdf => takeHead 4 .map bs
      | _ => none

/--
Text, or plain bytes where the bytes are not those of any text.
-/
def textOrBinary (bytes : List UInt8) : Value :=
  match String.fromUTF8? ⟨bytes.toArray⟩ with
  | some s => .text s
  | none => .binary bytes

theorem textOrBinary_textBytes (s : String) : textOrBinary (textBytes s) = .text s := by
  have h : (⟨(textBytes s).toArray⟩ : ByteArray) = s.toUTF8 := by simp [textBytes]
  have : String.fromUTF8? s.toUTF8 = some s := by
    simpa [String.fromUTF8?, String.fromUTF8] using s.isValidUTF8
  rw [textOrBinary, h, this]

def readMany {α : Type} (read : List UInt8 → Option (α × List UInt8)) :
    Nat → List UInt8 → Option (List α × List UInt8)
  | 0, bs => some ([], bs)
  | n + 1, bs => do
    let (x, bs) ← read bs
    let (xs, bs) ← readMany read n bs
    return (x :: xs, bs)

def readPair {α : Type} (read : List UInt8 → Option (α × List UInt8)) (bs : List UInt8) :
    Option ((α × α) × List UInt8) := do
  let (k, bs) ← read bs
  let (v, bs) ← read bs
  return ((k, v), bs)

/--
Reads what follows the leading bytes of a value, where `inner?` reads the values inside it;
without such a reader it may not be an array, a map or an extension.
-/
def readBody (inner? : Option (List UInt8 → Option (Value × List UInt8))) :
    Head → List UInt8 → Option (Value × List UInt8)
  | .whole v, bs => some (v, bs)
  | .text n, bs => do
    let (bytes, bs) ← Bytes.splitAt? n bs
    return (textOrBinary bytes, bs)
  | .binary n, bs => do
    let (bytes, bs) ← Bytes.splitAt? n bs
    return (.binary bytes, bs)
  | .array n, bs => do
    let (items, bs) ← readMany (← inner?) n bs
    return (.array items, bs)
  | .map n, bs => do
    let (entries, bs) ← readMany (readPair (← inner?)) n bs
    return (.map entries, bs)
  | .extension n, bs => do
    guard inner?.isSome
    let (tag, bs) ← takeNat 1 bs
    let (bytes, bs) ← Bytes.splitAt? n bs
    return (.extension (UInt8.ofNat tag) bytes, bs)

/--
Reads one value in which at most `depth` arrays, maps and extensions stand inside one another.
-/
def decode : (depth : Nat) → List UInt8 → Option (Value × List UInt8)
  | 0, bs => do
    let (head, bs) ← Head.read bs
    readBody none head bs
  | depth + 1, bs => do
    let (head, bs) ← Head.read bs
    readBody (some (decode depth)) head bs

/--
How many arrays, maps and extensions may stand inside one another.
-/
def maxDepth : Nat := 1023

end TemporalStore.MessagePack
