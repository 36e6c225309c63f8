/-!
This module contains bytes written as lower-case hexadecimal text.
-/

namespace TemporalStore.Bytes

/--
The digit of a value below 16; larger values have the digit of their lowest four bits.
-/
def hexDigit (n : Nat) : Char :=
  let d := n % 16
  if d < 10 then Char.ofNat ('0'.toNat + d) else Char.ofNat ('a'.toNat + (d - 10))

/--
The value of a digit, in either case of letters.
-/
def hexValue? (c : Char) : Option Nat :=
  if '0' ≤ c ∧ c ≤ '9' then some (c.toNat - '0'.toNat)
  else if 'a' ≤ c ∧ c ≤ 'f' then some (c.toNat - 'a'.toNat + 10)
  else if 'A' ≤ c ∧ c ≤ 'F' then some (c.toNat - 'A'.toNat + 10)
  else none

def toHex (bs : List UInt8) : String :=
  String.ofList (bs.flatMap fun b => [hexDigit (b.toNat / 16), hexDigit b.toNat])

/--
Reads pairs of digits. Text of odd length, or with anything else in it, is not hexadecimal.
-/
def ofHex? (text : String) : Option (List UInt8) :=
  go [] text.toList
where
  go (read : List UInt8) : List Char → Option (List UInt8)
    | [] => some read.reverse
    | [_] => none
    | h :: l :: cs =>
      match hexValue? h, hexValue? l with
      | some h, some l => go (UInt8.ofNat (16 * h + l) :: read) cs
      | _, _ => none

end TemporalStore.Bytes
