import TemporalStore.MessagePack.Decode
import TemporalStore.Ordered.Map
import TemporalStore.VersionId

/-!
This module contains the pieces of which stored records are made, each with the value that is
written for it and the reader that takes such values back.
-/

namespace TemporalStore.Record

open MessagePack (Value Width)

def optionValue {α : Type} (write : α → Value) : Option α → Value
  | none => .nil
  | some a => write a

def idValue (id : VersionId) : Value := .binary id.toBytes

def idsValue (ids : OrderedSet VersionId) : Value := .array (ids.toList.map idValue)

def mapValue {α : Type} (write : α → Value) (m : OrderedMap String α) : Value :=
  .record (m.entries.map fun (k, a) => (k, write a))

def bytesAsText? (bytes : List UInt8) : Option String := String.fromUTF8? ⟨bytes.toArray⟩

/--
Text may also come as plain bytes.
-/
def text? : Value → Option String
  | .text s => some s
  | .binary bytes => bytesAsText? bytes
  | _ => none

def bool? : Value → Option Bool
  | .bool b => some b
  | _ => none

/--
An integer of 64 bits with sign.
-/
def int? : Value → Option Int
  | .unsigned n _ => if n < 0x8000000000000000 then some n else none
  | .signed i => some i
  | _ => none

/--
An integer of 64 bits without sign.
-/
def nat? : Value → Option Nat
  | .unsigned n _ => some n
  | .signed i => if 0 ≤ i then some i.toNat else none
  | _ => none

def id? : Value → Option VersionId
  | .binary bytes => VersionId.ofBytes? bytes
  | _ => none

def option? {α : Type} (read : Value → Option α) : Value → Option (Option α)
  | .nil => some none
  | v => (read v).map some

/--
A list without items may also come as no bytes.
-/
def list? {α : Type} (read : Value → Option α) : Value → Option (List α)
  | .array items => items.mapM read
  | .binary [] => some []
  | _ => none

/--
A list in any order and with any repetitions.
-/
def ids? (v : Value) : Option (OrderedSet VersionId) := (list? id? v).map OrderedSet.ofList

/--
Of two entries with the same key the later one counts.
-/
def map? {α : Type} (read : Value → Option α) : Value → Option (OrderedMap String α)
  | .map entries => (entries.mapM entry).map OrderedMap.ofList
  | _ => none
where
  entry (e : Value × Value) : Option (String × α) := do
    return (← text? e.1, ← read e.2)

/--
The widths of integers that count as places of names. All do where a record is read in one pass.
-/
def everyWidth : Width → Bool := fun _ => true

/--
Of a record that is set aside until its kind is known, these widths do.
-/
def keptWidth : Width → Bool
  | .two | .four => false
  | _ => true

/--
Which of the names a value stands for: by its text, by the bytes of its text, or by its place
among them. `some none` stands for another name; what cannot stand for a name is refused.
-/
def nameIndex? (counts : Width → Bool) (names : List String) : Value → Option (Option Nat)
  | .text s => some (names.idxOf? s)
  | .binary bytes => some ((bytesAsText? bytes).bind names.idxOf?)
  | .unsigned n width =>
    if counts width then some (if n < names.length then some n else none) else none
  | _ => none

/--
The values of the named fields, in the order of the names. A record is written as a map with the
names for keys, in any order, where further keys are skipped and no name may come twice, or as
an array of exactly the fields.
-/
def fields? (counts : Width → Bool) (names : List String) : Value → Option (List (Option Value))
  | .map entries => fromEntries entries (names.map fun _ => none)
  | .array items => if items.length = names.length then some (items.map some) else none
  | _ => none
where
  fromEntries : List (Value × Value) → List (Option Value) → Option (List (Option Value))
    | [], found => some found
    | (k, v) :: es, found => do
      match ← nameIndex? counts names k with
      | none => fromEntries es found
      | some i =>
        -- the name has come before
        guard ((found[i]?.getD none).isNone)
        fromEntries es (found.set i (some v))

def required {α : Type} (read : Value → Option α) (field : Option Value) : Option α :=
  field.bind read

def optional {α : Type} (read : Value → Option α) : Option Value → Option (Option α)
  | none => some none
  | some v => option? read v

end TemporalStore.Record
