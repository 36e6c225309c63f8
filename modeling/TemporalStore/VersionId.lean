import TemporalStore.Bytes.Endian
import TemporalStore.Bytes.Hex
import TemporalStore.Ordered.Set

/-!
This module contains the identities of stored document versions: their order, their text and the
supply that issues fresh ones.
-/

namespace TemporalStore

/--
The identity of one stored version of a document, unique across all kinds of documents.
-/
structure VersionId where
  bits : BitVec 128
  deriving DecidableEq

namespace VersionId

instance : Inhabited VersionId := ⟨⟨0⟩⟩

/-- Identities are ordered as numbers, which is the order of their bytes and of their text. -/
instance : Ord VersionId := ⟨compareOn bits⟩

instance : Std.TransOrd VersionId := inferInstanceAs (Std.TransCmp (compareOn bits))

instance : Std.LawfulEqOrd VersionId where
  eq_of_compare {a b} h := by
    cases a
    cases b
    exact congrArg VersionId.mk (Std.LawfulEqOrd.eq_of_compare h)

/--
The sixteen bytes, most significant first.
-/
def toBytes (id : VersionId) : List UInt8 := Bytes.bigEndian 16 id.bits.toNat

/--
Only sixteen bytes are an identity.
-/
def ofBytes? (bs : List UInt8) : Option VersionId :=
  if bs.length = 16 then some ⟨BitVec.ofNat 128 (Bytes.ofBigEndian bs)⟩ else none

theorem ofBytes?_toBytes (id : VersionId) : ofBytes? id.toBytes = some id := by
  have : id.bits.toNat < Bytes.capacity 16 := id.bits.isLt
  simp [ofBytes?, toBytes, Bytes.ofBigEndian_bigEndian, Nat.mod_eq_of_lt this]

def groupLengths : List Nat := [8, 4, 4, 4, 12]

/--
Hexadecimal digits in five groups joined by hyphens.
-/
protected def toString (id : VersionId) : String :=
  "-".intercalate (groups groupLengths (Bytes.toHex id.toBytes).toList)
where
  groups : List Nat → List Char → List String
    | [], _ => []
    | n :: ns, cs => String.ofList (cs.take n) :: groups ns (cs.drop n)

instance : ToString VersionId := ⟨VersionId.toString⟩

def describe (id : VersionId) : String := s!"InternalId({id})"

def ofString? (text : String) : Option VersionId := do
  let groups := text.toList.splitOn '-'
  guard (groups.map List.length = groupLengths)
  ofBytes? (← Bytes.ofHex? (String.ofList groups.flatten))

/--
The `k`-th identity of the supply: a scrambled count in the upper half, so that identities do not
come in the order in which they were issued, and the plain count in the lower half, so that no
two are equal. Six bits are fixed to mark the identity as a generated one.
-/
def generated (k : Nat) : VersionId :=
  let scrambled := BitVec.ofNat 64 (k * 0x9E3779B97F4A7C15)
  let raw := scrambled ++ BitVec.ofNat 64 k
  ⟨raw &&& 0xFFFFFFFFFFFF4FFFBFFFFFFFFFFFFFFF#128 ||| 0x40008000000000000000#128⟩

end VersionId

/--
The supply of fresh identities, which counts those it has issued.
-/
structure IdSupply where
  issued : Nat := 0
  deriving DecidableEq, Inhabited

namespace IdSupply

def draw (supply : IdSupply) : VersionId × IdSupply :=
  (.generated (supply.issued + 1), ⟨supply.issued + 1⟩)

def drawMany (supply : IdSupply) : Nat → List VersionId × IdSupply
  | 0 => ([], supply)
  | n + 1 =>
    let (id, supply) := supply.draw
    let (ids, supply) := supply.drawMany n
    (id :: ids, supply)

end IdSupply

end TemporalStore
