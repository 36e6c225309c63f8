import TemporalStore.Bytes.Checksum

/-!
This module contains the proof that the checksum tells two byte strings apart that differ in a
single byte.
-/

namespace TemporalStore.Bytes

namespace Checksum

variable {c : UInt32}

theorem and_one_eq_one_iff : c &&& 1 = 1 ↔ c.toNat % 2 = 1 := by
  rw [← UInt32.toNat_inj, UInt32.toNat_and]
  change c.toNat &&& 1 = 1 ↔ _
  rw [Nat.and_one_is_mod]

theorem toNat_shiftRight_one : (c >>> 1).toNat = c.toNat / 2 := by
  rw [UInt32.toNat_shiftRight]
  apply Nat.shiftRight_succ

/--
The highest bit after a step is the bit that was shifted out.
-/
theorem testBit_stepBit : (stepBit c).toNat.testBit 31 = true ↔ c.toNat % 2 = 1 := by
  have shifted : (c >>> 1).toNat.testBit 31 = false := by
    apply Nat.testBit_lt_two_pow
    rw [toNat_shiftRight_one]
    have := c.toNat_lt
    omega
  unfold stepBit
  split
  · rename_i odd
    rw [UInt32.toNat_xor, Nat.testBit_xor, shifted]
    simp only [and_one_eq_one_iff.1 odd, iff_true]
    decide
  · rename_i even
    simp only [shifted, Bool.false_eq_true, false_iff]
    rwa [← and_one_eq_one_iff]

theorem stepBit_injective : Function.Injective stepBit := by
  intro c d same
  have parity : c.toNat % 2 = 1 ↔ d.toNat % 2 = 1 := by
    rw [← testBit_stepBit, ← testBit_stepBit, same]
  have halves : c.toNat / 2 = d.toNat / 2 := by
    rw [← toNat_shiftRight_one, ← toNat_shiftRight_one]
    unfold stepBit at same
    simp only [and_one_eq_one_iff, parity] at same
    split at same
    · rw [(UInt32.xor_left_inj _).1 same]
    · rw [same]
  rw [← UInt32.toNat_inj]
  omega

theorem stepBits_injective (count : Nat) : Function.Injective (stepBits count) := by
  induction count with
  | zero => exact Function.injective_id
  | succ count ih => exact ih.comp stepBit_injective

theorem stepByte_left_injective (b : UInt8) : Function.Injective (stepByte · b) := by
  intro c d same
  exact (UInt32.xor_left_inj _).1 (stepBits_injective 8 same)

theorem stepByte_right_injective (c : UInt32) : Function.Injective (stepByte c) := by
  intro a b same
  have wide := (UInt32.xor_right_inj _).1 (stepBits_injective 8 same)
  rw [← UInt32.toNat_inj, UInt8.toNat_toUInt32, UInt8.toNat_toUInt32] at wide
  exact UInt8.toNat_inj.1 wide

theorem foldl_stepByte_injective (bs : List UInt8) :
    Function.Injective fun c => bs.foldl stepByte c := by
  induction bs with
  | nil => exact Function.injective_id
  | cons b bs ih => exact ih.comp (stepByte_left_injective b)

end Checksum

open Checksum

/--
Another byte in one place gives another checksum.
-/
theorem crc32_set_ne {bs : List UInt8} {i : Nat} {b : UInt8} (h : i < bs.length)
    (other : b ≠ bs[i]) : crc32 (bs.set i b) ≠ crc32 bs := by
  intro same
  have split : bs = bs.take i ++ bs[i] :: bs.drop (i + 1) := by simp
  have changed : bs.set i b = bs.take i ++ b :: bs.drop (i + 1) := by
    rw [List.set_eq_take_append_cons_drop, if_pos h]
  have states := congrArg (·.foldl stepByte 0xFFFFFFFF) split
  unfold crc32 at same
  rw [UInt32.xor_left_inj, changed, List.foldl_append] at same
  rw [List.foldl_append, ← same] at states
  exact other (stepByte_right_injective _ (foldl_stepByte_injective _ states))

end TemporalStore.Bytes
