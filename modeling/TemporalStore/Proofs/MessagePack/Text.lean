import Mathlib.Data.String.Basic
import Mathlib.Tactic.SplitIfs
import TemporalStore.MessagePack.Value

/-!
This module contains the proof that texts are in the same order as the bytes that stand for them.
-/

namespace TemporalStore.MessagePack

theorem textBytes_eq (s : String) : textBytes s = s.toList.flatMap String.utf8EncodeChar := by
  unfold textBytes
  conv =>
    lhs
    rw [← @String.ofList_toList s, String.toUTF8_eq_toByteArray, String.toByteArray_ofList]
  simp [List.utf8Encode]

theorem cons_lt_cons_iff {a b : Nat} {xs ys : List UInt8} (ha : a < 256) (hb : b < 256) :
    UInt8.ofNat a :: xs < UInt8.ofNat b :: ys ↔ a < b ∨ a = b ∧ xs < ys := by
  rw [List.cons_lt_cons_iff, UInt8.lt_iff_toNat_lt, ← UInt8.toNat_inj, UInt8.toNat_ofNat_of_lt' ha,
    UInt8.toNat_ofNat_of_lt' hb]

/--
The bytes of a smaller character are smaller before either of the two ends.
-/
theorem utf8EncodeChar_append_lt {c d : Char} (h : c < d) (xs ys : List UInt8) :
    String.utf8EncodeChar c ++ xs < String.utf8EncodeChar d ++ ys := by
  have less : c.val.toNat < d.val.toNat := h
  have small : d.val.toNat < 0x110000 := by
    have valid := d.valid
    grind
  unfold String.utf8EncodeChar
  generalize c.val.toNat = v at less
  generalize d.val.toNat = w at less small
  -- the first byte grows with the number of bytes, and then the digits to base 64 decide
  simp only
  split_ifs
  all_goals
    simp (disch := omega) only [List.cons_append, List.nil_append, cons_lt_cons_iff,
      Nat.mod_eq_of_lt]
    omega

theorem flatMap_utf8EncodeChar_lt {cs ds : List Char} (h : cs < ds) :
    cs.flatMap String.utf8EncodeChar < ds.flatMap String.utf8EncodeChar := by
  have h : List.Lex (· < ·) cs ds := h
  induction h with
  | @nil d ds =>
    rw [List.flatMap_nil, List.flatMap_cons]
    have nonempty : String.utf8EncodeChar d ≠ [] := by simp
    cases he : String.utf8EncodeChar d with
    | nil => exact absurd he nonempty
    | cons b bs => exact List.Lex.nil
  | @cons c cs ds less ih =>
    rw [List.flatMap_cons, List.flatMap_cons]
    exact List.append_left_lt (ih less)
  | rel less =>
    rw [List.flatMap_cons, List.flatMap_cons]
    exact utf8EncodeChar_append_lt less _ _

/--
Texts are ordered as their bytes are.
-/
theorem textBytes_lt_iff {s t : String} : textBytes s < textBytes t ↔ s < t := by
  have less {s t : String} (h : s < t) : textBytes s < textBytes t := by
    rw [textBytes_eq, textBytes_eq]
    exact flatMap_utf8EncodeChar_lt (String.lt_iff.1 h)
  constructor
  · intro h
    rcases lt_trichotomy s t with before | same | after
    · exact before
    · rw [same] at h
      exact absurd h (List.lt_irrefl _)
    · exact absurd (less after) (List.lt_asymm h)
  · exact less

end TemporalStore.MessagePack
