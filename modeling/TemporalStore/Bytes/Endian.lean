/-!
This module contains numbers written as a fixed count of bytes, least or most significant first.
-/

namespace TemporalStore.Bytes

/--
The `width` lowest bytes of `n`, least significant first.
-/
def littleEndian : (width n : Nat) → List UInt8
  | 0, _ => []
  | width + 1, n => UInt8.ofNat n :: littleEndian width (n / 256)

def ofLittleEndian : List UInt8 → Nat
  | [] => 0
  | b :: bs => b.toNat + 256 * ofLittleEndian bs

/--
How many numbers have `width` bytes.
-/
def capacity : (width : Nat) → Nat
  | 0 => 1
  | width + 1 => 256 * capacity width

def bigEndian (width n : Nat) : List UInt8 := (littleEndian width n).reverse

def ofBigEndian (bs : List UInt8) : Nat := ofLittleEndian bs.reverse

@[simp] theorem length_littleEndian {width n : Nat} : (littleEndian width n).length = width := by
  induction width generalizing n with
  | zero => rfl
  | succ width ih => simp [littleEndian, ih]

@[simp] theorem length_bigEndian {width n : Nat} : (bigEndian width n).length = width := by
  simp [bigEndian]

theorem ofLittleEndian_littleEndian {width n : Nat} :
    ofLittleEndian (littleEndian width n) = n % capacity width := by
  induction width generalizing n with
  | zero => simp [littleEndian, ofLittleEndian, capacity, Nat.mod_one]
  | succ width ih =>
    rw [littleEndian, ofLittleEndian, ih, capacity, Nat.mod_mul]
    simp

theorem ofBigEndian_bigEndian {width n : Nat} :
    ofBigEndian (bigEndian width n) = n % capacity width := by
  simp [ofBigEndian, bigEndian, ofLittleEndian_littleEndian]

theorem ofLittleEndian_lt (bs : List UInt8) : ofLittleEndian bs < capacity bs.length := by
  induction bs with
  | nil => simp [ofLittleEndian, capacity]
  | cons b bs ih =>
    have := b.toNat_lt
    simp only [ofLittleEndian, List.length_cons, capacity]
    omega

theorem ofBigEndian_lt (bs : List UInt8) : ofBigEndian bs < capacity bs.length := by
  simpa [ofBigEndian] using ofLittleEndian_lt bs.reverse

theorem ofLittleEndian_inj {xs ys : List UInt8} (width : xs.length = ys.length) :
    ofLittleEndian xs = ofLittleEndian ys ↔ xs = ys := by
  induction xs generalizing ys with
  | nil =>
    rw [List.length_nil, eq_comm, List.length_eq_zero_iff] at width
    simp [width]
  | cons x xs ih =>
    cases ys with
    | nil => simp at width
    | cons y ys =>
      have := x.toNat_lt
      have := y.toNat_lt
      simp only [ofLittleEndian, List.cons.injEq, ← UInt8.toNat_inj,
        ← ih (Nat.succ_inj.1 width)]
      omega

end TemporalStore.Bytes
