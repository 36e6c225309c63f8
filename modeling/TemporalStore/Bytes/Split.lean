/-!
This module contains the reader's first step: to cut off as many bytes as are announced, if there
are as many.
-/

namespace TemporalStore.Bytes

/--
The first `n` bytes and the rest, unless there are fewer.
-/
def splitAt? (n : Nat) (bs : List UInt8) : Option (List UInt8 × List UInt8) :=
  let taken := bs.take n
  if taken.length = n then some (taken, bs.drop n) else none

theorem splitAt?_eq_some_iff {n : Nat} {bs xs ys : List UInt8} :
    splitAt? n bs = some (xs, ys) ↔ bs = xs ++ ys ∧ xs.length = n := by
  simp only [splitAt?]
  constructor
  · intro h
    split at h
    · rename_i hn
      simp only [Option.some.injEq, Prod.mk.injEq] at h
      rw [← h.1, ← h.2]
      exact ⟨(List.take_append_drop n bs).symm, hn⟩
    · simp at h
  · rintro ⟨rfl, rfl⟩
    simp

theorem splitAt?_append {xs ys : List UInt8} : splitAt? xs.length (xs ++ ys) = some (xs, ys) :=
  splitAt?_eq_some_iff.2 ⟨rfl, rfl⟩

theorem splitAt?_eq_none_iff {n : Nat} {bs : List UInt8} :
    splitAt? n bs = none ↔ bs.length < n := by
  simp only [splitAt?, List.length_take, ite_eq_right_iff, reduceCtorEq, imp_false]
  omega

end TemporalStore.Bytes
