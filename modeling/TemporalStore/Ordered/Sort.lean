/-!
This module contains the stable sort by a key.
-/

namespace TemporalStore

variable {α κ : Type} [Ord κ]

/--
Puts `x` in front of the first element whose key is not smaller than its own.
-/
def insertByKey (key : α → κ) (x : α) : List α → List α
  | [] => [x]
  | y :: ys => if (compare (key x) (key y)).isLE then x :: y :: ys else y :: insertByKey key x ys

/--
Sorts by a key. Elements with equal keys stay in the order they had.
-/
def sortByKey (key : α → κ) (xs : List α) : List α := xs.foldr (insertByKey key) []

theorem perm_insertByKey (key : α → κ) (x : α) (ys : List α) :
    (insertByKey key x ys).Perm (x :: ys) := by
  induction ys with
  | nil => exact .refl _
  | cons y ys ih =>
    unfold insertByKey
    split
    · exact .refl _
    · exact (ih.cons y).trans (.swap x y ys)

theorem perm_sortByKey (key : α → κ) (xs : List α) : (sortByKey key xs).Perm xs := by
  induction xs with
  | nil => exact .refl _
  | cons x xs ih => exact (perm_insertByKey key x _).trans (ih.cons x)

theorem mem_sortByKey {key : α → κ} {x : α} {xs : List α} : x ∈ sortByKey key xs ↔ x ∈ xs :=
  (perm_sortByKey key xs).mem_iff

theorem pairwise_insertByKey [Std.TransOrd κ] {key : α → κ} {x : α} {ys : List α}
    (h : ys.Pairwise fun a b => (compare (key a) (key b)).isLE) :
    (insertByKey key x ys).Pairwise fun a b => (compare (key a) (key b)).isLE := by
  induction ys with
  | nil => simp [insertByKey]
  | cons y ys ih =>
    unfold insertByKey
    split
    · rename_i hxy
      refine List.pairwise_cons.2 ⟨fun z hz => ?_, h⟩
      rcases List.mem_cons.1 hz with rfl | hz
      · exact hxy
      · exact Std.TransCmp.isLE_trans hxy (List.rel_of_pairwise_cons h hz)
    · rename_i hxy
      refine List.pairwise_cons.2 ⟨fun z hz => ?_, ih h.of_cons⟩
      rcases List.mem_cons.1 ((perm_insertByKey key x ys).mem_iff.1 hz) with rfl | hz
      · have : compare (key z) (key y) = .gt := by simpa using hxy
        rw [Std.OrientedCmp.lt_of_gt this]
        rfl
      · exact List.rel_of_pairwise_cons h hz

theorem pairwise_sortByKey [Std.TransOrd κ] {key : α → κ} {xs : List α} :
    (sortByKey key xs).Pairwise fun a b => (compare (key a) (key b)).isLE := by
  induction xs with
  | nil => exact .nil
  | cons x xs ih => exact pairwise_insertByKey ih

end TemporalStore
