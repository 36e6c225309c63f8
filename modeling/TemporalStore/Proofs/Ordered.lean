import Mathlib.Data.List.Sort
import TemporalStore.Ordered.Map
import TemporalStore.Ordered.Set
import TemporalStore.Ordered.Sort

/-!
This module contains further laws of ordered maps, ordered sets and sorting: a map is determined
by what it finds, what is in order already is left alone, and what is not wanted may be left out
before the sorting or after it.
-/

namespace TemporalStore

namespace OrderedMap

variable {κ ν : Type} [Ord κ] [Std.TransOrd κ] [Std.LawfulEqOrd κ]

omit [Std.LawfulEqOrd κ] in
theorem compare_self_ne_lt (k : κ) : compare k k ≠ .lt := by
  simp [Std.ReflCmp.compare_self]

theorem go_eq_some_iff {es : List (κ × ν)} {k : κ} {v : ν}
    (h : es.Pairwise fun a b => compare a.1 b.1 = .lt) :
    get?.go k es = some v ↔ (k, v) ∈ es := by
  induction es with
  | nil => simp [get?.go]
  | cons e es ih =>
    have hk : compare k e.1 = .eq ↔ k = e.1 := Std.LawfulEqCmp.compare_eq_iff_eq
    unfold get?.go
    split
    · rename_i he
      have he : k = e.1 := hk.1 he
      have fresh : (k, v) ∉ es := by
        intro hm
        have := List.rel_of_pairwise_cons h hm
        rw [he] at this
        exact compare_self_ne_lt _ this
      grind
    · rename_i he
      rw [ih h.of_cons]
      grind

theorem get?_eq_some_iff {m : OrderedMap κ ν} {k : κ} {v : ν} :
    m.get? k = some v ↔ (k, v) ∈ m.entries :=
  go_eq_some_iff m.sorted

theorem ext {m n : OrderedMap κ ν} (h : ∀ k, m.get? k = n.get? k) : m = n := by
  have irrefl : Std.Irrefl fun a b : κ × ν => compare a.1 b.1 = .lt :=
    ⟨fun a => compare_self_ne_lt a.1⟩
  have antisymm : Std.Antisymm fun a b : κ × ν => compare a.1 b.1 = .lt :=
    ⟨fun a b hab hba => absurd (Std.TransCmp.lt_trans hab hba) (compare_self_ne_lt a.1)⟩
  have same : m.entries = n.entries := by
    apply m.sorted.eq_of_mem_iff n.sorted
    intro e
    rw [← get?_eq_some_iff, ← get?_eq_some_iff, h]
  obtain ⟨es, hs⟩ := m
  obtain ⟨fs, ht⟩ := n
  simp only at same
  subst same
  rfl

theorem insert_insert {m : OrderedMap κ ν} {k : κ} {v w : ν} :
    (m.insert k v).insert k w = m.insert k w := by
  apply ext
  intro j
  simp only [get?_insert]
  split <;> rfl

theorem insert_of_get?_eq_some {m : OrderedMap κ ν} {k : κ} {v : ν} (h : m.get? k = some v) :
    m.insert k v = m := by
  apply ext
  intro j
  rw [get?_insert]
  split
  · rename_i hj
    have hj : j = k := Std.LawfulEqOrd.eq_of_compare hj
    rw [hj, h]
  · rfl

theorem erase_of_get?_eq_none {m : OrderedMap κ ν} {k : κ} (h : m.get? k = none) :
    m.erase k = m := by
  apply ext
  intro j
  rw [get?_erase]
  split
  · rename_i hj
    have hj : j = k := Std.LawfulEqOrd.eq_of_compare hj
    rw [hj, h]
  · rfl

theorem get?_insert_eq_some_iff {m : OrderedMap κ ν} {k j : κ} {v w : ν} :
    (m.insert k v).get? j = some w ↔ (j = k ∧ v = w) ∨ (j ≠ k ∧ m.get? j = some w) := by
  by_cases h : j = k
  · simp [h]
  · simp [h, get?_insert_of_ne h]

omit [Std.TransOrd κ] in
theorem get?_erase_eq_some_iff {m : OrderedMap κ ν} {k j : κ} {v : ν} :
    (m.erase k).get? j = some v ↔ j ≠ k ∧ m.get? j = some v := by
  have hj : compare j k = .eq ↔ j = k := Std.LawfulEqCmp.compare_eq_iff_eq
  rw [get?_erase]
  by_cases h : j = k
  · simp [h]
  · have other : ¬ compare j k = .eq := fun he => h (hj.1 he)
    simp [h, other]

omit [Std.TransOrd κ] in
theorem get?_erase_of_ne {m : OrderedMap κ ν} {k j : κ} (h : j ≠ k) :
    (m.erase k).get? j = m.get? j := by
  apply Option.ext
  intro v
  rw [get?_erase_eq_some_iff, and_iff_right h]

theorem mem_values_iff {m : OrderedMap κ ν} {v : ν} : v ∈ m.values ↔ ∃ k, m.get? k = some v := by
  simp only [values, List.mem_map, get?_eq_some_iff, Prod.exists, exists_eq_right]

end OrderedMap

namespace OrderedSet

theorem union_assoc {α : Type} [Ord α] [Std.TransOrd α] [Std.LawfulEqOrd α]
    (s t u : OrderedSet α) : (s ∪ t) ∪ u = s ∪ (t ∪ u) := by
  apply ext
  intro x
  simp only [mem_union, or_assoc]

end OrderedSet

/-! ## Sorting -/

theorem sortByKey_of_pairwise {α κ : Type} [Ord κ] {key : α → κ} {xs : List α}
    (h : xs.Pairwise fun a b => (compare (key a) (key b)).isLE) : sortByKey key xs = xs := by
  induction xs with
  | nil => rfl
  | cons x xs ih =>
    have tail : sortByKey key xs = xs := ih h.of_cons
    unfold sortByKey at tail ⊢
    rw [List.foldr_cons, tail]
    cases xs with
    | nil => rfl
    | cons y ys =>
      have hxy := List.rel_of_pairwise_cons h List.mem_cons_self
      simp [insertByKey, hxy]

section

variable {α κ : Type} [Ord κ] {key : α → κ} {x y : α} {ys : List α}

theorem insertByKey_cons : insertByKey key x (y :: ys) =
    if (compare (key x) (key y)).isLE then x :: y :: ys else y :: insertByKey key x ys := rfl

theorem insertByKey_of_le (h : ∀ y ∈ ys, (compare (key x) (key y)).isLE) :
    insertByKey key x ys = x :: ys := by
  cases ys with
  | nil => rfl
  | cons y ys => rw [insertByKey_cons, if_pos (h y List.mem_cons_self)]

theorem filter_insertByKey [Std.TransOrd κ] {p : α → Bool}
    (h : ys.Pairwise fun a b => (compare (key a) (key b)).isLE) :
    (insertByKey key x ys).filter p =
      if p x then insertByKey key x (ys.filter p) else ys.filter p := by
  induction ys with
  | nil => cases hx : p x <;> simp [insertByKey, hx]
  | cons y ys ih =>
    rw [insertByKey_cons]
    split
    · rename_i first
      have least : ∀ z ∈ (y :: ys).filter p, (compare (key x) (key z)).isLE := by
        intro z hz
        rcases List.mem_cons.1 (List.mem_of_mem_filter hz) with rfl | hz
        · exact first
        · exact Std.TransCmp.isLE_trans first (List.rel_of_pairwise_cons h hz)
      rw [List.filter_cons, insertByKey_of_le least]
    · rename_i later
      rw [List.filter_cons, List.filter_cons, ih h.of_cons]
      cases p y with
      | true => cases p x <;> simp [insertByKey_cons, later]
      | false => rfl

theorem sortByKey_filter [Std.TransOrd κ] (key : α → κ) (p : α → Bool) (xs : List α) :
    sortByKey key (xs.filter p) = (sortByKey key xs).filter p := by
  induction xs with
  | nil => rfl
  | cons x xs ih =>
    have sorted : (sortByKey key xs).Pairwise fun a b => (compare (key a) (key b)).isLE :=
      pairwise_sortByKey
    change _ = (insertByKey key x (sortByKey key xs)).filter p
    rw [filter_insertByKey sorted, ← ih, List.filter_cons]
    split
    · rfl
    · rfl

end

end TemporalStore
