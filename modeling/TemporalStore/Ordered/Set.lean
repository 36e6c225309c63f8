/-!
This module contains finite sets as strictly increasing lists. The order is part of the type, so
two sets with the same members are equal, and listing a set always gives the same answer.
-/

namespace TemporalStore

/--
A finite set, kept as the strictly increasing list of its members.
-/
structure OrderedSet (α : Type) [Ord α] where
  /-- The members, smallest first. -/
  toList : List α
  sorted : toList.Pairwise fun a b => compare a b = .lt
  deriving DecidableEq

namespace OrderedSet

variable {α : Type} [Ord α]

protected def empty : OrderedSet α := ⟨[], .nil⟩

instance : EmptyCollection (OrderedSet α) := ⟨OrderedSet.empty⟩

instance : Inhabited (OrderedSet α) := ⟨∅⟩

instance : Membership α (OrderedSet α) := ⟨fun s x => x ∈ s.toList⟩

theorem mem_def {x : α} {s : OrderedSet α} : x ∈ s ↔ x ∈ s.toList := Iff.rfl

instance [DecidableEq α] {x : α} {s : OrderedSet α} : Decidable (x ∈ s) :=
  inferInstanceAs (Decidable (x ∈ s.toList))

def size (s : OrderedSet α) : Nat := s.toList.length

/--
Puts `x` in front of the first element that is greater, unless it is there already.
-/
def insertSorted (x : α) : List α → List α
  | [] => [x]
  | y :: ys =>
    match compare x y with
    | .lt => x :: y :: ys
    | .eq => y :: ys
    | .gt => y :: insertSorted x ys

theorem mem_insertSorted [Std.LawfulEqOrd α] {x z : α} {ys : List α} :
    z ∈ insertSorted x ys ↔ z = x ∨ z ∈ ys := by
  induction ys with
  | nil => simp [insertSorted]
  | cons y ys ih =>
    unfold insertSorted
    split
    · simp
    · rename_i h
      have : x = y := Std.LawfulEqOrd.eq_of_compare h
      grind
    · grind

theorem eq_or_mem_of_mem_insertSorted {x z : α} {ys : List α} (h : z ∈ insertSorted x ys) :
    z = x ∨ z ∈ ys := by
  induction ys with
  | nil => simpa [insertSorted] using h
  | cons y ys ih =>
    unfold insertSorted at h
    split at h <;> grind

theorem sorted_insertSorted [Std.TransOrd α] {x : α} {ys : List α}
    (h : ys.Pairwise fun a b => compare a b = .lt) :
    (insertSorted x ys).Pairwise fun a b => compare a b = .lt := by
  induction ys with
  | nil => simp [insertSorted]
  | cons y ys ih =>
    unfold insertSorted
    split
    · rename_i hxy
      refine List.pairwise_cons.2 ⟨fun z hz => ?_, h⟩
      rcases List.mem_cons.1 hz with rfl | hz
      · exact hxy
      · exact Std.TransCmp.lt_trans hxy (List.rel_of_pairwise_cons h hz)
    · exact h
    · rename_i hxy
      have hyx : compare y x = .lt := Std.OrientedCmp.lt_of_gt hxy
      refine List.pairwise_cons.2 ⟨fun z hz => ?_, ih (List.Pairwise.of_cons h)⟩
      rcases eq_or_mem_of_mem_insertSorted hz with rfl | hz
      · exact hyx
      · exact List.rel_of_pairwise_cons h hz

variable [Std.TransOrd α]

protected def insert (x : α) (s : OrderedSet α) : OrderedSet α :=
  ⟨insertSorted x s.toList, sorted_insertSorted s.sorted⟩

instance : Insert α (OrderedSet α) := ⟨OrderedSet.insert⟩

def insertMany (s : OrderedSet α) (xs : List α) : OrderedSet α :=
  xs.foldl (fun s x => s.insert x) s

def ofList (xs : List α) : OrderedSet α := insertMany ∅ xs

protected def union (s t : OrderedSet α) : OrderedSet α := s.insertMany t.toList

instance : Union (OrderedSet α) := ⟨OrderedSet.union⟩

omit [Std.TransOrd α] in
@[simp] theorem not_mem_empty {x : α} : x ∉ (∅ : OrderedSet α) := List.not_mem_nil

@[simp] theorem mem_insert [Std.LawfulEqOrd α] {x z : α} {s : OrderedSet α} :
    z ∈ insert x s ↔ z = x ∨ z ∈ s :=
  mem_insertSorted

@[simp] theorem mem_insertMany [Std.LawfulEqOrd α] {z : α} {s : OrderedSet α} {xs : List α} :
    z ∈ s.insertMany xs ↔ z ∈ s ∨ z ∈ xs := by
  induction xs generalizing s with
  | nil => simp [insertMany]
  | cons x xs ih =>
    have : s.insertMany (x :: xs) = (insert x s : OrderedSet α).insertMany xs := rfl
    rw [this, ih]
    grind [mem_insert]

@[simp] theorem mem_ofList [Std.LawfulEqOrd α] {z : α} {xs : List α} :
    z ∈ ofList xs ↔ z ∈ xs := by
  simp [ofList]

@[simp] theorem mem_union [Std.LawfulEqOrd α] {z : α} {s t : OrderedSet α} :
    z ∈ s ∪ t ↔ z ∈ s ∨ z ∈ t :=
  mem_insertMany

/--
Two strictly increasing lists with the same members are equal, hence so are two sets.
-/
theorem ext {s t : OrderedSet α} (h : ∀ x, x ∈ s ↔ x ∈ t) : s = t := by
  obtain ⟨xs, hx⟩ := s
  obtain ⟨ys, hy⟩ := t
  simp only [mem_def] at h
  have irrefl : ∀ a : α, compare a a ≠ .lt := fun a ha => by
    simp [Std.ReflCmp.compare_self] at ha
  have : xs = ys := by
    induction xs generalizing ys with
    | nil =>
      cases ys with
      | nil => rfl
      | cons y ys => exact absurd ((h y).2 (by simp)) (by simp)
    | cons x xs ih =>
      cases ys with
      | nil => exact absurd ((h x).1 (by simp)) (by simp)
      | cons y ys =>
        -- each head is a member of the other list, where it can only come first
        have hxy : x = y := by
          rcases List.mem_cons.1 ((h x).1 (by simp)) with rfl | hxy
          · rfl
          rcases List.mem_cons.1 ((h y).2 (by simp)) with rfl | hyx
          · rfl
          exact absurd (Std.TransCmp.lt_trans (List.rel_of_pairwise_cons hx hyx)
            (List.rel_of_pairwise_cons hy hxy)) (irrefl x)
        subst hxy
        congr 1
        refine ih hx.of_cons ys hy.of_cons fun z => ?_
        have hz := h z
        simp only [List.mem_cons] at hz
        constructor
        · intro hm
          rcases hz.1 (.inr hm) with rfl | hm'
          · exact absurd (List.rel_of_pairwise_cons hx hm) (irrefl _)
          · exact hm'
        · intro hm
          rcases hz.2 (.inr hm) with rfl | hm'
          · exact absurd (List.rel_of_pairwise_cons hy hm) (irrefl _)
          · exact hm'
  subst this
  rfl

end OrderedSet

end TemporalStore
