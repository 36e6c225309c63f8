/-!
This module contains finite maps as lists of entries with strictly increasing keys. As with the
sets, the order is part of the type: equal contents mean equal maps, and entries are always
listed in the order of their keys.
-/

namespace TemporalStore

/--
A finite map, kept as the list of its entries in the order of their keys.
-/
structure OrderedMap (κ ν : Type) [Ord κ] where
  /-- The entries, smallest key first. -/
  entries : List (κ × ν)
  sorted : entries.Pairwise fun a b => compare a.1 b.1 = .lt
  deriving DecidableEq

namespace OrderedMap

variable {κ ν : Type} [Ord κ]

protected def empty : OrderedMap κ ν := ⟨[], .nil⟩

instance : EmptyCollection (OrderedMap κ ν) := ⟨OrderedMap.empty⟩

instance : Inhabited (OrderedMap κ ν) := ⟨∅⟩

def get? (m : OrderedMap κ ν) (k : κ) : Option ν :=
  go m.entries
where
  go : List (κ × ν) → Option ν
    | [] => none
    | (k', v) :: es => if compare k k' = .eq then some v else go es

def contains (m : OrderedMap κ ν) (k : κ) : Bool := (m.get? k).isSome

def keys (m : OrderedMap κ ν) : List κ := m.entries.map (·.1)

def values (m : OrderedMap κ ν) : List ν := m.entries.map (·.2)

def size (m : OrderedMap κ ν) : Nat := m.entries.length

/--
Puts the entry in front of the first one with a greater key; an entry with the same key is
replaced.
-/
def insertSorted (k : κ) (v : ν) : List (κ × ν) → List (κ × ν)
  | [] => [(k, v)]
  | e :: es =>
    match compare k e.1 with
    | .lt => (k, v) :: e :: es
    | .eq => (k, v) :: es
    | .gt => e :: insertSorted k v es

theorem eq_or_mem_of_mem_insertSorted {k : κ} {v : ν} {e : κ × ν} {es : List (κ × ν)}
    (h : e ∈ insertSorted k v es) : e = (k, v) ∨ e ∈ es := by
  induction es with
  | nil => simpa [insertSorted] using h
  | cons e' es ih =>
    unfold insertSorted at h
    split at h <;> grind

theorem sorted_insertSorted [Std.TransOrd κ] [Std.LawfulEqOrd κ] {k : κ} {v : ν}
    {es : List (κ × ν)} (h : es.Pairwise fun a b => compare a.1 b.1 = .lt) :
    (insertSorted k v es).Pairwise fun a b => compare a.1 b.1 = .lt := by
  induction es with
  | nil => simp [insertSorted]
  | cons e es ih =>
    unfold insertSorted
    split
    · rename_i hk
      refine List.pairwise_cons.2 ⟨fun z hz => ?_, h⟩
      rcases List.mem_cons.1 hz with rfl | hz
      · exact hk
      · exact Std.TransCmp.lt_trans hk (List.rel_of_pairwise_cons h hz)
    · rename_i hk
      have hk : k = e.1 := Std.LawfulEqOrd.eq_of_compare hk
      refine List.pairwise_cons.2 ⟨fun z hz => ?_, h.of_cons⟩
      simpa [hk] using List.rel_of_pairwise_cons h hz
    · rename_i hk
      have hk : compare e.1 k = .lt := Std.OrientedCmp.lt_of_gt hk
      refine List.pairwise_cons.2 ⟨fun z hz => ?_, ih h.of_cons⟩
      rcases eq_or_mem_of_mem_insertSorted hz with rfl | hz
      · exact hk
      · exact List.rel_of_pairwise_cons h hz

def erase (m : OrderedMap κ ν) (k : κ) : OrderedMap κ ν :=
  ⟨m.entries.filter fun e => compare k e.1 != .eq, m.sorted.filter _⟩

/--
Changes every value, with its key in view, and leaves the keys alone.
-/
def map {μ : Type} (f : κ → ν → μ) (m : OrderedMap κ ν) : OrderedMap κ μ :=
  ⟨m.entries.map fun e => (e.1, f e.1 e.2), List.pairwise_map.2 m.sorted⟩

variable [Std.TransOrd κ] [Std.LawfulEqOrd κ]

def insert (m : OrderedMap κ ν) (k : κ) (v : ν) : OrderedMap κ ν :=
  ⟨insertSorted k v m.entries, sorted_insertSorted m.sorted⟩

/--
The map of the entries of a list; of two entries with the same key the later one stays.
-/
def ofList (es : List (κ × ν)) : OrderedMap κ ν :=
  es.foldl (fun m e => m.insert e.1 e.2) ∅

omit [Std.TransOrd κ] [Std.LawfulEqOrd κ] in
@[simp] theorem get?_empty {k : κ} : (∅ : OrderedMap κ ν).get? k = none := rfl

omit [Std.TransOrd κ] in
theorem go_insertSorted {k j : κ} {v : ν} {es : List (κ × ν)} :
    get?.go j (insertSorted k v es) = if compare j k = .eq then some v else get?.go j es := by
  induction es with
  | nil => simp [insertSorted, get?.go]
  | cons e es ih =>
    unfold insertSorted
    split
    · simp [get?.go]
    · rename_i hk
      have hk : k = e.1 := Std.LawfulEqOrd.eq_of_compare hk
      by_cases hj : compare j e.1 = .eq <;> simp [get?.go, hk, hj]
    · rename_i hk
      by_cases hj : compare j e.1 = .eq
      -- `j` is found in front of the new entry, so it is not `k`
      · have hj' : j = e.1 := Std.LawfulEqOrd.eq_of_compare hj
        have : compare j k ≠ .eq := fun h => by
          have : j = k := Std.LawfulEqOrd.eq_of_compare h
          subst this
          simp [hj] at hk
        simp [get?.go, hj, this]
      · simp [get?.go, hj, ih]

theorem get?_insert {m : OrderedMap κ ν} {k j : κ} {v : ν} :
    (m.insert k v).get? j = if compare j k = .eq then some v else m.get? j :=
  go_insertSorted

@[simp] theorem get?_insert_self {m : OrderedMap κ ν} {k : κ} {v : ν} :
    (m.insert k v).get? k = some v := by
  simp [get?_insert, Std.ReflCmp.compare_self]

theorem get?_insert_of_ne {m : OrderedMap κ ν} {k j : κ} {v : ν} (h : j ≠ k) :
    (m.insert k v).get? j = m.get? j := by
  simp [get?_insert, h]

omit [Std.TransOrd κ] in
theorem get?_erase {m : OrderedMap κ ν} {k j : κ} :
    (m.erase k).get? j = if compare j k = .eq then none else m.get? j := by
  obtain ⟨es, hs⟩ := m
  change get?.go j (es.filter fun e => compare k e.1 != .eq) =
    if compare j k = .eq then none else get?.go j es
  clear hs
  induction es with
  | nil => simp [get?.go]
  | cons e es ih =>
    have hk : compare k e.1 = .eq ↔ k = e.1 := Std.LawfulEqCmp.compare_eq_iff_eq
    have hj : compare j e.1 = .eq ↔ j = e.1 := Std.LawfulEqCmp.compare_eq_iff_eq
    have hjk : compare j k = .eq ↔ j = k := Std.LawfulEqCmp.compare_eq_iff_eq
    rw [List.filter_cons]
    by_cases h : k = e.1 <;> grind [get?.go]

end OrderedMap

end TemporalStore
