import TemporalStore.Path

/-!
This module contains the hierarchy of valid paths: parents and ancestors of valid paths are valid,
and no two valid paths have the same flat path.
-/

namespace TemporalStore.Path

def Valid (path : String) : Prop := validate path = .ok ()

theorem valid_iff (path : String) :
    Valid path ↔
      path ≠ "" ∧ substitute ∉ path.toList ∧ [] ∉ segments path.toList := by
  unfold Valid validate
  split
  · simp_all
  · split
    · simp_all
    · split <;> simp_all

instance (path : String) : Decidable (Valid path) :=
  match h : validate path with
  | .ok () => .isTrue h
  | .error _ => .isFalse (by simp [Valid, h])

/-! ## Flat paths -/

theorem flatten_toList (path : String) :
    (flatten path).toList = path.toList.map fun c => if c = separator then substitute else c := by
  unfold flatten
  rw [String.toList_map]

theorem map_inj_of_not_mem {cs ds : List Char} (hc : substitute ∉ cs) (hd : substitute ∉ ds)
    (h : (cs.map fun c => if c = separator then substitute else c) =
      ds.map fun c => if c = separator then substitute else c) : cs = ds := by
  induction cs generalizing ds with
  | nil =>
    cases ds with
    | nil => rfl
    | cons d ds => simp at h
  | cons c cs ih =>
    cases ds with
    | nil => simp at h
    | cons d ds =>
      simp only [List.map_cons, List.cons.injEq] at h
      simp only [List.mem_cons, not_or] at hc hd
      have tail : cs = ds := ih hc.2 hd.2 h.2
      have head : c = d := by
        have := h.1
        grind
      rw [head, tail]

theorem flatten_injective {p q : String} (hp : Valid p) (hq : Valid q)
    (h : flatten p = flatten q) : p = q := by
  rw [valid_iff] at hp hq
  have lists := congrArg String.toList h
  rw [flatten_toList, flatten_toList] at lists
  exact String.toList_inj.1 (map_inj_of_not_mem hp.2.1 hq.2.1 lists)

theorem flatten_inj {p q : String} (hp : Valid p) (hq : Valid q) :
    flatten p = flatten q ↔ p = q := by
  constructor
  · apply flatten_injective hp hq
  · intro h
    rw [h]

/-! ## Parents -/

theorem beforeLastSeparator?_eq_none_iff {cs : List Char} :
    beforeLastSeparator? cs = none ↔ separator ∉ cs := by
  induction cs with
  | nil => simp [beforeLastSeparator?]
  | cons c cs ih =>
    unfold beforeLastSeparator?
    grind

theorem eq_append_of_beforeLastSeparator? {cs p : List Char}
    (h : beforeLastSeparator? cs = some p) :
    ∃ rest, cs = p ++ separator :: rest ∧ separator ∉ rest := by
  induction cs generalizing p with
  | nil => simp [beforeLastSeparator?] at h
  | cons c cs ih =>
    unfold beforeLastSeparator? at h
    split at h
    · rename_i q hq
      obtain ⟨rest, hrest, last⟩ := ih hq
      simp only [Option.some.injEq] at h
      refine ⟨rest, ?_, last⟩
      rw [← h, hrest, List.cons_append]
    · rename_i none
      split at h
      · rename_i hc
        simp only [Option.some.injEq] at h
        refine ⟨cs, ?_, beforeLastSeparator?_eq_none_iff.1 none⟩
        rw [← h, hc, List.nil_append]
      · simp at h

theorem segments_ne_nil (cs : List Char) : segments cs ≠ [] := by
  cases cs with
  | nil => simp [segments]
  | cons c cs =>
    unfold segments
    split
    · simp
    · split <;> simp

theorem segments_append (cs ds : List Char) :
    segments (cs ++ separator :: ds) = segments cs ++ segments ds := by
  induction cs with
  | nil => simp [segments]
  | cons c cs ih =>
    rw [List.cons_append]
    by_cases hc : c = separator
    · simp [segments, hc, ih]
    · cases hs : segments cs with
      | nil => exact absurd hs (segments_ne_nil cs)
      | cons s ss => simp [segments, hc, ih, hs]

theorem toList_of_parent? {path p : String} (h : parent? path = some p) :
    ∃ rest, path.toList = p.toList ++ separator :: rest ∧ separator ∉ rest := by
  obtain ⟨cs, hcs, rfl⟩ := Option.map_eq_some_iff.1 h
  rw [String.toList_ofList]
  exact eq_append_of_beforeLastSeparator? hcs

theorem valid_of_parent? {path p : String} (hv : Valid path) (h : parent? path = some p) :
    Valid p := by
  rw [valid_iff] at hv ⊢
  obtain ⟨rest, hrest, -⟩ := toList_of_parent? h
  rw [hrest, segments_append] at hv
  have segs : [] ∉ segments p.toList := fun hm => hv.2.2 (List.mem_append_left _ hm)
  refine ⟨?_, ?_, segs⟩
  · intro hp
    apply segs
    simp [hp, segments]
  · intro hm
    apply hv.2.1
    exact List.mem_append_left _ hm

theorem parent?_ne {path p : String} (h : parent? path = some p) : p ≠ path := by
  have := length_lt_of_parent? h
  intro hp
  rw [hp] at this
  omega

/-! ## Ancestors -/

theorem ancestors_of_parent?_eq_none {path : String} (h : parent? path = none) :
    ancestors path = [] := by
  rw [ancestors]
  split
  · rfl
  · simp_all

theorem ancestors_of_parent?_eq_some {path p : String} (h : parent? path = some p) :
    ancestors path = p :: ancestors p := by
  rw [ancestors]
  split
  · simp_all
  · rename_i q hq
    have : p = q := by
      rw [h] at hq
      exact Option.some.inj hq
    rw [this]

theorem length_lt_of_mem_ancestors {path a : String} (h : a ∈ ancestors path) :
    a.toList.length < path.toList.length := by
  cases hp : parent? path with
  | none =>
    rw [ancestors_of_parent?_eq_none hp] at h
    simp at h
  | some p =>
    have parent := length_lt_of_parent? hp
    rw [ancestors_of_parent?_eq_some hp] at h
    rcases List.mem_cons.1 h with rfl | h
    · exact parent
    · have := length_lt_of_mem_ancestors h
      omega
termination_by path.toList.length

theorem valid_of_mem_ancestors {path a : String} (hv : Valid path) (h : a ∈ ancestors path) :
    Valid a := by
  cases hp : parent? path with
  | none =>
    rw [ancestors_of_parent?_eq_none hp] at h
    simp at h
  | some p =>
    have parent := length_lt_of_parent? hp
    rw [ancestors_of_parent?_eq_some hp] at h
    rcases List.mem_cons.1 h with rfl | h
    · exact valid_of_parent? hv hp
    · exact valid_of_mem_ancestors (valid_of_parent? hv hp) h
termination_by path.toList.length

theorem not_mem_ancestors_self (path : String) : path ∉ ancestors path := by
  intro h
  have := length_lt_of_mem_ancestors h
  omega

/-! ## Descendants -/

theorem isDescendant_iff {a d : String} :
    isDescendant a d ↔ ∃ rest, d.toList = a.toList ++ separator :: rest := by
  unfold isDescendant
  rw [List.isPrefixOf_iff_prefix]
  constructor
  · rintro ⟨rest, same⟩
    exact ⟨rest, by rw [← same, List.append_assoc, List.singleton_append]⟩
  · rintro ⟨rest, same⟩
    exact ⟨rest, by rw [same, List.append_assoc, List.singleton_append]⟩

theorem isDescendant_iff_exists_append {a d : String} :
    isDescendant a d ↔ ∃ rest, d = a ++ "/" ++ rest := by
  have same (rest : String) :
      d = a ++ "/" ++ rest ↔ d.toList = a.toList ++ separator :: rest.toList := by
    rw [← String.toList_inj]
    simp [separator]
  rw [isDescendant_iff]
  constructor
  · rintro ⟨rest, h⟩
    exact ⟨String.ofList rest, (same _).2 (by simpa using h)⟩
  · rintro ⟨rest, h⟩
    exact ⟨rest.toList, (same rest).1 h⟩

/--
Text before a separator ends before the last one, or right there.
-/
theorem exists_append_separator_iff {as ps rest : List Char} (last : separator ∉ rest) :
    (∃ more, ps ++ separator :: rest = as ++ separator :: more) ↔
      as = ps ∨ ∃ more, ps = as ++ separator :: more := by
  constructor
  · rintro ⟨more, same⟩
    rcases List.append_eq_append_iff.1 same with ⟨between, rfl, inRest⟩ | ⟨between, rfl, inMore⟩
    · cases between with
      | nil => exact .inl (List.append_nil ps)
      | cons c between =>
        -- a separator that comes after the last one
        rw [List.cons_append, List.cons.injEq] at inRest
        rw [inRest.2] at last
        simp at last
    · cases between with
      | nil => exact .inl (List.append_nil as).symm
      | cons c between =>
        rw [List.cons_append, List.cons.injEq] at inMore
        exact .inr ⟨between, by rw [inMore.1]⟩
  · rintro (rfl | ⟨more, rfl⟩)
    · exact ⟨rest, rfl⟩
    · exact ⟨more ++ separator :: rest, by simp⟩

/--
Whoever compares the texts of two paths finds the same hierarchy as whoever climbs from parent to
parent.
-/
theorem isDescendant_iff_mem_ancestors {a d : String} : isDescendant a d ↔ a ∈ ancestors d := by
  rw [isDescendant_iff]
  cases parent : parent? d with
  | none =>
    rw [ancestors_of_parent?_eq_none parent]
    have single := beforeLastSeparator?_eq_none_iff.1 (Option.map_eq_none_iff.1 parent)
    simp only [List.not_mem_nil, iff_false]
    rintro ⟨rest, same⟩
    rw [same] at single
    simp at single
  | some p =>
    have shorter := length_lt_of_parent? parent
    obtain ⟨rest, whole, last⟩ := toList_of_parent? parent
    rw [ancestors_of_parent?_eq_some parent, List.mem_cons, whole,
      exists_append_separator_iff last, String.toList_inj, ← isDescendant_iff,
      isDescendant_iff_mem_ancestors]
termination_by d.toList.length

end TemporalStore.Path
