import Mathlib.Logic.Function.Iterate
import TemporalStore.Proofs.Host.Name

/-!
This module contains the tree that paths form. A valid path consists of the names on the way down
to its branch, and the paths above any path are its beginnings that end where a separator follows.
-/

namespace TemporalStore.Path

/-! ## Names -/

/--
What a branch may be called below its parent.
-/
structure IsName (name : String) : Prop where
  nonempty : name ≠ ""
  single : separator ∉ name.toList
  plain : substitute ∉ name.toList

theorem segments_eq_splitOn (cs : List Char) : segments cs = cs.splitOn separator := by
  induction cs with
  | nil => rfl
  | cons c cs ih =>
    unfold List.splitOn at ih ⊢
    rw [List.splitOnP_cons_eq_if_modifyHead, ← ih]
    by_cases hc : c = separator
    · simp [segments, hc]
    · cases hs : segments cs with
      | nil => exact absurd hs (segments_ne_nil cs)
      | cons s ss => simp [segments, hc, hs]

theorem mem_iff_mem_segments {c : Char} {cs : List Char} (hc : c ≠ separator) :
    c ∈ cs ↔ ∃ s ∈ segments cs, c ∈ s := by
  induction cs with
  | nil => simp [segments]
  | cons d ds ih =>
    rw [List.mem_cons, ih]
    by_cases hd : d = separator
    · have other : c ≠ d := by rwa [hd]
      simp [segments, hd, hc]
    · cases hs : segments ds with
      | nil => exact absurd hs (segments_ne_nil ds)
      | cons s ss => simp [segments, hd, hs, or_assoc]

/--
Empty text has an empty segment, so it needs no case of its own.
-/
theorem valid_iff_forall_segments {path : String} :
    Valid path ↔ ∀ s ∈ segments path.toList, s ≠ [] ∧ substitute ∉ s := by
  have plain : substitute ∉ path.toList ↔ ∀ s ∈ segments path.toList, substitute ∉ s := by
    rw [mem_iff_mem_segments (by decide)]
    simp
  have nonempty : [] ∉ segments path.toList → path ≠ "" := by
    rintro named rfl
    exact named (List.mem_singleton_self _)
  rw [valid_iff, plain]
  constructor
  · rintro ⟨-, plain, named⟩ s mem
    exact ⟨ne_of_mem_of_not_mem mem named, plain s mem⟩
  · intro each
    have named : [] ∉ segments path.toList := fun mem => (each [] mem).1 rfl
    exact ⟨nonempty named, fun s mem => (each s mem).2, named⟩

theorem segments_intercalate {names : List String} (nonempty : names ≠ [])
    (single : ∀ name ∈ names, separator ∉ name.toList) :
    segments ("/".intercalate names).toList = names.map String.toList := by
  rw [segments_eq_splitOn, String.toList_intercalate]
  apply List.splitOn_intercalate
  · simpa using single
  · simpa using nonempty

theorem intercalate_segments (path : String) :
    "/".intercalate ((segments path.toList).map String.ofList) = path := by
  have back : String.toList ∘ String.ofList = id := funext fun s => String.toList_ofList
  rw [← String.toList_inj, String.toList_intercalate, List.map_map, back, List.map_id,
    segments_eq_splitOn]
  exact List.intercalate_splitOn separator

theorem valid_iff_exists_names {path : String} :
    Valid path ↔
      ∃ names, names ≠ [] ∧ (∀ name ∈ names, IsName name) ∧ path = "/".intercalate names := by
  rw [valid_iff_forall_segments]
  constructor
  · intro each
    refine ⟨(segments path.toList).map String.ofList, ?_, ?_, (intercalate_segments path).symm⟩
    · simpa using segments_ne_nil path.toList
    · intro name mem
      obtain ⟨s, inPath, rfl⟩ := List.mem_map.1 mem
      obtain ⟨nonempty, plain⟩ := each s inPath
      constructor
      · simpa using nonempty
      · rw [String.toList_ofList]
        exact not_mem_of_mem_segments inPath
      · rwa [String.toList_ofList]
  · rintro ⟨names, nonempty, each, rfl⟩ s mem
    rw [segments_intercalate nonempty fun name mem => (each name mem).single] at mem
    obtain ⟨name, given, rfl⟩ := List.mem_map.1 mem
    exact ⟨by simpa using (each name given).nonempty, (each name given).plain⟩

/-! ## The way up -/

/--
The path that is reached by going to the parent so many times.
-/
def climb (path : String) (steps : Nat) : Option String := (·.bind parent?)^[steps] (some path)

theorem climb_succ (path : String) (steps : Nat) :
    climb path (steps + 1) = (parent? path).bind (climb · steps) := by
  unfold climb
  rw [Function.iterate_succ_apply, Option.bind_some]
  cases parent? path with
  | some p => rfl
  | none =>
    rw [Option.bind_none]
    exact Function.iterate_fixed rfl steps

/--
The way up ends, and the paths on it are the ancestors.
-/
theorem climb_succ_eq_getElem? (path : String) (steps : Nat) :
    climb path (steps + 1) = (ancestors path)[steps]? := by
  rw [climb_succ]
  cases parent : parent? path with
  | none =>
    rw [ancestors_of_parent?_eq_none parent]
    rfl
  | some p =>
    rw [ancestors_of_parent?_eq_some parent]
    cases steps with
    | zero => rfl
    | succ steps => exact climb_succ_eq_getElem? p steps

theorem mem_ancestors_iff {path a : String} :
    a ∈ ancestors path ↔ ∃ rest, path = a ++ "/" ++ rest := by
  rw [← isDescendant_iff_mem_ancestors, isDescendant_iff_exists_append]

theorem pairwise_ancestors (path : String) :
    (ancestors path).Pairwise fun a b => b.toList.length < a.toList.length := by
  cases parent : parent? path with
  | none =>
    rw [ancestors_of_parent?_eq_none parent]
    exact .nil
  | some p =>
    have shorter := length_lt_of_parent? parent
    rw [ancestors_of_parent?_eq_some parent]
    exact List.pairwise_cons.2 ⟨fun a mem => length_lt_of_mem_ancestors mem, pairwise_ancestors p⟩
termination_by path.toList.length

/-! ## Flat paths and back -/

theorem fatten_flatten_eq_iff {path : String} :
    fatten (flatten path) = path ↔ substitute ∉ path.toList := by
  have distinct : separator ≠ substitute := by decide
  unfold fatten flatten
  rw [String.map_map, ← String.toList_inj, String.toList_map]
  generalize path.toList = cs
  induction cs with
  | nil => simp
  | cons c cs ih =>
    rw [List.map_cons, List.cons.injEq, List.mem_cons, not_or]
    refine and_congr ?_ ih
    -- both characters come back as the separator, and every other one as itself
    by_cases hc : c = separator
    · simp [hc, distinct.symm]
    · by_cases hs : c = substitute
      · simp [hs, distinct]
      · simp [hc, hs, Ne.symm hs]

/--
Names, parents, beginnings of text and flat paths give one tree of branches.

- The valid paths are those that consist of names.
- The way up from any path ends, and leads through its beginnings before a separator, the longest
  one first; these are also the paths that it is a descendant of.
- All paths above a valid one are valid.
- Flattening can be undone where the substitute does not occur, so that no two valid paths have the
  same flat path.
-/
theorem hierarchy (path : String) :
    (Valid path ↔
      ∃ names, names ≠ [] ∧ (∀ name ∈ names, IsName name) ∧ path = "/".intercalate names) ∧
    (∀ steps, climb path (steps + 1) = (ancestors path)[steps]?) ∧
    (∀ a, a ∈ ancestors path ↔ ∃ rest, path = a ++ "/" ++ rest) ∧
    ((ancestors path).Pairwise fun a b => b.toList.length < a.toList.length) ∧
    (∀ a, isDescendant a path ↔ a ∈ ancestors path) ∧
    (Valid path → ∀ a ∈ ancestors path, Valid a) ∧
    (fatten (flatten path) = path ↔ substitute ∉ path.toList) ∧
    (Valid path → ∀ other, Valid other → flatten path = flatten other → path = other) :=
  ⟨valid_iff_exists_names, climb_succ_eq_getElem? path, fun _ => mem_ancestors_iff,
    pairwise_ancestors path, fun _ => isDescendant_iff_mem_ancestors,
    fun valid _ mem => valid_of_mem_ancestors valid mem, fatten_flatten_eq_iff,
    fun valid _ valid' same => flatten_injective valid valid' same⟩

theorem hierarchy_of_task :
    Valid "MAIN/É/TASK" ∧ ancestors "MAIN/É/TASK" = ["MAIN/É", "MAIN"] ∧
      (∀ a ∈ ancestors "MAIN/É/TASK", Valid a) ∧ Valid (fatten "MAIN_É_TASK") ∧
      flatten "MAIN/É/TASK" = flatten (fatten "MAIN_É_TASK") ∧
      "MAIN/É/TASK" = fatten "MAIN_É_TASK" := by
  have valid : Valid "MAIN/É/TASK" := by decide
  have valid' : Valid (fatten "MAIN_É_TASK") := by decide +kernel
  have same : flatten "MAIN/É/TASK" = flatten (fatten "MAIN_É_TASK") := by decide +kernel
  have first : parent? "MAIN/É/TASK" = some "MAIN/É" := by decide
  have second : parent? "MAIN/É" = some "MAIN" := by decide
  have root : parent? "MAIN" = none := by decide
  obtain ⟨-, -, -, -, -, above, -, injective⟩ := hierarchy "MAIN/É/TASK"
  refine ⟨valid, ?_, above valid, valid', same, injective valid _ valid' same⟩
  rw [ancestors_of_parent?_eq_some first, ancestors_of_parent?_eq_some second,
    ancestors_of_parent?_eq_none root]

end TemporalStore.Path
