import TemporalStore.Host.Name
import TemporalStore.Proofs.Path

/-!
This module contains the steps of a name with a suffix: its last part is longer than that of the
name itself, so the two never lead to the same place.
-/

namespace TemporalStore

namespace Path

theorem segments_of_not_mem {cs : List Char} (h : separator ∉ cs) : segments cs = [cs] := by
  induction cs with
  | nil => rfl
  | cons c cs ih =>
    simp only [List.mem_cons, not_or] at h
    have other : c ≠ separator := fun hc => h.1 hc.symm
    simp [segments, other, ih h.2]

theorem not_mem_of_mem_segments {cs s : List Char} (h : s ∈ segments cs) : separator ∉ s := by
  induction cs generalizing s with
  | nil =>
    simp only [segments, List.mem_singleton] at h
    simp [h]
  | cons c cs ih =>
    unfold segments at h
    split at h
    · rcases List.mem_cons.1 h with rfl | h
      · simp
      · exact ih h
    · rename_i hc
      split at h
      · rename_i s' ss hs
        rw [hs] at ih
        rcases List.mem_cons.1 h with rfl | h
        · have := ih List.mem_cons_self
          simp only [List.mem_cons, not_or]
          exact ⟨fun he => hc he.symm, this⟩
        · exact ih (List.mem_cons_of_mem _ h)
      · rename_i hs
        exact absurd hs (segments_ne_nil cs)

end Path

namespace FileName

open TemporalStore.Path (separator segments)

theorem getLast?_steps_of_segments {name : String} {rest : List (List Char)} {part : String}
    (h : segments name.toList = rest ++ [part.toList]) (nonempty : part ≠ "") :
    (steps name).getLast? = some (.ofPart part) := by
  have kept : part.toList ≠ [] := by simpa using nonempty
  unfold steps
  rw [h, List.filter_append]
  simp [kept]

theorem part_of_mem_steps {name part : String} (h : Step.into part ∈ steps name) :
    separator ∉ part.toList ∧ part ≠ "" := by
  unfold steps at h
  obtain ⟨s, hs, hp⟩ := List.mem_map.1 h
  obtain ⟨mem, nonempty⟩ := List.mem_filter.1 hs
  have same : String.ofList s = part := by
    unfold Step.ofPart at hp
    split at hp
    · simp at hp
    · split at hp
      · simp at hp
      · simpa using hp
  rw [← same]
  refine ⟨?_, ?_⟩
  · rw [String.toList_ofList]
    exact Path.not_mem_of_mem_segments mem
  · intro he
    have := congrArg String.toList he
    simp_all

theorem segments_ofSteps_append (outer : List Step) {part : String}
    (h : separator ∉ part.toList) :
    ∃ rest, segments (ofSteps (outer ++ [.into part])).toList = rest ++ [part.toList] := by
  have last : segments part.toList = [part.toList] := Path.segments_of_not_mem h
  unfold ofSteps
  rw [List.map_append, List.map_singleton]
  by_cases ho : outer.map Step.toPart = []
  · refine ⟨[], ?_⟩
    rw [ho, List.nil_append, String.intercalate_singleton]
    exact last
  · rw [String.intercalate_append_of_ne_nil ho (by simp), String.intercalate_singleton,
      String.toList_append, String.toList_append, String.toList_singleton, List.append_assoc,
      List.singleton_append, Path.segments_append]
    unfold Step.toPart
    rw [last]
    exact ⟨_, rfl⟩

theorem ofPart_append_tmp (part : String) :
    Step.ofPart (part ++ ".tmp") = .into (part ++ ".tmp") := by
  have long : 4 ≤ (part ++ ".tmp").toList.length := by simp [String.toList_append]
  unfold Step.ofPart
  rw [if_neg, if_neg]
  · intro h
    rw [h] at long
    simp at long
  · intro h
    rw [h] at long
    simp at long

theorem getLast?_steps_withSuffix {name part : String}
    (h : (steps name).getLast? = some (.into part)) :
    (steps (withSuffix ".tmp" name)).getLast? = some (.into (part ++ ".tmp")) := by
  obtain ⟨before, hb⟩ := List.getLast?_eq_some_iff.1 h
  have mem : Step.into part ∈ steps name := List.mem_of_getLast? h
  obtain ⟨noSeparator, -⟩ := part_of_mem_steps mem
  have route : route name = before.filter (· ≠ .stay) ++ [.into part] := by
    unfold FileName.route
    rw [hb, List.filter_append]
    rfl
  have longer : separator ∉ (part ++ ".tmp").toList := by
    rw [String.toList_append]
    simp only [List.mem_append, not_or]
    exact ⟨noSeparator, by decide⟩
  have suffixed : withSuffix ".tmp" name =
      ofSteps (before.filter (· ≠ .stay) ++ [.into (part ++ ".tmp")]) := by
    unfold withSuffix
    rw [route, List.reverse_concat]
    simp only [List.reverse_cons, List.reverse_reverse]
  obtain ⟨rest, hrest⟩ := segments_ofSteps_append (before.filter (· ≠ .stay)) longer
  rw [suffixed, getLast?_steps_of_segments hrest (by simp), ofPart_append_tmp]

end FileName

end TemporalStore
