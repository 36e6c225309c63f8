import TemporalStore.Proofs.Host.Apart
import TemporalStore.Store

/-!
This module contains the files of a store: the manifest, the lock, the branches and the snapshots
are all different, and so are the temporary files with which they are replaced.
-/

namespace TemporalStore

namespace FileName

open TemporalStore.Path (separator segments)

/--
A single step to somewhere else.
-/
def IsPart (part : String) : Prop :=
  separator ∉ part.toList ∧ part ≠ "" ∧ part ≠ "." ∧ part ≠ ".."

instance (part : String) : Decidable (IsPart part) := inferInstanceAs (Decidable (_ ∧ _))

theorem steps_of_isPart {part : String} (h : IsPart part) : steps part = [.into part] := by
  obtain ⟨plain, nonempty, stay, up⟩ := h
  have kept : part.toList ≠ [] := by simpa using nonempty
  unfold steps
  rw [Path.segments_of_not_mem plain]
  simp [kept, Step.ofPart, stay, up]

theorem steps_append_separator (name rest : String) :
    steps (name ++ String.singleton separator ++ rest) = steps name ++ steps rest := by
  unfold steps
  rw [String.toList_append, String.toList_append, String.toList_singleton, List.append_assoc,
    List.singleton_append, Path.segments_append, List.filter_append, List.map_append]

theorem steps_empty : steps "" = [] := rfl

/--
The part is the last step, whether or not the directory is named with a separator at its end.
-/
theorem steps_join {part : String} (directory : String) (h : IsPart part) :
    steps (join directory part) = steps directory ++ [.into part] := by
  have relative : ¬ part.toList.head? = some separator := by
    intro first
    exact h.1 (List.mem_of_mem_head? first)
  unfold join
  rw [if_neg relative]
  split
  · rename_i ends
    unfold endsInSeparator at ends
    rw [decide_eq_true_eq] at ends
    obtain ⟨outer, all⟩ := List.getLast?_eq_some_iff.1 ends
    have same : directory = String.ofList outer ++ String.singleton separator ++ "" := by
      rw [← String.toList_inj, all]
      simp
    have whole : directory ++ part = String.ofList outer ++ String.singleton separator ++ part := by
      rw [same]
      simp
    rw [whole, same, steps_append_separator, steps_append_separator, steps_of_isPart h, steps_empty,
      List.append_nil]
  · rw [steps_append_separator, steps_of_isPart h]

end FileName

namespace Store

open FileName (IsPart steps steps_join)

variable {path name other : String}

/--
The file of the snapshot that has this name.
-/
def collectionName (path name : String) : String :=
  FileName.join (collectionsName path) (name ++ ".bin")

theorem isPart_of_isCollectionName (h : isCollectionName name) : IsPart (name ++ ".bin") := by
  unfold isCollectionName at h
  simp only [Bool.and_eq_true, List.all_eq_true] at h
  refine ⟨?_, ?_, ?_, ?_⟩
  · rw [String.toList_append, List.mem_append]
    rintro (mem | mem)
    · have plain := h.2 _ mem
      revert plain
      decide
    · revert mem
      decide
  all_goals
    intro same
    have long := congrArg (fun s : String => s.toList.length) same
    simp only [String.toList_append, List.length_append] at long
    revert long
    simp

theorem steps_collectionName (h : isCollectionName name) :
    steps (collectionName path name) =
      steps path ++ [.into "collections", .into (name ++ ".bin")] := by
  have collections : IsPart "collections" := by decide
  unfold collectionName collectionsName
  rw [steps_join _ (isPart_of_isCollectionName h), steps_join path collections, List.append_assoc]
  rfl

theorem getLast?_steps_collectionName (h : isCollectionName name) :
    (steps (collectionName path name)).getLast? = some (.into (name ++ ".bin")) := by
  rw [steps_collectionName h]
  simp

theorem getLast?_steps_join {part : String} (h : IsPart part) :
    (steps (FileName.join path part)).getLast? = some (.into part) := by
  rw [steps_join path h]
  simp

/-! ## Different files -/

/--
What is deeper down is somewhere else.
-/
theorem placeIn_placeIn_ne (directory part : String) {inner : String} (nonempty : inner ≠ "") :
    Disk.placeIn (Disk.placeIn directory inner) part ≠ Disk.placeIn directory part := by
  have length (directory part : String) : (Disk.placeIn directory part).length =
      if directory = "" then part.length else directory.length + 1 + part.length := by
    unfold Disk.placeIn
    split
    · rfl
    · simp
  have inside : Disk.placeIn directory inner ≠ "" := by
    intro same
    have := congrArg String.length same
    rw [length] at this
    split at this
    · exact nonempty (String.length_eq_zero_iff.1 this)
    · simp at this
  intro same
  have := congrArg String.length same
  rw [length, length, if_neg inside, length] at this
  split at this
  · omega
  · omega

theorem apart_branches_collection (h : isCollectionName name) :
    Disk.Apart (branchesName path) (collectionName path name) := by
  have branches : IsPart "branches.bin" := by decide
  by_cases same : name ++ ".bin" = "branches.bin"
  · -- the last parts are the same, but the snapshot is in a directory further down
    intro disk spot part spot' part' locate last locate' last'
    obtain ⟨-, -, enters, -, -⟩ := Disk.locate_eq_ok_iff.1 locate
    obtain ⟨-, -, enters', -, -⟩ := Disk.locate_eq_ok_iff.1 locate'
    unfold branchesName at enters
    rw [steps_join path branches, List.dropLast_concat] at enters
    rw [steps_collectionName h, List.dropLast_append_cons, List.foldlM_append, enters] at enters'
    simp only [List.dropLast_cons_cons, List.dropLast_singleton, List.foldlM_cons, List.foldlM_nil,
      bind_pure] at enters'
    change disk.enter spot.directory (.into "collections") = _ at enters'
    obtain ⟨-, -, inside⟩ := Disk.enter_into_eq_ok_iff.1 enters'
    rw [Disk.last_of_locate locate (getLast?_steps_join branches), Step.into.injEq] at last
    rw [Disk.last_of_locate locate' (getLast?_steps_collectionName h), Step.into.injEq,
      same] at last'
    rw [inside, ← last, ← last']
    exact placeIn_placeIn_ne _ _ (by decide)
  · exact Disk.apart_of_last (getLast?_steps_join branches) (getLast?_steps_collectionName h) same

/--
What ends in the suffix of temporary files is not a snapshot.
-/
theorem apart_temporary_of_last {part file last : String}
    (h : (steps name).getLast? = some (.into part))
    (h' : (steps file).getLast? = some (.into last)) (other : ∀ p : String, last ≠ p ++ ".tmp") :
    Disk.Apart (Host.temporaryName name) file :=
  Disk.apart_of_last (FileName.getLast?_steps_withSuffix h) h' (other part)

theorem ne_of_last_ne {s t : String} (ne : s.toList.getLast? ≠ t.toList.getLast?) : s ≠ t := by
  rintro rfl
  exact ne rfl

theorem bin_ne_tmp (name part : String) : name ++ ".bin" ≠ part ++ ".tmp" :=
  ne_of_last_ne (by simp [String.toList_append])

theorem apart_collections (h : isCollectionName name) (h' : isCollectionName other)
    (ne : other ≠ name) : Disk.Apart (collectionName path name) (collectionName path other) := by
  apply Disk.apart_of_last (getLast?_steps_collectionName h) (getLast?_steps_collectionName h')
  intro same
  apply ne
  rw [← String.toList_inj] at same ⊢
  simpa [String.toList_append] using same

theorem apart_temporary_collections (h : isCollectionName name) (h' : isCollectionName other) :
    Disk.Apart (Host.temporaryName (collectionName path name)) (collectionName path other) :=
  apart_temporary_of_last (getLast?_steps_collectionName h) (getLast?_steps_collectionName h')
    (bin_ne_tmp other)

theorem apart_collection_manifest (h : isCollectionName name) :
    Disk.Apart (collectionName path name) (manifestName path) := by
  apply Disk.apart_of_last (getLast?_steps_collectionName h) (getLast?_steps_join (by decide))
  exact ne_of_last_ne (by simp [String.toList_append])

theorem apart_temporary_manifest {file part : String}
    (h : (steps file).getLast? = some (.into part)) :
    Disk.Apart (Host.temporaryName file) (manifestName path) := by
  apply apart_temporary_of_last h (getLast?_steps_join (by decide))
  intro p
  exact ne_of_last_ne (by simp [String.toList_append])

/--
Neither the branches of the store nor its lock are in this file.
-/
structure Aside (path file : String) : Prop where
  branches : Disk.Apart (branchesName path) file
  temporary : Disk.Apart (Host.temporaryName (branchesName path)) file
  lock : Disk.Apart (lockName path) file

theorem aside_collection (path : String) (h : isCollectionName name) :
    Aside path (collectionName path name) where
  branches := apart_branches_collection h
  temporary := apart_temporary_of_last (getLast?_steps_join (by decide))
    (getLast?_steps_collectionName h) (bin_ne_tmp name)
  lock := by
    apply Disk.apart_of_last (getLast?_steps_join (by decide)) (getLast?_steps_collectionName h)
    exact ne_of_last_ne (by simp [String.toList_append])

theorem aside_manifest (path : String) : Aside path (manifestName path) where
  branches := Disk.apart_of_last (getLast?_steps_join (by decide))
    (getLast?_steps_join (by decide)) (by decide)
  temporary := apart_temporary_manifest (getLast?_steps_join (by decide))
  lock := Disk.apart_of_last (getLast?_steps_join (by decide))
    (getLast?_steps_join (by decide)) (by decide)

end Store

end TemporalStore
