import TemporalStore.Proofs.Document.Collection
import TemporalStore.Visibility.Edit

/-!
This module contains what is stored when documents are written under a commit: new versions, under
identities that are drawn for them.
-/

namespace TemporalStore.Commit

variable {commit : Commit} {docs : List Document} {supply : IdSupply} {c : Collection}
  {id : VersionId}

theorem ids_identify_stamp :
    (Collection.identify (docs.map commit.stamp) supply).1.map (·.1) =
      (supply.drawMany docs.length).1 := by
  induction docs generalizing supply with
  | nil => rfl
  | cons d docs ih => exact congrArg (_ :: ·) ih

theorem stamped_of_mem_identify {e : VersionId × Document}
    (mem : e ∈ (Collection.identify (docs.map commit.stamp) supply).1) :
    e.2.path = commit.flatBranchPath ∧ e.2.start = commit.timepoint ∧ e.2.ended = none := by
  obtain ⟨-, d, stamped, shape⟩ := Collection.mem_identify mem
  obtain ⟨d', -, rfl⟩ := List.mem_map.1 stamped
  rw [shape]
  exact ⟨rfl, rfl, rfl⟩

/--
A stamp changes nothing by which a document can be found.
-/
theorem fieldValues_identify_stamp :
    (Collection.identify (docs.map commit.stamp) supply).1.map (·.2.fieldValue) =
      docs.map Document.fieldValue := by
  induction docs generalizing supply with
  | nil => rfl
  | cons d docs ih => exact congrArg (_ :: ·) ih

theorem given_of_mem_identify {e : VersionId × Document}
    (mem : e ∈ (Collection.identify (docs.map commit.stamp) supply).1) :
    ∃ d ∈ docs, d.fieldValue = e.2.fieldValue := by
  have mapped := List.mem_map_of_mem (f := (·.2.fieldValue)) mem
  rw [fieldValues_identify_stamp] at mapped
  exact List.mem_map.1 mapped

theorem exists_get?_saveAll (drawn : id ∈ (supply.drawMany docs.length).1) :
    ∃ d, (c.saveAll (docs.map commit.stamp) supply).2.1.get? id = some d ∧
      d.path = commit.flatBranchPath ∧ d.start = commit.timepoint ∧ d.ended = none := by
  rw [← @ids_identify_stamp commit] at drawn
  obtain ⟨d, found, stored⟩ := @Collection.exists_get?_insertMany c _ id drawn
  exact ⟨d, found, stamped_of_mem_identify stored⟩

theorem exists_stamp_saveAll (drawn : id ∈ (supply.drawMany docs.length).1) :
    ∃ d ∈ docs, (c.saveAll (docs.map commit.stamp) supply).2.1.get? id =
      some { commit.stamp d with id := some id } := by
  rw [← @ids_identify_stamp commit] at drawn
  obtain ⟨d, found, stored⟩ := @Collection.exists_get?_insertMany c _ id drawn
  obtain ⟨-, stamped, mem, shape⟩ := Collection.mem_identify stored
  obtain ⟨d', given, rfl⟩ := List.mem_map.1 mem
  refine ⟨d', given, found.trans ?_⟩
  exact congrArg some shape

theorem get?_saveAll_of_not_mem (absent : id ∉ (supply.drawMany docs.length).1) :
    (c.saveAll (docs.map commit.stamp) supply).2.1.get? id = c.get? id := by
  rw [← @ids_identify_stamp commit] at absent
  exact Collection.get?_insertMany_of_not_mem absent

end TemporalStore.Commit
