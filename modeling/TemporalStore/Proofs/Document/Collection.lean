import TemporalStore.Document.Collection
import TemporalStore.Proofs.Ordered

/-!
This module contains what is found in a collection after versions were stored or ended.
-/

namespace TemporalStore.Collection

/--
Every version is stored under its own identity.
-/
def Keyed (c : Collection) : Prop := ∀ id d, c.get? id = some d → d.id = some id

def ids (c : Collection) (p : Predicate) : List VersionId := (c.find p).filterMap Document.id

theorem mem_find_iff {c : Collection} {p : Predicate} {d : Document} :
    d ∈ c.find p ↔ (∃ id, c.get? id = some d) ∧ p.accepts d := by
  unfold find
  rw [List.mem_filter, OrderedMap.mem_values_iff]
  rfl

section

variable {c : Collection} {id : VersionId} {d : Document}

theorem keyed_empty : Keyed {} := by
  intro id d found
  simp [get?] at found

theorem Keyed.mem_ids_iff (h : c.Keyed) {p : Predicate} :
    id ∈ c.ids p ↔ ∃ d, c.get? id = some d ∧ p.accepts d := by
  unfold ids
  rw [List.mem_filterMap]
  constructor
  · rintro ⟨d, mem, same⟩
    obtain ⟨⟨key, found⟩, accepted⟩ := mem_find_iff.1 mem
    rw [h key d found, Option.some.injEq] at same
    rw [same] at found
    exact ⟨d, found, accepted⟩
  · rintro ⟨d, found, accepted⟩
    exact ⟨d, mem_find_iff.2 ⟨⟨id, found⟩, accepted⟩, h id d found⟩

theorem Keyed.ids_eq (h : c.Keyed) (p : Predicate) :
    c.ids p = (c.documents.entries.filter (p.accepts ·.2)).map (·.1) := by
  have keyed : ∀ e ∈ c.documents.entries, e.2.id = some e.1 := by
    intro e mem
    exact h e.1 e.2 (OrderedMap.get?_eq_some_iff.2 mem)
  unfold ids find OrderedMap.values
  rw [List.filter_map, List.filterMap_map, ← List.filterMap_eq_map]
  apply List.filterMap_congr
  intro e mem
  exact keyed e (List.mem_of_mem_filter mem)

theorem Keyed.pairwise_ids (h : c.Keyed) (p : Predicate) :
    (c.ids p).Pairwise fun a b => compare a b = .lt := by
  rw [h.ids_eq, List.pairwise_map]
  exact c.documents.sorted.filter _

/--
Identities are listed in their order, so only which of them are listed counts.
-/
theorem Keyed.ids_ext {c' : Collection} {p p' : Predicate} (h : c.Keyed) (h' : c'.Keyed)
    (same : ∀ id, id ∈ c.ids p ↔ id ∈ c'.ids p') : c.ids p = c'.ids p' := by
  have irrefl : Std.Irrefl fun a b : VersionId => compare a b = .lt :=
    ⟨fun a => OrderedMap.compare_self_ne_lt a⟩
  have antisymm : Std.Antisymm fun a b : VersionId => compare a b = .lt :=
    ⟨fun a b hab hba => absurd (Std.TransCmp.lt_trans hab hba) (OrderedMap.compare_self_ne_lt a)⟩
  exact (h.pairwise_ids p).eq_of_mem_iff (h'.pairwise_ids p') same

end

/-! ## Ended versions -/

theorem get?_endVersions (c : Collection) (ids : List VersionId) (t : Timepoint) (id : VersionId) :
    (c.endVersions ids t).get? id =
      (c.get? id).map fun d => if id ∈ ids then { d with ended := some t } else d := by
  induction ids generalizing c with
  | nil => simp [endVersions]
  | cons key ids ih =>
    have first : get? ⟨endVersions.endVersion t c.documents key⟩ id =
        (c.get? id).map fun d => if id = key then { d with ended := some t } else d := by
      unfold endVersions.endVersion get?
      split
      · rename_i d found
        rw [OrderedMap.get?_insert]
        by_cases same : id = key
        · simp [same, found]
        · simp [same]
      · rename_i absent
        by_cases same : id = key
        · simp [same, absent]
        · simp [same]
    have rest := ih ⟨endVersions.endVersion t c.documents key⟩
    rw [first, Option.map_map] at rest
    refine rest.trans ?_
    apply Option.map_congr
    intro d _
    by_cases same : id = key
    · simp [same]
    · simp [same]

theorem Keyed.endVersions {c : Collection} (h : c.Keyed) (ids : List VersionId) (t : Timepoint) :
    (c.endVersions ids t).Keyed := by
  intro id d found
  rw [get?_endVersions, Option.map_eq_some_iff] at found
  obtain ⟨d', found, rfl⟩ := found
  have same := h id d' found
  split
  · exact same
  · exact same

/-! ## Stored versions -/

theorem eq_or_mem_of_get?_insertMany {c : Collection} {docs : List (VersionId × Document)}
    {id : VersionId} {d : Document} (found : (c.insertMany docs).get? id = some d) :
    (id, d) ∈ docs ∨ (c.get? id = some d ∧ id ∉ docs.map (·.1)) := by
  induction docs generalizing c with
  | nil =>
    right
    exact ⟨found, by simp⟩
  | cons e docs ih =>
    have rest := @ih ⟨c.documents.insert e.1 e.2⟩ found
    rcases rest with mem | ⟨found, absent⟩
    · left
      exact List.mem_cons_of_mem _ mem
    · unfold get? at found
      rw [OrderedMap.get?_insert_eq_some_iff] at found
      rcases found with ⟨rfl, rfl⟩ | ⟨other, found⟩
      · left
        exact List.mem_cons_self
      · right
        refine ⟨found, ?_⟩
        simp only [List.map_cons, List.mem_cons, not_or]
        exact ⟨other, absent⟩

theorem get?_insertMany_of_not_mem {c : Collection} {docs : List (VersionId × Document)}
    {id : VersionId} (absent : id ∉ docs.map (·.1)) :
    (c.insertMany docs).get? id = c.get? id := by
  induction docs generalizing c with
  | nil => rfl
  | cons e docs ih =>
    simp only [List.map_cons, List.mem_cons, not_or] at absent
    have rest := @ih ⟨c.documents.insert e.1 e.2⟩ absent.2
    refine rest.trans ?_
    exact OrderedMap.get?_insert_of_ne absent.1

theorem exists_get?_insertMany {c : Collection} {docs : List (VersionId × Document)}
    {id : VersionId} (mem : id ∈ docs.map (·.1)) :
    ∃ d, (c.insertMany docs).get? id = some d ∧ (id, d) ∈ docs := by
  induction docs generalizing c with
  | nil => simp at mem
  | cons e docs ih =>
    by_cases later : id ∈ docs.map (·.1)
    · obtain ⟨d, found, mem⟩ := @ih ⟨c.documents.insert e.1 e.2⟩ later
      exact ⟨d, found, List.mem_cons_of_mem _ mem⟩
    · have same : id = e.1 := by
        simp only [List.map_cons, List.mem_cons] at mem
        rcases mem with same | mem
        · exact same
        · exact absurd mem later
      have rest := @get?_insertMany_of_not_mem ⟨c.documents.insert e.1 e.2⟩ docs id later
      refine ⟨e.2, rest.trans ?_, ?_⟩
      · rw [same]
        exact OrderedMap.get?_insert_self
      · rw [same]
        exact List.mem_cons_self

theorem mem_identify {docs : List Document} {supply : IdSupply} {e : VersionId × Document}
    (mem : e ∈ (identify docs supply).1) :
    e.2.id = some e.1 ∧ ∃ d ∈ docs, e.2 = { d with id := some e.1 } := by
  induction docs generalizing supply with
  | nil => simp [identify] at mem
  | cons d docs ih =>
    unfold identify at mem
    split at mem
    · rename_i id known
      rcases List.mem_cons.1 mem with rfl | mem
      · refine ⟨known, d, List.mem_cons_self, ?_⟩
        rw [← known]
      · obtain ⟨same, d', mem', shape⟩ := ih mem
        exact ⟨same, d', List.mem_cons_of_mem _ mem', shape⟩
    · rcases List.mem_cons.1 mem with rfl | mem
      · exact ⟨rfl, d, List.mem_cons_self, rfl⟩
      · obtain ⟨same, d', mem', shape⟩ := ih mem
        exact ⟨same, d', List.mem_cons_of_mem _ mem', shape⟩

theorem Keyed.insertMany {c : Collection} (h : c.Keyed) {docs : List (VersionId × Document)}
    (known : ∀ e ∈ docs, e.2.id = some e.1) : (c.insertMany docs).Keyed := by
  intro id d found
  rcases eq_or_mem_of_get?_insertMany found with mem | ⟨found, -⟩
  · exact known (id, d) mem
  · exact h id d found

theorem Keyed.saveAll {c : Collection} (h : c.Keyed) (docs : List Document) (supply : IdSupply) :
    (c.saveAll docs supply).2.1.Keyed := by
  apply h.insertMany
  intro e mem
  exact (mem_identify mem).1

end TemporalStore.Collection
