import TemporalStore.Proofs.Visibility.Hiding

/-!
This module contains what retiring old versions does to the documents and to the commit, and what
doing it again does, whatever the directory is like.
-/

namespace TemporalStore

namespace Document

def Matches (d : Document) (field : String) (values : OrderedSet String) : Prop :=
  ∃ value ∈ values, d.fieldValue field = some value

/--
The version is one of those that a commit at `t` supersedes.
-/
def Older (d : Document) (t : Timepoint) (field : String) (values : OrderedSet String) : Prop :=
  d.start < t ∧ d.Matches field values

end Document

namespace Collection

/--
The identities of those stored versions of which `p` holds, each listed once.
-/
structure Lists (c : Collection) (ids : List VersionId) (p : Document → Prop) : Prop where
  nodup : ids.Nodup
  mem_iff : ∀ id, id ∈ ids ↔ ∃ d, c.get? id = some d ∧ p d

theorem Keyed.lists {c : Collection} (h : c.Keyed) {filter : Predicate} {p : Document → Prop}
    (same : ∀ d, filter.accepts d ↔ p d) : c.Lists (c.ids filter) p where
  nodup := by
    apply (h.pairwise_ids filter).imp
    rintro a b before rfl
    exact OrderedMap.compare_self_ne_lt a before
  mem_iff id := by
    rw [h.mem_ids_iff]
    simp only [same]

end Collection

namespace Criteria

variable {site site' : Site} {paths : List String} {base t : Timepoint}
  {hidden : OrderedSet VersionId} {levels : List Level} {row : BranchRow} {criteria : Criteria}

theorem of_mem_inheritedLevels
    (answer : inheritedLevels paths base hidden site = .ok levels site') :
    ∀ level ∈ levels, level.inherited = true ∧ ∀ id ∈ hidden, id ∈ level.excluded := by
  induction paths generalizing base hidden site levels with
  | nil =>
    obtain ⟨rfl, -⟩ := EStateM.Result.ok.inj answer
    simp
  | cons path paths ih =>
    obtain ⟨row, middle, -, rest⟩ := exists_of_bind_ok answer
    obtain ⟨above, middle', answer', made⟩ := exists_of_bind_ok rest
    obtain ⟨rfl, rfl⟩ := EStateM.Result.ok.inj made
    have known : ∀ id ∈ hidden, id ∈ hidden ∪ row.replaced :=
      fun id mem => OrderedSet.mem_union.2 (.inl mem)
    rw [List.forall_mem_cons]
    refine ⟨⟨rfl, known⟩, ?_⟩
    intro level mem
    obtain ⟨inherited, excluded⟩ := ih answer' level mem
    exact ⟨inherited, fun id mem => excluded id (known id mem)⟩

/--
The rows that are looked up do not depend on what is hidden.
-/
theorem inheritedLevels_insertMany (ids : List VersionId)
    (answer : inheritedLevels paths base hidden site = .ok levels site') :
    inheritedLevels paths base (hidden.insertMany ids) site =
      .ok (levels.map (·.hide ids)) site' := by
  induction paths generalizing base hidden site levels with
  | nil =>
    obtain ⟨rfl, rfl⟩ := EStateM.Result.ok.inj answer
    rfl
  | cons path paths ih =>
    obtain ⟨row, middle, found, rest⟩ := exists_of_bind_ok answer
    obtain ⟨above, middle', answer', made⟩ := exists_of_bind_ok rest
    obtain ⟨rfl, rfl⟩ := EStateM.Result.ok.inj made
    unfold inheritedLevels
    rw [bind_ok found]
    simp only [OrderedSet.insertMany_union]
    rw [bind_ok (ih answer')]
    rfl

theorem exists_inheritedLevels_of_build (answer : build row t hidden site = .ok criteria site') :
    ∃ levels, inheritedLevels (Path.ancestors row.path) row.base hidden site = .ok levels site' ∧
      criteria = ⟨{ path := row.path, timepoint := t, inherited := false } :: levels⟩ := by
  obtain ⟨levels, middle, found, made⟩ := exists_of_bind_ok answer
  obtain ⟨rfl, rfl⟩ := EStateM.Result.ok.inj made
  exact ⟨levels, found, rfl⟩

/--
What is accepted elsewhere is accepted by an inherited clause.
-/
theorem accepts_elsewhere_iff {d : Document} (elsewhere : d.path ≠ row.flatPath) :
    (toPredicate ⟨{ path := row.path, timepoint := t, inherited := false } :: levels⟩).accepts d ↔
      ∃ level ∈ levels, level.toPredicate.accepts d := by
  rw [accepts_toPredicate, List.exists_mem_cons_iff, Level.accepts_own_iff rfl, or_iff_right]
  exact fun own => elsewhere own.1

theorem not_mem_of_accepts {d : Document} {id : VersionId}
    (answer : build row t hidden site = .ok criteria site') (known : d.id = some id)
    (elsewhere : d.path ≠ row.flatPath) (accepted : criteria.toPredicate.accepts d) :
    id ∉ hidden := by
  obtain ⟨levels, found, rfl⟩ := exists_inheritedLevels_of_build answer
  obtain ⟨level, mem, accepted⟩ := (accepts_elsewhere_iff elsewhere).1 accepted
  obtain ⟨inherited, excluded⟩ := of_mem_inheritedLevels found level mem
  intro mem'
  exact ((Level.accepts_inherited_iff inherited).1 accepted).2.2.2 id known (excluded id mem')

/--
With more versions hidden, the criteria can be told as before, and accept the others of those from
elsewhere.
-/
theorem exists_build_insertMany (ids : List VersionId)
    (answer : build row t hidden site = .ok criteria site') :
    ∃ criteria', build row t (hidden.insertMany ids) site = .ok criteria' site' ∧
      ∀ d id, d.id = some id → d.path ≠ row.flatPath →
        (criteria'.toPredicate.accepts d ↔ criteria.toPredicate.accepts d ∧ id ∉ ids) := by
  obtain ⟨levels, found, rfl⟩ := exists_inheritedLevels_of_build answer
  let own : Level := { path := row.path, timepoint := t, inherited := false }
  refine ⟨⟨own :: levels.map (·.hide ids)⟩, ?_, ?_⟩
  · unfold build
    rw [bind_ok (inheritedLevels_insertMany ids found)]
    rfl
  · intro d id known elsewhere
    rw [accepts_elsewhere_iff elsewhere, accepts_elsewhere_iff elsewhere]
    exact Level.exists_hide_iff (fun level mem => (of_mem_inheritedLevels found level mem).1) known

end Criteria

namespace Edit

theorem accepts_superseded_iff {d : Document} {t : Timepoint} {field : String}
    {values : OrderedSet String} :
    (superseded t field values).accepts d ↔ d.Older t field values ∧ d.ended = none := by
  unfold superseded Document.Older Document.Matches
  simp only [Predicate.accepts_both, Predicate.accepts, Bool.and_eq_true, decide_eq_true_eq,
    Option.isNone_iff_eq_none, Option.any_eq_true]
  grind

variable {edit after : Edit} {field : String} {values : OrderedSet String} {criteria : Criteria}
  {site : Site} {id : VersionId}

theorem lists_ownIds (keyed : edit.documents.Keyed) :
    edit.documents.Lists (edit.ownIds field values) fun d =>
      d.path = edit.commit.flatBranchPath ∧
        d.Older edit.commit.timepoint field values ∧ d.ended = none := by
  apply keyed.lists
  intro d
  rw [← accepts_superseded_iff]
  simp [Predicate.accepts]

theorem lists_acceptedIds (keyed : edit.documents.Keyed) (criteria : Criteria) :
    edit.documents.Lists (edit.acceptedIds criteria field values) fun d =>
      d.path ≠ edit.commit.flatBranchPath ∧
        (d.Older edit.commit.timepoint field values ∧ d.ended = none) ∧
          criteria.toPredicate.accepts d := by
  apply keyed.lists
  intro d
  rw [← accepts_superseded_iff]
  simp only [Predicate.accepts_both, Predicate.accepts, Bool.and_eq_true, Bool.not_eq_true',
    decide_eq_false_iff_not]
  grind

theorem get?_ownEnded (edit : Edit) (field : String) (values : OrderedSet String)
    (id : VersionId) :
    (edit.ownEnded field values).documents.get? id = (edit.documents.get? id).map fun d =>
      if id ∈ edit.ownIds field values then
        { d with ended := some edit.commit.timepoint } else d :=
  Collection.get?_endVersions edit.documents _ _ id

theorem keyed_ownEnded (keyed : edit.documents.Keyed) :
    (edit.ownEnded field values).documents.Keyed := keyed.endVersions _ _

/--
The edit with old versions retired, if `criteria` tell what the commit sees.
-/
def retired (edit : Edit) (criteria : Criteria) (field : String) (values : OrderedSet String)
    (site : Site) : Edit :=
  { edit.ownEnded field values with
    site
    commit := edit.commit.hide (edit.acceptedIds criteria field values) }

theorem retired_of_acceptedIds_eq_nil (none : edit.acceptedIds criteria field values = []) :
    edit.retired criteria field values site = { edit.ownEnded field values with site } := by
  unfold retired
  rw [none]
  rfl

section

variable (keyed : edit.documents.Keyed)

include keyed

/--
What is elsewhere has not been ended.
-/
theorem acceptedIds_ownEnded (criteria : Criteria) :
    (edit.ownEnded field values).acceptedIds criteria field values =
      edit.acceptedIds criteria field values := by
  have own := @lists_ownIds edit field values keyed
  have keyed' : (edit.ownEnded field values).documents.Keyed := keyed_ownEnded keyed
  apply keyed'.ids_ext keyed
  intro id
  refine ((lists_acceptedIds keyed' criteria).mem_iff id).trans
    (Iff.trans ?_ ((lists_acceptedIds keyed criteria).mem_iff id).symm)
  rw [get?_ownEnded]
  cases found : edit.documents.get? id with
  | none => simp
  | some d =>
    simp only [Option.map_some, Option.some.injEq, exists_eq_left']
    split
    · rename_i mem
      -- it has been ended, so it is on the branch itself
      obtain ⟨d', found', here, -⟩ := (own.mem_iff id).1 mem
      rw [found, Option.some.injEq] at found'
      simp [found', here, ownEnded]
    · rfl

/--
What has been ended is not ended again.
-/
theorem ownIds_ownEnded : (edit.ownEnded field values).ownIds field values = [] := by
  have own := @lists_ownIds edit field values keyed
  have keyed' : (edit.ownEnded field values).documents.Keyed := keyed_ownEnded keyed
  rw [List.eq_nil_iff_forall_not_mem]
  intro id mem
  obtain ⟨d, found, here, older, current⟩ := ((lists_ownIds keyed').mem_iff id).1 mem
  rw [get?_ownEnded, Option.map_eq_some_iff] at found
  obtain ⟨d', found', rfl⟩ := found
  split at current
  · simp at current
  · rename_i other
    rw [if_neg other] at here older
    exact other ((own.mem_iff id).2 ⟨d', found', here, older, current⟩)

theorem countStored_ownIds :
    (edit.ownEnded field values).documents.countStored (edit.ownIds field values) =
      (edit.ownIds field values).length := by
  unfold Collection.countStored
  rw [List.countP_eq_length]
  intro id mem
  obtain ⟨d, found, -⟩ := ((lists_ownIds keyed).mem_iff id).1 mem
  have there := get?_ownEnded edit field values id
  rw [found] at there
  unfold OrderedMap.contains
  unfold Collection.get? at there
  rw [there]
  rfl

theorem retire_eq (some : values ≠ ∅)
    (answer : Criteria.ofCommit edit.commit edit.site = .ok criteria site) :
    retire field values edit =
      .ok { replaced := (edit.acceptedIds criteria field values).length
            ended := (edit.ownIds field values).length }
        (edit.retired criteria field values site) := by
  rw [retire_ok some answer, acceptedIds_ownEnded keyed, countStored_ownIds keyed]
  rfl

/-! ## A second time -/

theorem ownEnded_retired : (edit.retired criteria field values site).ownEnded field values =
    edit.retired criteria field values site := by
  have none : (edit.retired criteria field values site).ownIds field values = [] :=
    ownIds_ownEnded keyed
  unfold ownEnded
  rw [none]
  rfl

/--
If the ancestors are found as they were, there is nothing left to do.
-/
theorem retire_retired {site' : Site} (some : values ≠ ∅)
    (again : Criteria.ofCommit edit.commit site = .ok criteria site') :
    retire field values (edit.retired criteria field values site) =
      .ok {} { edit.retired criteria field values site with site := site' } := by
  have keyed' : (edit.retired criteria field values site).documents.Keyed := keyed_ownEnded keyed
  obtain ⟨criteria', answer, accepts⟩ :=
    Criteria.exists_build_insertMany (edit.acceptedIds criteria field values) again
  rw [← Commit.allReplaced_hide] at answer
  have none :
      (edit.retired criteria field values site).acceptedIds criteria' field values = [] := by
    rw [List.eq_nil_iff_forall_not_mem]
    intro id mem
    obtain ⟨d, found, elsewhere, due, accepted⟩ :=
      ((lists_acceptedIds keyed' criteria').mem_iff id).1 mem
    obtain ⟨accepted, other⟩ := (accepts d id (keyed' id d found) elsewhere).1 accepted
    apply other
    rw [← acceptedIds_ownEnded keyed]
    exact ((lists_acceptedIds (keyed_ownEnded keyed) criteria).mem_iff id).2
      ⟨d, found, elsewhere, due, accepted⟩
  have ended : (edit.retired criteria field values site).ownIds field values = [] :=
    ownIds_ownEnded keyed
  rw [retire_eq keyed' some answer, none, ended, retired_of_acceptedIds_eq_nil none,
    ownEnded_retired keyed]
  rfl

end

end Edit

end TemporalStore
