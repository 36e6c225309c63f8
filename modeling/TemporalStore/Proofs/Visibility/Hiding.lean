import TemporalStore.Proofs.Document.Collection
import TemporalStore.Proofs.Visibility.Inheritance

/-!
This module contains what becomes of the criteria of a commit when it hides versions.
-/

namespace TemporalStore

namespace Level

def hide (level : Level) (ids : List VersionId) : Level :=
  { level with excluded := level.excluded.insertMany ids }

theorem accepts_hide_iff {level : Level} {d : Document} {id : VersionId} {ids : List VersionId}
    (h : level.inherited = true) (known : d.id = some id) :
    (level.hide ids).toPredicate.accepts d ↔ level.toPredicate.accepts d ∧ id ∉ ids := by
  have inherited : (level.hide ids).inherited = true := h
  rw [accepts_inherited_iff inherited, accepts_inherited_iff h]
  unfold hide
  simp only [known, Option.some.injEq, forall_eq', OrderedSet.mem_insertMany, not_or]
  grind

theorem exists_hide_iff {levels : List Level} (h : ∀ level ∈ levels, level.inherited = true)
    {d : Document} {id : VersionId} {ids : List VersionId} (known : d.id = some id) :
    (∃ level ∈ levels.map (·.hide ids), level.toPredicate.accepts d) ↔
      (∃ level ∈ levels, level.toPredicate.accepts d) ∧ id ∉ ids := by
  constructor
  · rintro ⟨_, mapped, accepted⟩
    obtain ⟨level, mem, rfl⟩ := List.mem_map.1 mapped
    obtain ⟨accepted, other⟩ := (accepts_hide_iff (h level mem) known).1 accepted
    exact ⟨⟨level, mem, accepted⟩, other⟩
  · rintro ⟨⟨level, mem, accepted⟩, other⟩
    refine ⟨level.hide ids, List.mem_map_of_mem mem, ?_⟩
    exact (accepts_hide_iff (h level mem) known).2 ⟨accepted, other⟩

end Level

theorem OrderedSet.insertMany_union {α : Type} [Ord α] [Std.TransOrd α] [Std.LawfulEqOrd α]
    (s t : OrderedSet α) (xs : List α) : s.insertMany xs ∪ t = (s ∪ t).insertMany xs := by
  apply OrderedSet.ext
  intro x
  simp only [OrderedSet.mem_union, OrderedSet.mem_insertMany]
  grind

namespace RowIndex

variable {index : RowIndex} {now t : Timepoint} {row : BranchRow} {d : Document}

theorem levels_insertMany (paths : List String) (base : Timepoint) (hidden : OrderedSet VersionId)
    (ids : List VersionId) :
    index.levels paths base (hidden.insertMany ids) =
      (index.levels paths base hidden).map (·.hide ids) := by
  induction paths generalizing base hidden with
  | nil => rfl
  | cons path paths ih =>
    unfold levels
    cases index.covering? path base with
    | none => rfl
    | some row =>
      simp only [OrderedSet.insertMany_union, ih, List.map_cons]
      rfl

def Inherits (index : RowIndex) (row : BranchRow) (hidden : OrderedSet VersionId)
    (d : Document) : Prop :=
  ∃ level ∈ index.levels (Path.ancestors row.path) row.base hidden, level.toPredicate.accepts d

theorem accepts_criteria_iff {hidden : OrderedSet VersionId} :
    (index.criteria row t hidden).toPredicate.accepts d ↔
      (d.path = row.flatPath ∧ d.start ≤ t ∧ d.ended = none) ∨ index.Inherits row hidden d := by
  rw [Criteria.accepts_toPredicate]
  unfold criteria Inherits
  rw [List.exists_mem_cons_iff, Level.accepts_own_iff rfl]
  rfl

/--
A row that has just begun hides nothing, so what it inherits is what its parent had as of its base.
-/
theorem accepts_fresh_iff {path parent : String} {base : Timepoint} {parentRow : BranchRow}
    (above : Path.parent? path = some parent)
    (covering : index.covering? parent base = some parentRow) :
    (index.criteria (.fresh path base t) t ∅).toPredicate.accepts d ↔
      (d.path = Path.flatten path ∧ d.start ≤ t ∧ d.ended = none) ∨
        (Level.toPredicate ⟨parentRow.path, base, true, parentRow.replaced⟩).accepts d ∨
          ∃ level ∈ index.levels (Path.ancestors parent) parentRow.base parentRow.replaced,
            level.toPredicate.accepts d := by
  have nothing : (∅ : OrderedSet VersionId) ∪ parentRow.replaced = parentRow.replaced := by
    apply OrderedSet.ext
    intro id
    simp [OrderedSet.mem_union]
  rw [accepts_criteria_iff]
  unfold Inherits
  change _ ∨ (∃ level ∈ index.levels (Path.ancestors path) base ∅, _) ↔ _
  rw [Path.ancestors_of_parent?_eq_some above, levels, covering]
  simp only [List.exists_mem_cons_iff, nothing]
  rfl

theorem Valid.inherits_insertMany_iff (h : index.Valid now) (hp : Path.Valid row.path)
    {hidden : OrderedSet VersionId} {ids : List VersionId} {id : VersionId}
    (known : d.id = some id) :
    index.Inherits row (hidden.insertMany ids) d ↔ index.Inherits row hidden d ∧ id ∉ ids := by
  have valid := fun q => @Path.valid_of_mem_ancestors row.path q hp
  have inherited : ∀ level ∈ index.levels (Path.ancestors row.path) row.base hidden,
      level.inherited = true := fun level mem => (h.of_mem_levels valid mem).1
  unfold Inherits
  rw [levels_insertMany]
  exact Level.exists_hide_iff inherited known

/--
What a branch inherits was not written on it.
-/
theorem Valid.path_ne_of_inherits (h : index.Valid now) (hp : Path.Valid row.path)
    {hidden : OrderedSet VersionId} (inherits : index.Inherits row hidden d) :
    d.path ≠ row.flatPath := by
  obtain ⟨level, mem, accepted⟩ := inherits
  obtain ⟨inherited, above, -⟩ :=
    h.of_mem_levels (fun q => Path.valid_of_mem_ancestors hp) mem
  obtain ⟨path, -⟩ := (Level.accepts_inherited_iff inherited).1 accepted
  rw [path]
  unfold BranchRow.flatPath
  rw [ne_eq, Path.flatten_inj (Path.valid_of_mem_ancestors hp above) hp]
  intro same
  rw [same] at above
  exact Path.not_mem_ancestors_self row.path above

theorem inherits_of_sameBefore {index' : RowIndex} (h : index.Valid now) (hp : Path.Valid row.path)
    (same : index.SameBefore index' t) (before : row.base < t) (hidden : OrderedSet VersionId) :
    index'.Inherits row hidden d ↔ index.Inherits row hidden d := by
  have valid := fun q => @Path.valid_of_mem_ancestors row.path q hp
  unfold Inherits
  rw [levels_of_sameBefore h same valid before hidden]

end RowIndex

namespace Commit

theorem allReplaced_hide (commit : Commit) (ids : List VersionId) :
    (commit.hide ids).allReplaced = commit.allReplaced.insertMany ids := by
  apply OrderedSet.ext
  intro id
  unfold allReplaced hide
  simp only [OrderedSet.mem_union, OrderedSet.mem_insertMany]
  grind

end Commit

end TemporalStore
