import TemporalStore.Proofs.Visibility.Inheritance

/-!
This module contains what is inherited from ancestors, step by step: as of which timepoint from
each of them, by which of its rows, and with which versions hidden.
-/

namespace TemporalStore

/--
Step `i` is about ancestor number `i`, where number 0 is the branch itself.
-/
structure Lineage where
  row : Nat → BranchRow
  asOf : Nat → Timepoint
  hidden : Nat → OrderedSet VersionId

namespace Lineage

/--
The steps from a row up to its root. Each ancestor is inherited as of the base of the row below it,
through the only row of its timeline that was valid then, and what that row has replaced is hidden
from there on.
-/
structure Ascends (lineage : Lineage) (index : RowIndex) (paths : List String) : Prop where
  covering : ∀ i path, paths[i]? = some path → ∀ row,
    row ∈ index.timeline path ∧ row.covers (lineage.asOf (i + 1)) ↔ row = lineage.row (i + 1)
  asOf : ∀ i ≤ paths.length, lineage.asOf (i + 1) = (lineage.row i).base
  hidden : ∀ i < paths.length,
    lineage.hidden (i + 1) = lineage.hidden i ∪ (lineage.row (i + 1)).replaced
  falls : ∀ i ≤ paths.length, lineage.asOf (i + 1) ≤ lineage.asOf i
  grows : ∀ i < paths.length, ∀ id ∈ lineage.hidden i, id ∈ lineage.hidden (i + 1)

def inheritedLevel (lineage : Lineage) (i : Nat) (path : String) : Level where
  path
  timepoint := lineage.asOf (i + 1)
  inherited := true
  excluded := lineage.hidden (i + 1)

/--
The clause of the branch `path` itself, and one for each ancestor.
-/
def levels (lineage : Lineage) (path : String) : List Level :=
  { path, timepoint := lineage.asOf 0, inherited := false } ::
    (Path.ancestors path).mapIdx lineage.inheritedLevel

/--
A document is shown on the branch `path` if it was written there and is still live, or if it was
written on an ancestor, was live as of the timepoint of inheritance and is not hidden.
-/
def Shows (lineage : Lineage) (path : String) (d : Document) : Prop :=
  (d.path = Path.flatten path ∧ d.start ≤ lineage.asOf 0 ∧ d.ended = none) ∨
    ∃ i ancestor, (Path.ancestors path)[i]? = some ancestor ∧ d.path = Path.flatten ancestor ∧
      d.start ≤ lineage.asOf (i + 1) ∧ (∀ e, d.ended = some e → lineage.asOf (i + 1) < e) ∧
        ∀ id, d.id = some id → id ∉ lineage.hidden (i + 1)

/--
The same steps after one more at the start.
-/
def after (lineage : Lineage) (row : BranchRow) (t : Timepoint) (hidden : OrderedSet VersionId) :
    Lineage where
  row i := if i = 0 then row else lineage.row (i - 1)
  asOf i := if i = 0 then t else lineage.asOf (i - 1)
  hidden i := if i = 0 then hidden else lineage.hidden (i - 1)

theorem ascends_after {lineage : Lineage} {index : RowIndex} {now t : Timepoint} {path : String}
    {paths : List String} {row above : BranchRow} {hidden : OrderedSet VersionId}
    (valid : index.Valid now) (h : lineage.Ascends index paths)
    (covering : index.covering? path row.base = some above) (le : row.base ≤ t)
    (first : lineage.row 0 = above) (time : lineage.asOf 0 = row.base)
    (hides : lineage.hidden 0 = hidden ∪ above.replaced) :
    (lineage.after row t hidden).Ascends index (path :: paths) where
  covering := by
    intro i path' there row'
    cases i with
    | zero =>
      obtain rfl : path = path' := by simpa using there
      simp only [after, Nat.zero_add, Nat.one_ne_zero, if_false, Nat.sub_self, first, time]
      rw [← valid.covering?_eq_some_iff, covering]
      simp [eq_comm]
    | succ i =>
      rw [List.getElem?_cons_succ] at there
      exact h.covering i path' there row'
  asOf := by
    intro i le'
    cases i with
    | zero => exact time
    | succ i => exact h.asOf i (by simpa using le')
  hidden := by
    intro i lt
    cases i with
    | zero =>
      simp only [after, Nat.zero_add, Nat.one_ne_zero, if_false, if_true, Nat.sub_self]
      rw [hides, first]
    | succ i => exact h.hidden i (by simpa using lt)
  falls := by
    intro i le'
    cases i with
    | zero =>
      change lineage.asOf 0 ≤ t
      rw [time]
      exact le
    | succ i => exact h.falls i (by simpa using le')
  grows := by
    intro i lt
    cases i with
    | zero =>
      intro id mem
      change id ∈ lineage.hidden 0
      rw [hides]
      exact OrderedSet.mem_union.2 (.inl mem)
    | succ i => exact h.grows i (by simpa using lt)

end Lineage

namespace RowIndex

variable {index : RowIndex} {now : Timepoint}

/--
The clauses of the ancestors are those of the steps up to the root.
-/
theorem Valid.exists_lineage {paths : List String} {row : BranchRow} {t : Timepoint}
    (h : index.Valid now) (valid : ∀ path ∈ paths, Path.Valid path)
    (covered : index.Covered paths row.base) (le : row.base ≤ t) (hidden : OrderedSet VersionId) :
    ∃ lineage : Lineage, lineage.Ascends index paths ∧ lineage.row 0 = row ∧
      lineage.asOf 0 = t ∧ lineage.hidden 0 = hidden ∧
        index.levels paths row.base hidden = paths.mapIdx lineage.inheritedLevel := by
  induction paths generalizing row t hidden with
  | nil =>
    refine ⟨⟨fun _ => row, fun i => if i = 0 then t else row.base, fun _ => hidden⟩, ?_, rfl, rfl,
      rfl, rfl⟩
    constructor <;> simp
    exact le
  | cons path paths ih =>
    obtain ⟨above, covering, rest⟩ := covered
    have hp := valid path List.mem_cons_self
    obtain ⟨mem, covers⟩ := h.covering?_eq_some_iff.1 covering
    have fits := h.fits path hp above mem
    have rowPath := fits.path
    have base_le := fits.base_le
    simp only [BranchRow.covers, Bool.and_eq_true, decide_eq_true_eq] at covers
    have falls : above.base ≤ row.base := by lia
    obtain ⟨lineage, ascends, first, time, hides, levels⟩ :=
      ih (fun q hq => valid q (List.mem_cons_of_mem _ hq)) rest falls (hidden ∪ above.replaced)
    refine ⟨lineage.after row t hidden,
      Lineage.ascends_after h ascends covering le first time hides, rfl, rfl, rfl, ?_⟩
    have own : (lineage.after row t hidden).inheritedLevel 0 path =
        { path := above.path, timepoint := row.base, inherited := true,
          excluded := hidden ∪ above.replaced } := by
      rw [rowPath, ← time, ← hides]
      rfl
    have further : (fun i => (lineage.after row t hidden).inheritedLevel (i + 1)) =
        lineage.inheritedLevel := rfl
    unfold RowIndex.levels
    rw [List.mapIdx_cons, covering, own, further, ← levels]

end RowIndex

namespace Criteria

theorem accepts_eq (criteria : Criteria) (d : Document) :
    criteria.accepts d = criteria.toPredicate.accepts d := by
  have h : criteria.accepts d = true ↔ criteria.toPredicate.accepts d = true := by
    rw [accepts_toPredicate, accepts, List.any_eq_true]
  exact Bool.eq_iff_iff.2 h

theorem accepts_iff_shows {criteria : Criteria} {lineage : Lineage} {path : String}
    (levels : criteria.levels = lineage.levels path) (d : Document) :
    criteria.accepts d ↔ lineage.Shows path d := by
  rw [accepts_eq, accepts_toPredicate, levels]
  unfold Lineage.levels
  simp only [List.mem_cons, exists_eq_or_imp]
  apply or_congr
  · exact Level.accepts_own_iff rfl
  · constructor
    · rintro ⟨level, mem, accepts⟩
      obtain ⟨i, lt, rfl⟩ := List.mem_mapIdx.1 mem
      exact ⟨i, _, List.getElem?_eq_getElem lt, (Level.accepts_inherited_iff rfl).1 accepts⟩
    · rintro ⟨i, ancestor, there, shown⟩
      obtain ⟨lt, rfl⟩ := List.getElem?_eq_some_iff.1 there
      exact ⟨_, List.mem_mapIdx.2 ⟨i, lt, rfl⟩, (Level.accepts_inherited_iff rfl).2 shown⟩

/--
The criteria are those of the steps from a row up to its root, when it is looked at as of `t` with
the given versions hidden.
-/
def Inherits (criteria : Criteria) (index : RowIndex) (row : BranchRow) (t : Timepoint)
    (hidden : OrderedSet VersionId) : Prop :=
  ∃ lineage : Lineage, lineage.Ascends index (Path.ancestors row.path) ∧ lineage.row 0 = row ∧
    lineage.asOf 0 = t ∧ lineage.hidden 0 = hidden ∧
    criteria.levels = lineage.levels row.path ∧
    ∀ d, criteria.accepts d = criteria.toPredicate.accepts d ∧
      (criteria.accepts d ↔ lineage.Shows row.path d)

variable {site : Site} {now t : Timepoint} {row : BranchRow}

theorem build_inherits (h : site.directory.index.Valid now)
    (agrees : site.directory.history.Agrees site.directory.index) (hp : Path.Valid row.path)
    (covered : site.directory.index.Covered (Path.ancestors row.path) row.base)
    (le : row.base ≤ t) (hidden : OrderedSet VersionId) :
    ∃ criteria history, build row t hidden site = .ok criteria (site.withHistory history) ∧
      criteria.Inherits site.directory.index row t hidden := by
  obtain ⟨history, -, answer⟩ := build_of_covered h agrees covered t hidden
  have valid : ∀ path ∈ Path.ancestors row.path, Path.Valid path :=
    fun path mem => Path.valid_of_mem_ancestors hp mem
  obtain ⟨lineage, ascends, first, time, hides, above⟩ :=
    h.exists_lineage valid covered le hidden
  have levels : (site.directory.index.criteria row t hidden).levels =
      lineage.levels row.path := by
    unfold RowIndex.criteria Lineage.levels
    rw [above, time]
  refine ⟨_, history, answer, lineage, ascends, first, time, hides, levels, ?_⟩
  intro d
  exact ⟨accepts_eq _ d, accepts_iff_shows levels d⟩

end Criteria

end TemporalStore
