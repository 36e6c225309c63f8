import TemporalStore.Proofs.Visibility.Edit

/-!
This module contains what inherited clauses depend on: the rows that were valid before the
timepoint of a change, which no change touches.
-/

namespace TemporalStore

/--
What those who inherit from a row get to know of it.
-/
def BranchRow.heritage (row : BranchRow) : String × Timepoint × OrderedSet VersionId :=
  (row.path, row.base, row.replaced)

namespace RowIndex

/--
Nobody who inherits from before `t` can tell the two apart.
-/
def SameBefore (index index' : RowIndex) (t : Timepoint) : Prop :=
  ∀ path u, Path.Valid path → u < t →
    (index'.covering? path u).map BranchRow.heritage =
      (index.covering? path u).map BranchRow.heritage

section

variable {index index' : RowIndex} {now t u : Timepoint} {path : String} {row : BranchRow}

theorem SameBefore.refl (index : RowIndex) (t : Timepoint) : index.SameBefore index t :=
  fun _ _ _ _ => rfl

theorem SameBefore.trans {index'' : RowIndex} (h : index.SameBefore index' t)
    (h' : index'.SameBefore index'' t) : index.SameBefore index'' t := by
  intro path u hp before
  rw [h' path u hp before, h path u hp before]

theorem SameBefore.mono (h : index.SameBefore index' t) {earlier : Timepoint} (le : earlier ≤ t) :
    index.SameBefore index' earlier :=
  fun path u hp before => h path u hp (Int.lt_of_lt_of_le before le)

theorem covering?_put (index : RowIndex) (rows : List BranchRow) {q : String}
    (hp : Path.Valid path) (hq : Path.Valid q) :
    (index.put path rows).covering? q u =
      if q = path then rows.find? (·.covers u) else index.covering? q u := by
  unfold covering?
  split
  · rename_i same
    rw [same, timeline_put_self]
  · rename_i other
    rw [timeline_put_of_ne index rows hp hq other]

theorem sameBefore_put {rows : List BranchRow} (hp : Path.Valid path)
    (last : index.last? path = some row)
    (same : ∀ u < t, (rows.find? (·.covers u)).map BranchRow.heritage =
      if row.covers u then some row.heritage else none) :
    index.SameBefore (index.put path ((index.timeline path).dropLast ++ rows)) t := by
  intro q u hq before
  rw [covering?_put index _ hp hq]
  split
  · rename_i here
    obtain ⟨closed, hc⟩ := eq_append_of_last? last
    unfold covering?
    rw [here, hc, List.dropLast_concat, List.find?_append, List.find?_append]
    -- the rows before are searched first, and are the same
    cases closed.find? (·.covers u) with
    | some found => rfl
    | none =>
      rw [Option.none_or, Option.none_or, same u before]
      by_cases covers : row.covers u
      · simp [covers]
      · simp [covers]
  · rfl

/--
A branch that begins at `t` is not there before.
-/
theorem sameBefore_begin (hp : Path.Valid path) (absent : index.last? path = none)
    (start : row.start = t) : index.SameBefore (index.put path [row]) t := by
  intro q u hq before
  rw [covering?_put index _ hp hq]
  split
  · rename_i here
    have later : row.covers u = false := by
      simp only [BranchRow.covers, start, Bool.and_eq_false_imp, decide_eq_true_eq]
      lia
    unfold covering?
    rw [here, last?_eq_none_iff.1 absent, List.find?_singleton, later]
    rfl
  · rfl

theorem sameBefore_setLocked (index : RowIndex) (t : Timepoint) (hp : Path.Valid path)
    (locked : Bool) : index.SameBefore (index.setLocked path locked) t := by
  cases last : index.last? path with
  | none =>
    rw [setLocked_of_last?_eq_none last]
    exact .refl index t
  | some row =>
    rw [setLocked_of_last? last]
    apply sameBefore_put hp last
    intro u _
    have same : BranchRow.covers { row with locked } u = row.covers u := rfl
    rw [List.find?_singleton, same]
    split
    · rfl
    · rfl

theorem Valid.sameBefore_advance (h : index.Valid now) {new : BranchRow} (hp : Path.Valid path)
    (last : index.last? path = some row) (start : new.start = t) :
    index.SameBefore (index.advance path (row.close t) new) t := by
  apply sameBefore_put hp last
  intro u before
  have ended := h.ended_last last
  have covers : (row.close t).covers u = row.covers u := by
    simp [BranchRow.covers, BranchRow.close, ended, before]
    rfl
  -- the new row only begins at `t`
  have later : new.covers u = false := by
    simp only [BranchRow.covers, start, Bool.and_eq_false_imp, decide_eq_true_eq]
    lia
  simp only [List.find?_cons, covers, later, List.find?_nil]
  split
  · rename_i covers
    simp [covers]
    rfl
  · rename_i covers
    simp [covers]

end

/-! ## Clauses -/

section

variable {index index' : RowIndex} {now t base : Timepoint} {paths : List String}

theorem levels_of_sameBefore (h : index.Valid now) (same : index.SameBefore index' t)
    (valid : ∀ path ∈ paths, Path.Valid path) (before : base < t)
    (hidden : OrderedSet VersionId) :
    index'.levels paths base hidden = index.levels paths base hidden := by
  induction paths generalizing base hidden with
  | nil => rfl
  | cons path paths ih =>
    have hp := valid path List.mem_cons_self
    have heritage := same path base hp before
    unfold levels
    cases covering : index.covering? path base with
    | none =>
      rw [covering, Option.map_none, Option.map_eq_none_iff] at heritage
      rw [heritage]
    | some row =>
      rw [covering, Option.map_some, Option.map_eq_some_iff] at heritage
      obtain ⟨row', covering', alike⟩ := heritage
      simp only [BranchRow.heritage, Prod.mk.injEq] at alike
      obtain ⟨path', base', replaced⟩ := alike
      obtain ⟨mem, covers⟩ := h.covering?_eq_some_iff.1 covering
      -- what a row inherits is no later than its start, which is no later than what it covers
      have base_le := (h.fits path hp row mem).base_le
      simp only [BranchRow.covers, Bool.and_eq_true, decide_eq_true_eq] at covers
      have earlier : row.base < t := by lia
      have rest := ih (fun q hq => valid q (List.mem_cons_of_mem _ hq)) earlier
        (hidden ∪ row.replaced)
      rw [covering']
      simp only [path', base', replaced, rest]

theorem criteria_of_sameBefore {row : BranchRow} (h : index.Valid now)
    (same : index.SameBefore index' t) (hp : Path.Valid row.path) (before : row.base < t)
    (u : Timepoint) (hidden : OrderedSet VersionId) :
    index'.criteria row u hidden = index.criteria row u hidden := by
  have valid := fun q => @Path.valid_of_mem_ancestors row.path q hp
  unfold criteria
  rw [levels_of_sameBefore h same valid before hidden]

/--
An inherited clause is about an ancestor, as of a timepoint not after the one from which the first
ancestor is inherited.
-/
theorem Valid.of_mem_levels (h : index.Valid now) (valid : ∀ path ∈ paths, Path.Valid path)
    {hidden : OrderedSet VersionId} {level : Level}
    (mem : level ∈ index.levels paths base hidden) :
    level.inherited = true ∧ level.path ∈ paths ∧ level.timepoint ≤ base := by
  induction paths generalizing base hidden with
  | nil => simp [levels] at mem
  | cons path paths ih =>
    have hp := valid path List.mem_cons_self
    unfold levels at mem
    cases covering : index.covering? path base with
    | none => simp [covering] at mem
    | some row =>
      rw [covering] at mem
      obtain ⟨stored, covers⟩ := h.covering?_eq_some_iff.1 covering
      have fits := h.fits path hp row stored
      have rowPath := fits.path
      have base_le := fits.base_le
      simp only [BranchRow.covers, Bool.and_eq_true, decide_eq_true_eq] at covers
      rcases List.mem_cons.1 mem with rfl | mem
      · exact ⟨rfl, by simp [rowPath], Int.le_refl _⟩
      · obtain ⟨inherited, known, time⟩ := ih (fun q hq => valid q (List.mem_cons_of_mem _ hq)) mem
        refine ⟨inherited, List.mem_cons_of_mem _ known, ?_⟩
        lia

end

end RowIndex

/-! ## What clauses accept -/

namespace Level

theorem accepts_own_iff {level : Level} {d : Document} (h : level.inherited = false) :
    level.toPredicate.accepts d ↔
      d.path = Path.flatten level.path ∧ d.start ≤ level.timepoint ∧ d.ended = none := by
  unfold toPredicate
  rw [h]
  simp [Predicate.accepts, and_assoc]

theorem accepts_inherited_iff {level : Level} {d : Document} (h : level.inherited = true) :
    level.toPredicate.accepts d ↔
      d.path = Path.flatten level.path ∧ d.start ≤ level.timepoint ∧
        (∀ e, d.ended = some e → level.timepoint < e) ∧
        ∀ id, d.id = some id → id ∉ level.excluded := by
  unfold toPredicate
  rw [h]
  cases ended : d.ended with
  | none => cases known : d.id <;> simp [Predicate.accepts, ended, known, and_assoc]
  | some e => cases known : d.id <;> simp [Predicate.accepts, ended, known, and_assoc]

end Level

namespace Criteria

theorem accepts_toPredicate {criteria : Criteria} {d : Document} :
    criteria.toPredicate.accepts d ↔
      ∃ level ∈ criteria.levels, level.toPredicate.accepts d := by
  unfold toPredicate
  simp

end Criteria

end TemporalStore
