import TemporalStore.Proofs.Session.Visible
import TemporalStore.Proofs.Visibility.Inheritance

/-!
This module contains when two sessions differ on one branch only, so that every other branch shows
the same versions in both.
-/

namespace TemporalStore

/-! ## Documents of one branch -/

/--
Versions of one branch that had no end may have been ended at `t`, and versions that start at `t`
may have been added to it.
-/
structure Collection.Edited (c c' : Collection) (flat : String) (t : Timepoint) : Prop where
  kept : ∀ id d, c.get? id = some d → c'.get? id = some d ∨
    (d.path = flat ∧ d.ended = none ∧ c'.get? id = some { d with ended := some t })
  added : ∀ id d, c'.get? id = some d →
    (∃ d', c.get? id = some d') ∨ (d.path = flat ∧ d.start = t)

/--
The clause neither sees nor misses what is done on a branch at `t`: it is about another branch,
or as of an earlier timepoint.
-/
def Level.Blind (level : Level) (flat : String) (t : Timepoint) : Prop :=
  if level.inherited then level.timepoint < t else Path.flatten level.path ≠ flat

section

variable {level : Level} {flat : String} {t : Timepoint} {d : Document}

theorem Level.Blind.accepts_ended (h : level.Blind flat t) (path : d.path = flat)
    (current : d.ended = none) :
    level.toPredicate.accepts { d with ended := some t } ↔ level.toPredicate.accepts d := by
  unfold Blind at h
  cases inherited : level.inherited with
  | true =>
    rw [if_pos inherited] at h
    rw [accepts_inherited_iff inherited, accepts_inherited_iff inherited]
    simp [current, h]
  | false =>
    rw [if_neg (by simp [inherited])] at h
    rw [accepts_own_iff inherited, accepts_own_iff inherited]
    simp [path, Ne.symm h]

theorem Level.Blind.not_accepts_added (h : level.Blind flat t) (path : d.path = flat)
    (start : d.start = t) : ¬ level.toPredicate.accepts d := by
  unfold Blind at h
  cases inherited : level.inherited with
  | true =>
    rw [if_pos inherited] at h
    rw [accepts_inherited_iff inherited, start]
    rintro ⟨-, started, -⟩
    lia
  | false =>
    rw [if_neg (by simp [inherited])] at h
    rw [accepts_own_iff inherited, path]
    rintro ⟨same, -⟩
    exact h same.symm

end

namespace Collection.Edited

variable {c c' c'' : Collection} {flat : String} {t : Timepoint}

theorem refl (c : Collection) (flat : String) (t : Timepoint) : c.Edited c flat t where
  kept _ _ found := .inl found
  added _ d found := .inl ⟨d, found⟩

theorem trans (h : c.Edited c' flat t) (h' : c'.Edited c'' flat t) : c.Edited c'' flat t where
  kept := by
    intro id d found
    rcases h.kept id d found with same | ⟨path, current, ended⟩
    · exact h'.kept id d same
    · right
      rcases h'.kept id _ ended with same | ⟨-, current', -⟩
      · exact ⟨path, current, same⟩
      · simp at current'
  added := by
    intro id d found
    rcases h'.added id d found with ⟨d', found'⟩ | new
    · rcases h.added id d' found' with known | ⟨path, start⟩
      · exact .inl known
      · right
        rcases h'.kept id d' found' with same | ⟨-, -, ended⟩
        · rw [found, Option.some.injEq] at same
          rw [same]
          exact ⟨path, start⟩
        · rw [found, Option.some.injEq] at ended
          rw [ended]
          exact ⟨path, start⟩
    · exact .inr new

theorem ids_eq {criteria : Criteria} (h : c.Edited c' flat t) (keyed : c.Keyed)
    (keyed' : c'.Keyed) (blind : ∀ level ∈ criteria.levels, level.Blind flat t) :
    c'.ids criteria.toPredicate = c.ids criteria.toPredicate := by
  have accepts_ended : ∀ d : Document, d.path = flat → d.ended = none →
      (criteria.toPredicate.accepts { d with ended := some t } ↔
        criteria.toPredicate.accepts d) := by
    intro d path current
    rw [Criteria.accepts_toPredicate, Criteria.accepts_toPredicate]
    constructor
    · rintro ⟨level, mem, accepted⟩
      exact ⟨level, mem, ((blind level mem).accepts_ended path current).1 accepted⟩
    · rintro ⟨level, mem, accepted⟩
      exact ⟨level, mem, ((blind level mem).accepts_ended path current).2 accepted⟩
  apply keyed'.ids_ext keyed
  intro id
  rw [keyed'.mem_ids_iff, keyed.mem_ids_iff]
  -- a version that is there afterwards was there before, or no clause accepts it
  constructor
  · rintro ⟨d', found', accepted⟩
    rcases h.added id d' found' with ⟨d, found⟩ | ⟨path, start⟩
    · refine ⟨d, found, ?_⟩
      rcases h.kept id d found with same | ⟨path, current, ended⟩
      · rw [found', Option.some.injEq] at same
        rw [← same]
        exact accepted
      · rw [found', Option.some.injEq] at ended
        rw [ended] at accepted
        exact (accepts_ended d path current).1 accepted
    · obtain ⟨level, mem, accepted⟩ := Criteria.accepts_toPredicate.1 accepted
      exact absurd accepted ((blind level mem).not_accepts_added path start)
  · rintro ⟨d, found, accepted⟩
    rcases h.kept id d found with same | ⟨path, current, ended⟩
    · exact ⟨d, same, accepted⟩
    · exact ⟨_, ended, (accepts_ended d path current).2 accepted⟩

end Collection.Edited

/-! ## What a branch shows -/

namespace Session

section

variable {session next : Session} {path other : String} {row : BranchRow} {t : Timepoint}

/--
From one session to the next, nothing has happened but on one branch, and not before `t`.
-/
structure Apart (session next : Session) (path : String) (t : Timepoint) : Prop where
  last : ∀ q, Path.Valid q → q ≠ path →
    next.site.directory.index.last? q = session.site.directory.index.last? q
  before : session.site.directory.index.SameBefore next.site.directory.index t
  edited : session.documents.Edited next.documents (Path.flatten path) t

theorem Apart.refl (session : Session) (path : String) (t : Timepoint) :
    session.Apart session path t where
  last _ _ _ := rfl
  before := .refl _ t
  edited := .refl _ _ t

theorem Apart.trans {last : Session} (h : session.Apart next path t)
    (h' : next.Apart last path t) : session.Apart last path t where
  last q hq distinct := (h'.last q hq distinct).trans (h.last q hq distinct)
  before := h.before.trans h'.before
  edited := h.edited.trans h'.edited

theorem blind_criteria {index : RowIndex} {now : Timepoint} (h : index.Valid now) (later : now < t)
    (hp : Path.Valid path) (ho : Path.Valid other) (distinct : other ≠ path)
    (last : index.last? other = some row) :
    ∀ level ∈ (index.criteria row row.head row.replaced).levels,
      level.Blind (Path.flatten path) t := by
  have fits := h.fits_last ho last
  have rowPath := fits.path
  have base_le := fits.base_le
  have start_le := fits.start_le
  intro level mem
  unfold Level.Blind
  rcases List.mem_cons.1 mem with rfl | mem
  · -- the clause of the branch itself is about another path
    rw [if_neg Bool.false_ne_true, rowPath, ne_eq, Path.flatten_inj ho hp]
    exact distinct
  · -- an inherited clause is as of a base, and every base was issued before
    rw [rowPath] at mem
    have valid := fun q => @Path.valid_of_mem_ancestors other q ho
    obtain ⟨inherited, -, time⟩ := h.of_mem_levels valid mem
    rw [if_pos inherited]
    lia

theorem visible_of_apart (sound : session.Sound) (sound' : next.Sound)
    (apart : session.Apart next path t) (later : session.site.directory.clock.last < t)
    (hp : Path.Valid path) (ho : Path.Valid other) (distinct : other ≠ path) :
    next.visible other = session.visible other := by
  have valid := sound.site.consistent.valid
  have same := apart.last other ho distinct
  cases last : session.site.directory.index.last? other with
  | none =>
    rw [last] at same
    rw [visible_of_absent sound ho last, visible_of_absent sound' ho same]
  | some row =>
    rw [last] at same
    have fits := valid.fits_last ho last
    have rowPath := fits.path
    have base_le := fits.base_le
    have start_le := fits.start_le
    have earlier : row.base < t := by lia
    rw [← rowPath] at ho
    have criteria := RowIndex.criteria_of_sameBefore valid apart.before ho earlier row.head
      row.replaced
    rw [rowPath] at ho
    have blind := blind_criteria valid later hp ho distinct last
    rw [visible_eq sound ho last, visible_eq sound' ho same, criteria,
      apart.edited.ids_eq sound.keyed sound'.keyed blind]

end

end Session

end TemporalStore
