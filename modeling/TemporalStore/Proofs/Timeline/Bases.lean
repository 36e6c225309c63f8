import TemporalStore.Proofs.Timeline.Rows

/-!
This module contains what branches are based on: a row is based on the start of a row of its parent,
and the rows of a branch on later and later ones.
-/

namespace TemporalStore.RowIndex

variable {index index' : RowIndex} {now t : Timepoint} {path parent : String}
  {row new core : BranchRow}

/--
A row of the branch starts at `t`, whatever has become of it since.
-/
def StartsAt (index : RowIndex) (path : String) (t : Timepoint) : Prop :=
  ∃ core, index.Stores path core ∧ core.start = t

structure Anchored (index : RowIndex) : Prop where
  onward : ∀ path, Path.Valid path → ∀ a b, index.Stores path a → index.Stores path b →
    a.start < b.start → a.base ≤ b.base
  above : ∀ path parent, Path.Valid path → Path.parent? path = some parent →
    ∀ core, index.Stores path core → index.StartsAt parent core.base

theorem startsAt_of_last? (last : index.last? path = some row) :
    index.StartsAt path row.start :=
  ⟨row.core, stores_of_last? last, rfl⟩

theorem StartsAt.mono (h : index.StartsAt path t)
    (keeps : ∀ core, index.Stores path core → index'.Stores path core) :
    index'.StartsAt path t := by
  obtain ⟨core, stored, start⟩ := h
  exact ⟨core, keeps core stored, start⟩

theorem StartsAt.exists_last (h : index.StartsAt path t) :
    ∃ last, index.last? path = some last := by
  obtain ⟨core, ⟨row, mem, -⟩, -⟩ := h
  exact ⟨_, List.getLast?_eq_some_getLast (List.ne_nil_of_mem mem)⟩

theorem not_stores_empty : ¬ ({} : RowIndex).Stores path core := by
  rintro ⟨row, mem, -⟩
  simp [timeline] at mem

theorem not_stores_of_absent (absent : index.last? path = none) : ¬ index.Stores path core := by
  rintro ⟨row, mem, -⟩
  rw [last?_eq_none_iff.1 absent] at mem
  cases mem

theorem anchored_empty : Anchored {} where
  onward _ _ _ _ stored := absurd stored not_stores_empty
  above _ _ _ _ _ stored := absurd stored not_stores_empty

theorem Valid.start_le_last (h : index.Valid now) (last : index.last? path = some row)
    (stored : index.Stores path core) : core.start ≤ row.start := by
  obtain ⟨r, mem, rfl⟩ := stored
  obtain ⟨row', last', le⟩ := h.exists_last mem
  rw [last, Option.some.injEq] at last'
  rw [last']
  exact le

theorem Valid.startsAt_le (h : index.Valid now) (last : index.last? path = some row)
    (starts : index.StartsAt path t) : t ≤ row.start := by
  obtain ⟨core, stored, rfl⟩ := starts
  exact h.start_le_last last stored

/--
If a row of the branch starts after `t`, the current one does.
-/
theorem Valid.exists_later_iff (h : index.Valid now) (last : index.last? path = some row) :
    (∃ r ∈ index.timeline path, t < r.start) ↔ t < row.start := by
  constructor
  · rintro ⟨r, mem, later⟩
    have le := h.start_le_last last (stores_of_mem mem)
    exact Int.lt_of_lt_of_le later le
  · intro later
    exact ⟨row, List.mem_of_getLast? last, later⟩

/--
Rows of one branch that start at the same time are the same row.
-/
theorem Valid.eq_of_start_eq (h : index.Valid now) {a b : BranchRow}
    (ha : a ∈ index.timeline path) (hb : b ∈ index.timeline path) (same : a.start = b.start) :
    a = b := by
  have distinct : ((index.timeline path).map BranchRow.start).Nodup := by
    refine List.pairwise_map.2 ((h.tiles path).pairwise_start.imp ?_)
    intro a b earlier
    exact Int.ne_of_lt earlier
  exact List.inj_on_of_nodup_map distinct ha hb same

theorem Valid.core_eq_last (h : index.Valid now) (last : index.last? path = some row)
    (stored : index.Stores path core) (same : core.start = row.start) : core = row.core := by
  obtain ⟨r, mem, rfl⟩ := stored
  obtain ⟨closed, rows⟩ := eq_append_of_last? last
  rw [h.eq_of_start_eq mem (by simp [rows]) same]

namespace Anchored

/--
The current row has the latest base of all rows of its branch.
-/
theorem base_le_last (h : index.Anchored) (valid : index.Valid now) (hp : Path.Valid path)
    (last : index.last? path = some row) (stored : index.Stores path core) :
    core.base ≤ row.base := by
  rcases Int.lt_or_eq_of_le (valid.start_le_last last stored) with earlier | same
  · exact h.onward path hp core row.core stored (stores_of_last? last) earlier
  · rw [valid.core_eq_last last stored same]
    exact Int.le_refl _

theorem pairwise_base (h : index.Anchored) (valid : index.Valid now) (hp : Path.Valid path) :
    (index.timeline path).Pairwise fun a b => a.base ≤ b.base := by
  have sorted := (valid.tiles path).pairwise_start
  refine sorted.imp_of_mem ?_
  intro a b ha hb earlier
  exact h.onward path hp a.core b.core (stores_of_mem ha) (stores_of_mem hb) earlier

/-! ## After a change -/

/--
A row that comes after all others of its branch may be added if its base does not go back.
-/
theorem add (h : index.Anchored) (hp : Path.Valid path)
    (keeps : ∀ q core, Path.Valid q → index.Stores q core → index'.Stores q core)
    (adds : ∀ q core, Path.Valid q → index'.Stores q core →
      index.Stores q core ∨ q = path ∧ core = new.core)
    (onward : ∀ core, index.Stores path core → core.start < new.start ∧ core.base ≤ new.base)
    (above : ∀ parent, Path.parent? path = some parent → index.StartsAt parent new.base) :
    index'.Anchored where
  onward := by
    intro q hq a b ha hb earlier
    rcases adds q a hq ha with ha | ⟨rfl, rfl⟩
    · rcases adds q b hq hb with hb | ⟨rfl, rfl⟩
      · exact h.onward q hq a b ha hb earlier
      · exact (onward a ha).2
    · rcases adds q b hq hb with hb | ⟨-, rfl⟩
      · -- what was there before does not come after the new row
        have before := (onward b hb).1
        change new.start < b.start at earlier
        lia
      · exact Int.le_refl _
  above := by
    intro q parent hq hparent core stored
    have valid := Path.valid_of_parent? hq hparent
    have kept : ∀ core, index.Stores parent core → index'.Stores parent core :=
      fun core => keeps parent core valid
    rcases adds q core hq stored with stored | ⟨rfl, rfl⟩
    · exact (h.above q parent hq hparent core stored).mono kept
    · exact (above parent hparent).mono kept

theorem begin (h : index.Anchored) (hp : Path.Valid path) (absent : index.last? path = none)
    (above : ∀ parent, Path.parent? path = some parent → index.StartsAt parent row.base) :
    (index.put path [row]).Anchored := by
  refine h.add hp ?_ ?_ ?_ above
  · intro q core hq stored
    exact stored.put_singleton hp hq absent row
  · intro q core hq stored
    rcases stores_put hp hq stored with stored | ⟨same, r, mem, rfl⟩
    · exact .inl stored
    · rw [List.mem_singleton.1 mem]
      exact .inr ⟨same, rfl⟩
  · intro core stored
    exact absurd stored (not_stores_of_absent absent)

theorem setLocked (h : index.Anchored) (hp : Path.Valid path) (locked : Bool) :
    (index.setLocked path locked).Anchored where
  onward q hq a b ha hb :=
    h.onward q hq a b (stores_setLocked hp hq ha) (stores_setLocked hp hq hb)
  above := by
    intro q parent hq hparent core stored
    have valid := Path.valid_of_parent? hq hparent
    exact (h.above q parent hq hparent core (stores_setLocked hp hq stored)).mono
      fun core stored => stored.setLocked hp valid locked

theorem advance (h : index.Anchored) (valid : index.Valid now) (hp : Path.Valid path)
    (last : index.last? path = some row) (t : Timepoint) (new : BranchRow)
    (later : row.start < new.start) (onward : row.base ≤ new.base)
    (above : ∀ parent, Path.parent? path = some parent → index.StartsAt parent new.base) :
    (index.advance path (row.close t) new).Anchored := by
  refine h.add hp ?_ ?_ ?_ above
  · intro q core hq stored
    exact stored.advance hp hq last t new
  · intro q core hq stored
    exact stores_advance hp hq last stored
  · intro core stored
    have start := valid.start_le_last last stored
    have base := h.base_le_last valid hp last stored
    exact ⟨by lia, by lia⟩

end Anchored

end TemporalStore.RowIndex
