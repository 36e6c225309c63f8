import TemporalStore.Proofs.Timeline.Change

/-!
This module contains what is found in a valid index: the current row of a branch and the row that
covers a timepoint, before and after a change.
-/

namespace TemporalStore.RowIndex

open Timeline (Tiles)

variable {index : RowIndex} {now : Timepoint} {path : String} {row : BranchRow}

theorem Valid.current_eq (h : index.Valid now) : index.current path = .ok (index.last? path) := by
  unfold current
  cases hl : index.last? path with
  | none =>
    rw [last?_eq_none_iff] at hl
    rw [hl]
    rfl
  | some row =>
    obtain ⟨closed, hc⟩ := eq_append_of_last? hl
    have tiles := h.tiles path
    rw [hc] at tiles ⊢
    rw [tiles.filter_isCurrent]
    rfl

theorem first?_isSome_of_last? (h : index.last? path = some row) :
    ∃ first, index.first? path = some first := by
  obtain ⟨closed, hc⟩ := eq_append_of_last? h
  unfold first?
  rw [hc]
  cases closed with
  | nil => exact ⟨row, rfl⟩
  | cons r closed => exact ⟨r, rfl⟩

theorem last?_isSome_of_first? (h : index.first? path = some row) :
    ∃ last, index.last? path = some last := by
  unfold first? at h
  unfold last?
  cases hr : index.timeline path with
  | nil => simp [hr] at h
  | cons r rows => exact ⟨_, List.getLast?_eq_some_getLast (by simp)⟩

theorem Valid.first_le_last (h : index.Valid now) {first last : BranchRow}
    (hf : index.first? path = some first) (hl : index.last? path = some last) :
    first.start ≤ last.start := by
  obtain ⟨closed, hc⟩ := eq_append_of_last? hl
  have sorted := (h.tiles path).pairwise_start
  unfold first? at hf
  rw [hc] at hf sorted
  cases closed with
  | nil =>
    simp only [List.nil_append, List.head?_cons, Option.some.injEq] at hf
    rw [hf]
  | cons r closed =>
    simp only [List.cons_append, List.head?_cons, Option.some.injEq] at hf
    rw [← hf]
    exact Int.le_of_lt (List.rel_of_pairwise_cons sorted (by simp))

/-! ## Rows by timepoint -/

def covering? (index : RowIndex) (path : String) (t : Timepoint) : Option BranchRow :=
  (index.timeline path).find? (·.covers t)

theorem Valid.atTimepoint_eq (h : index.Valid now) (t : Timepoint) :
    index.atTimepoint path t = .ok (index.covering? path t) := by
  have tiles := h.tiles path
  unfold atTimepoint covering?
  rw [← List.head?_filter]
  cases hr : index.timeline path with
  | nil => rfl
  | cons first rows =>
    rw [hr] at tiles
    by_cases ht : first.start ≤ t
    · obtain ⟨row, -, -, found⟩ := tiles.exists_filter_covers ht
      rw [found]
      rfl
    · rw [tiles.filter_covers_eq_nil (by lia)]
      rfl

theorem Valid.covering?_eq_some_iff (h : index.Valid now) {t : Timepoint} :
    index.covering? path t = some row ↔ row ∈ index.timeline path ∧ row.covers t := by
  unfold covering?
  constructor
  · intro hc
    have covers := List.find?_some hc
    exact ⟨List.mem_of_find?_eq_some hc, covers⟩
  · rintro ⟨mem, covers⟩
    obtain ⟨row', hrow'⟩ : ∃ row', (index.timeline path).find? (·.covers t) = some row' := by
      rw [← Option.isSome_iff_exists, List.find?_isSome]
      exact ⟨row, mem, covers⟩
    have mem' := List.mem_of_find?_eq_some hrow'
    have covers' := List.find?_some hrow'
    have tiles := h.tiles path
    rw [hrow']
    cases hr : index.timeline path with
    | nil => simp [hr] at mem
    | cons first rows =>
      rw [hr] at tiles mem mem'
      rw [tiles.eq_of_covers mem' mem covers' covers]

theorem Valid.exists_covering_iff (h : index.Valid now) {t : Timepoint} :
    (∃ row, index.covering? path t = some row) ↔
      ∃ first, index.first? path = some first ∧ first.start ≤ t := by
  have tiles := h.tiles path
  unfold covering? first?
  cases hr : index.timeline path with
  | nil => simp
  | cons first rows =>
    rw [hr] at tiles
    rw [← Option.isSome_iff_exists, List.find?_isSome]
    simp only [List.head?_cons, Option.some.injEq, exists_eq_left']
    constructor
    · rintro ⟨row, mem, covers⟩
      by_contra early
      have none := tiles.filter_covers_eq_nil (t := t) (by lia)
      rw [List.filter_eq_nil_iff] at none
      exact none row mem covers
    · intro ht
      obtain ⟨row, mem, covers, -⟩ := tiles.exists_filter_covers ht
      exact ⟨row, mem, covers⟩

theorem Valid.covers_last (h : index.Valid now) (hl : index.last? path = some row)
    {t : Timepoint} (ht : row.start ≤ t) : index.covering? path t = some row := by
  rw [h.covering?_eq_some_iff]
  obtain ⟨closed, hc⟩ := eq_append_of_last? hl
  constructor
  · simp [hc]
  · simp [BranchRow.covers, ht, h.ended_last hl]

/-! ## After a change -/

theorem timeline_advance_self {closed new : BranchRow} {rows : List BranchRow}
    (h : index.timeline path = rows ++ [row]) :
    (index.advance path closed new).timeline path = rows ++ [closed, new] := by
  unfold advance
  rw [timeline_put_self, h, List.dropLast_concat]

theorem timeline_advance_of_ne {q : String} (index : RowIndex) (closed new : BranchRow)
    (hp : Path.Valid path) (hq : Path.Valid q) (h : q ≠ path) :
    (index.advance path closed new).timeline q = index.timeline q :=
  timeline_put_of_ne index _ hp hq h

theorem last?_replaceLast {q : String} (index : RowIndex) (row : BranchRow)
    (hp : Path.Valid path) (hq : Path.Valid q) :
    (index.replaceLast path row).last? q = if q = path then some row else index.last? q := by
  unfold last? replaceLast
  split
  · rename_i h
    rw [h, timeline_put_self, List.getLast?_concat]
  · rename_i h
    rw [timeline_put_of_ne index _ hp hq h]

theorem last?_advance {q : String} (index : RowIndex) (closed new : BranchRow)
    (hp : Path.Valid path) (hq : Path.Valid q) :
    (index.advance path closed new).last? q = if q = path then some new else index.last? q := by
  unfold last? advance
  split
  · rename_i h
    rw [h, timeline_put_self, List.getLast?_append]
    rfl
  · rename_i h
    rw [timeline_put_of_ne index _ hp hq h]

theorem last?_advance_self (index : RowIndex) (closed new : BranchRow) (hp : Path.Valid path) :
    (index.advance path closed new).last? path = some new := by
  rw [last?_advance index closed new hp hp, if_pos rfl]

theorem last?_advance_of_ne {q : String} (index : RowIndex) (closed new : BranchRow)
    (hp : Path.Valid path) (hq : Path.Valid q) (other : q ≠ path) :
    (index.advance path closed new).last? q = index.last? q := by
  rw [last?_advance index closed new hp hq, if_neg other]

theorem last?_put_singleton {q : String} (index : RowIndex) (row : BranchRow)
    (hp : Path.Valid path) (hq : Path.Valid q) :
    (index.put path [row]).last? q = if q = path then some row else index.last? q := by
  unfold last?
  split
  · rename_i h
    rw [h, timeline_put_self]
    rfl
  · rename_i h
    rw [timeline_put_of_ne index _ hp hq h]

theorem replaceLast_replaceLast (index : RowIndex) (path : String) (row row' : BranchRow) :
    (index.replaceLast path row).replaceLast path row' = index.replaceLast path row' := by
  unfold replaceLast
  rw [timeline_put_self, List.dropLast_concat, put_put]

theorem replaceLast_last (h : index.last? path = some row) :
    index.replaceLast path row = index := by
  obtain ⟨closed, hc⟩ := eq_append_of_last? h
  have same : (index.timeline path).dropLast ++ [row] = index.timeline path := by
    rw [hc, List.dropLast_concat]
  unfold replaceLast
  rw [same]
  apply put_timeline
  simp [hc]

def begin? (index : RowIndex) (path : String) : Option Timepoint :=
  (index.first? path).map BranchRow.start

theorem begin?_eq_some_iff {t : Timepoint} :
    index.begin? path = some t ↔ ∃ first, index.first? path = some first ∧ first.start = t := by
  unfold begin?
  exact Option.map_eq_some_iff

theorem begin?_of_timeline_eq {index' : RowIndex} {q : String}
    (h : index'.timeline q = index.timeline q) : index'.begin? q = index.begin? q := by
  unfold begin? first?
  rw [h]

theorem begin?_put {rows : List BranchRow} (q : String)
    (h : rows.head?.map BranchRow.start = index.begin? path) :
    (index.put path rows).begin? q = index.begin? q := by
  unfold begin? first? at h ⊢
  rw [timeline_put]
  split
  · rename_i hq
    rw [h]
    unfold timeline
    rw [hq]
  · rfl

theorem begin?_replaceLast {row' : BranchRow} (q : String) (hl : index.last? path = some row)
    (start : row'.start = row.start) :
    (index.replaceLast path row').begin? q = index.begin? q := by
  apply begin?_put
  obtain ⟨closed, hc⟩ := eq_append_of_last? hl
  unfold begin? first?
  rw [hc, List.dropLast_concat]
  cases closed with
  | nil => exact congrArg some start
  | cons r closed => rfl

theorem begin?_advance {new : BranchRow} {t : Timepoint} (q : String)
    (hl : index.last? path = some row) :
    (index.advance path (row.close t) new).begin? q = index.begin? q := by
  apply begin?_put
  obtain ⟨closed, hc⟩ := eq_append_of_last? hl
  unfold begin? first?
  rw [hc, List.dropLast_concat]
  cases closed with
  | nil => rfl
  | cons r closed => rfl

theorem begin?_put_of_last?_eq_none {rows : List BranchRow} {q : String} {t : Timepoint}
    (hl : index.last? path = none) (h : index.begin? q = some t) :
    (index.put path rows).begin? q = some t := by
  rw [last?_eq_none_iff] at hl
  rw [← h]
  apply begin?_of_timeline_eq
  rw [timeline_put, if_neg]
  intro hq
  unfold begin? first? timeline at h
  unfold timeline at hl
  rw [hq, hl] at h
  simp at h

/-! ## Locks -/

def setLocked (index : RowIndex) (path : String) (locked : Bool) : RowIndex :=
  match index.last? path with
  | some row => index.replaceLast path { row with locked }
  | none => index

theorem setLocked_of_last? {locked : Bool} (h : index.last? path = some row) :
    index.setLocked path locked = index.replaceLast path { row with locked } := by
  unfold setLocked
  rw [h]

theorem setLocked_of_last?_eq_none {locked : Bool} (h : index.last? path = none) :
    index.setLocked path locked = index := by
  unfold setLocked
  rw [h]

theorem Valid.setLocked (h : index.Valid now) (hp : Path.Valid path) (locked : Bool) :
    (index.setLocked path locked).Valid now := by
  cases hl : index.last? path with
  | none =>
    rw [setLocked_of_last?_eq_none hl]
    exact h
  | some row =>
    have fits := (h.fits_last hp hl).setLocked locked
    rw [setLocked_of_last? hl]
    have ended := h.ended_last hl
    exact h.replaceLast hp hl fits rfl rfl ended

theorem Valid.apply_setLocked (h : index.Valid now) (hp : Path.Valid path)
    (hl : index.last? path = some row) (locked : Bool) :
    index.apply [{ row with locked }] = index.setLocked path locked := by
  rw [setLocked_of_last? hl]
  exact h.apply_replaceLast hl (h.fits_last hp hl).path rfl

theorem last?_setLocked {q : String} (index : RowIndex) (locked : Bool) (hp : Path.Valid path)
    (hq : Path.Valid q) :
    (index.setLocked path locked).last? q =
      if q = path then (index.last? path).map fun row => { row with locked }
      else index.last? q := by
  cases hl : index.last? path with
  | none =>
    rw [setLocked_of_last?_eq_none hl]
    split
    · rename_i h
      rw [h, hl]
      rfl
    · rfl
  | some row =>
    rw [setLocked_of_last? hl, last?_replaceLast index _ hp hq]
    rfl

theorem last?_setLocked_self (locked : Bool) (hp : Path.Valid path)
    (h : index.last? path = some row) :
    (index.setLocked path locked).last? path = some { row with locked } := by
  rw [last?_setLocked index locked hp hp, if_pos rfl, h]
  rfl

theorem begin?_setLocked (index : RowIndex) (path q : String) (locked : Bool) :
    (index.setLocked path locked).begin? q = index.begin? q := by
  cases hl : index.last? path with
  | none => rw [setLocked_of_last?_eq_none hl]
  | some row =>
    rw [setLocked_of_last? hl]
    exact begin?_replaceLast q hl rfl

/--
A lock that was taken and given back leaves no trace.
-/
theorem setLocked_setLocked {locked : Bool} (hp : Path.Valid path)
    (h : index.last? path = some row) :
    (index.setLocked path locked).setLocked path row.locked = index := by
  have last := last?_setLocked_self locked hp h
  rw [setLocked_of_last? last, setLocked_of_last? h, replaceLast_replaceLast]
  exact replaceLast_last h

/-! ## Branches by other names -/

/--
Rows are found by flat path, and so under any other path that is flattened to the same.
-/
theorem Valid.path_of_last? (h : index.Valid now) (last : index.last? path = some row) :
    Path.Valid row.path ∧ Path.flatten row.path = Path.flatten path := by
  obtain ⟨closed, hc⟩ := eq_append_of_last? last
  have found : ∃ rows, index.rows.get? (Path.flatten path) = some rows := by
    unfold timeline at hc
    cases hr : index.rows.get? (Path.flatten path) with
    | none => simp [hr] at hc
    | some rows => exact ⟨rows, rfl⟩
  obtain ⟨rows, hr⟩ := found
  obtain ⟨-, q, hq, same⟩ := h.keys _ rows hr
  have mem : row ∈ index.timeline q := by
    unfold timeline at hc ⊢
    rw [same, hc]
    simp
  rw [(h.fits q hq row mem).path]
  exact ⟨hq, same⟩

theorem last?_congr {q : String} (same : Path.flatten q = Path.flatten path) :
    index.last? q = index.last? path := by
  unfold last? timeline
  rw [same]

theorem setLocked_congr {q : String} (same : Path.flatten q = Path.flatten path) (locked : Bool) :
    index.setLocked q locked = index.setLocked path locked := by
  unfold setLocked replaceLast put timeline
  rw [last?_congr same, same]

theorem Valid.valid_setLocked (h : index.Valid now) (path : String) (locked : Bool) :
    (index.setLocked path locked).Valid now := by
  cases last : index.last? path with
  | none =>
    rw [setLocked_of_last?_eq_none last]
    exact h
  | some row =>
    obtain ⟨valid, same⟩ := h.path_of_last? last
    rw [← setLocked_congr same]
    exact h.setLocked valid locked

theorem Valid.apply_relocked (h : index.Valid now) (last : index.last? path = some row)
    (locked : Bool) : index.apply [{ row with locked }] = index.setLocked path locked := by
  obtain ⟨valid, same⟩ := h.path_of_last? last
  rw [← last?_congr same] at last
  rw [← setLocked_congr same]
  exact h.apply_setLocked valid last locked

theorem Valid.last?_relocked (h : index.Valid now) (last : index.last? path = some row)
    (locked : Bool) :
    (index.setLocked path locked).last? path = some { row with locked } := by
  obtain ⟨valid, same⟩ := h.path_of_last? last
  rw [← last?_congr same] at last ⊢
  rw [← setLocked_congr same]
  exact last?_setLocked_self locked valid last

theorem Valid.relocked_relocked (h : index.Valid now) (last : index.last? path = some row)
    (locked : Bool) : (index.setLocked path locked).setLocked path row.locked = index := by
  obtain ⟨valid, same⟩ := h.path_of_last? last
  rw [← last?_congr same] at last
  rw [← setLocked_congr same, ← setLocked_congr same]
  exact setLocked_setLocked valid last

end TemporalStore.RowIndex
