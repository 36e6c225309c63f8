import TemporalStore.Proofs.Timeline.Index

/-!
This module contains what batches of rows do to a valid index, and what is found in one.
-/

namespace TemporalStore.RowIndex

open Timeline (Tiles)

/-! ## Upserts -/

theorem upsertRow_of_start_eq {closed : List BranchRow} {row row' : BranchRow}
    (before : ∀ r ∈ closed, r.start < row.start) (start : row'.start = row.start) :
    upsertRow row' (closed ++ [row]) = closed ++ [row'] := by
  have found : (closed ++ [row]).any (·.start = row'.start) = true := by simp [start]
  unfold upsertRow
  rw [if_pos found]
  clear found
  -- no row before the last one has its start, so the search goes past all of them
  induction closed with
  | nil => simp [upsertRow.replaceFirst, start]
  | cons r closed ih =>
    have other : ¬ r.start = row'.start := by
      have := before r List.mem_cons_self
      lia
    rw [List.cons_append, upsertRow.replaceFirst, if_neg other, List.cons_append, ih]
    intro r' hr'
    exact before r' (List.mem_cons_of_mem _ hr')

theorem upsertRow_of_start_lt {rows : List BranchRow} {row : BranchRow}
    (h : (rows ++ [row]).Pairwise fun a b => a.start < b.start) :
    upsertRow row rows = rows ++ [row] := by
  have missing : ¬ rows.any (·.start = row.start) = true := by
    simp only [List.any_eq_true, decide_eq_true_eq, not_exists, not_and]
    intro r hr
    have := (List.pairwise_append.1 h).2.2 r hr row (List.mem_singleton_self _)
    lia
  unfold upsertRow
  rw [if_neg missing]
  apply sortByKey_of_pairwise
  apply h.imp
  intro a b hab
  rw [Int.isLE_compare]
  exact Int.le_of_lt hab

theorem upsert_eq_put (index : RowIndex) (row : BranchRow) :
    index.upsert row = index.put row.path (upsertRow row (index.timeline row.path)) := rfl

theorem apply_append (index : RowIndex) (rows rows' : List BranchRow) :
    index.apply (rows ++ rows') = (index.apply rows).apply rows' := by
  apply List.foldl_append

theorem eq_append_of_last? {index : RowIndex} {path : String} {row : BranchRow}
    (h : index.last? path = some row) :
    ∃ closed, index.timeline path = closed ++ [row] := by
  unfold last? at h
  rw [List.getLast?_eq_some_iff] at h
  exact h

theorem last?_eq_none_iff {index : RowIndex} {path : String} :
    index.last? path = none ↔ index.timeline path = [] := by
  unfold last?
  exact List.getLast?_eq_none_iff

section

variable {index : RowIndex} {now : Timepoint} {path : String} {row : BranchRow}

theorem Valid.fits_last (h : index.Valid now) (hp : Path.Valid path)
    (hl : index.last? path = some row) : row.Fits path now := by
  apply h.fits path hp
  obtain ⟨closed, hc⟩ := eq_append_of_last? hl
  simp [hc]

theorem Valid.ended_last (h : index.Valid now) (hl : index.last? path = some row) :
    row.ended = none := by
  obtain ⟨closed, hc⟩ := eq_append_of_last? hl
  have tiles := h.tiles path
  rw [hc] at tiles
  exact tiles.ended_of_append

/--
A row is the current one, or it is history.
-/
theorem Valid.eq_last_or_closed (h : index.Valid now) (mem : row ∈ index.timeline path) :
    index.last? path = some row ∨ (row.locked = false ∧ ∃ e current,
      row.ended = some e ∧ row.start < e ∧ index.last? path = some current ∧
        e ≤ current.start) := by
  cases last : index.last? path with
  | none =>
    rw [last?_eq_none_iff] at last
    simp [last] at mem
  | some current =>
    have tiles := h.tiles path
    obtain ⟨closed, hc⟩ := eq_append_of_last? last
    rw [hc] at mem tiles
    rcases List.mem_append.1 mem with mem | mem
    · obtain ⟨unlocked, e, ended, before, after⟩ := tiles.closed_of_append row mem
      exact .inr ⟨unlocked, e, current, ended, before, rfl, after⟩
    · left
      rw [List.mem_singleton.1 mem]

def replaceLast (index : RowIndex) (path : String) (row : BranchRow) : RowIndex :=
  index.put path ((index.timeline path).dropLast ++ [row])

def advance (index : RowIndex) (path : String) (closed new : BranchRow) : RowIndex :=
  index.put path ((index.timeline path).dropLast ++ [closed, new])

theorem Valid.apply_replaceLast {row' : BranchRow} (h : index.Valid now)
    (hl : index.last? path = some row) (hp : row'.path = path) (start : row'.start = row.start) :
    index.apply [row'] = index.replaceLast path row' := by
  obtain ⟨closed, hc⟩ := eq_append_of_last? hl
  have sorted := (h.tiles path).pairwise_start
  rw [hc, List.pairwise_append] at sorted
  have before : ∀ r ∈ closed, r.start < row.start :=
    fun r hr => sorted.2.2 r hr row (List.mem_singleton_self _)
  change index.upsert row' = _
  rw [upsert_eq_put, hp, hc, upsertRow_of_start_eq before start]
  unfold replaceLast
  rw [hc, List.dropLast_concat]

theorem apply_begin (hl : index.last? path = none) (hp : row.path = path) :
    index.apply [row] = index.put path [row] := by
  rw [last?_eq_none_iff] at hl
  change index.upsert row = _
  rw [upsert_eq_put, hp, hl, upsertRow_of_start_lt (List.pairwise_singleton _ _)]
  rfl

theorem apply_advance {new : BranchRow} (tiles : Tiles (index.timeline path))
    (hl : index.last? path = some row) (rowPath : row.path = path) (newPath : new.path = path)
    (start : row.start < new.start) :
    index.apply [row.close new.start, new] = index.advance path (row.close new.start) new := by
  obtain ⟨closed, hc⟩ := eq_append_of_last? hl
  have sorted := tiles.pairwise_start
  rw [hc, List.pairwise_append] at sorted
  have before : ∀ r ∈ closed, r.start < row.start :=
    fun r hr => sorted.2.2 r hr row (List.mem_singleton_self _)
  -- the rows stay sorted, so the second upsert appends
  have together : ((closed ++ [row.close new.start]) ++ [new]).Pairwise
      fun a b => a.start < b.start := by
    simp only [List.append_assoc, List.cons_append, List.nil_append, List.pairwise_append,
      List.pairwise_pair]
    refine ⟨sorted.1, start, ?_⟩
    intro r hr r' hr'
    have first := before r hr
    simp only [List.mem_cons, List.not_mem_nil, or_false] at hr'
    rcases hr' with rfl | rfl
    · exact first
    · lia
  have first : index.upsert (row.close new.start) =
      index.put path (closed ++ [row.close new.start]) := by
    have start : (row.close new.start).start = row.start := rfl
    have samePath : (row.close new.start).path = path := rowPath
    rw [upsert_eq_put, samePath, hc, upsertRow_of_start_eq before start]
  change (index.upsert (row.close new.start)).upsert new = _
  rw [first, upsert_eq_put, newPath, timeline_put_self, put_put, upsertRow_of_start_lt together]
  unfold advance
  rw [hc, List.dropLast_concat, List.append_assoc]
  rfl

/-! ## Changes that keep an index valid -/

theorem Valid.replaceLast {row' : BranchRow} (h : index.Valid now) (hv : Path.Valid path)
    (hl : index.last? path = some row) (fits : row'.Fits path now) (start : row'.start = row.start)
    (base : row'.base = row.base) (ended : row'.ended = none) :
    (index.replaceLast path row').Valid now := by
  obtain ⟨closed, hc⟩ := eq_append_of_last? hl
  have tiles := h.tiles path
  have old := h.fits path hv
  have parents := h.parents path
  unfold RowIndex.replaceLast
  rw [hc] at tiles old parents ⊢
  rw [List.dropLast_concat]
  apply h.put hv (Int.le_refl _)
  · simp
  · exact tiles.replace_last start ended
  · intro r hr
    rcases List.mem_append.1 hr with hr | hr
    · exact old r (List.mem_append_left _ hr)
    · rw [List.mem_singleton] at hr
      rw [hr]
      exact fits
  · intro f hf
    unfold first? at hf
    rw [hc] at hf
    cases closed with
    | nil => grind
    | cons r closed => exact ⟨f, hf, rfl⟩
  · intro parent hp r hr
    rcases List.mem_append.1 hr with hr | hr
    · exact parents parent hv hp r (List.mem_append_left _ hr)
    · rw [List.mem_singleton] at hr
      rw [hr, start, base]
      exact parents parent hv hp row (by simp)

theorem Valid.begin {later : Timepoint} (h : index.Valid now) (hv : Path.Valid path)
    (hl : index.last? path = none) (later_le : now ≤ later) (fits : row.Fits path later)
    (ended : row.ended = none)
    (parents : ∀ parent, Path.parent? path = some parent →
      ∃ f, index.first? parent = some f ∧ f.start ≤ row.base ∧ f.start < row.start) :
    (index.put path [row]).Valid later := by
  rw [last?_eq_none_iff] at hl
  apply h.put hv later_le
  · simp
  · exact ended
  · intro r hr
    rw [List.mem_singleton] at hr
    rw [hr]
    exact fits
  · intro f hf
    unfold first? at hf
    simp [hl] at hf
  · intro parent hp r hr
    rw [List.mem_singleton] at hr
    rw [hr]
    exact parents parent hp

theorem Valid.advance {new : BranchRow} {later : Timepoint} (h : index.Valid now)
    (hv : Path.Valid path) (hl : index.last? path = some row) (later_le : now ≤ later)
    (start : row.start < new.start) (fits : new.Fits path later) (ended : new.ended = none)
    (parents : ∀ parent, Path.parent? path = some parent →
      ∃ f, index.first? parent = some f ∧ f.start ≤ new.base ∧ f.start < new.start) :
    (index.advance path (row.close new.start) new).Valid later := by
  obtain ⟨closed, hc⟩ := eq_append_of_last? hl
  have tiles := h.tiles path
  have old := h.fits path hv
  have oldParents := h.parents path
  unfold RowIndex.advance
  rw [hc] at tiles old oldParents ⊢
  rw [List.dropLast_concat]
  have cases_mem : ∀ r ∈ closed ++ [row.close new.start, new],
      r ∈ closed ∨ r = row.close new.start ∨ r = new := by simp
  apply h.put hv later_le
  · simp
  · exact tiles.split_last start ended
  · intro r hr
    rcases cases_mem r hr with hr | rfl | rfl
    · exact (old r (List.mem_append_left _ hr)).mono later_le
    · exact ((old row (by simp)).mono later_le).close _
    · exact fits
  · intro f hf
    unfold first? at hf
    rw [hc] at hf
    cases closed with
    | nil =>
      -- the first row is the one that is closed, which keeps its start
      simp only [List.nil_append, List.head?_cons, Option.some.injEq] at hf
      exact ⟨row.close new.start, rfl, by rw [← hf]; rfl⟩
    | cons r closed => exact ⟨f, hf, rfl⟩
  · intro parent hp r hr
    rcases cases_mem r hr with hr | rfl | rfl
    · exact oldParents parent hv hp r (List.mem_append_left _ hr)
    · exact oldParents parent hv hp row (by simp)
    · exact parents parent hp

end

end TemporalStore.RowIndex
