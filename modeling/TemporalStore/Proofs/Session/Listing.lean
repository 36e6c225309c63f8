import TemporalStore.Proofs.MessagePack.Text
import TemporalStore.Proofs.Session.Timeline

/-!
This module contains what is listed when someone asks for all branches, or for those below one of
them.
-/

namespace TemporalStore

open MessagePack (textBytes)

namespace RowIndex

variable {index : RowIndex} {now : Timepoint}

/--
No two stored rows are of the same branch and start at the same time.
-/
theorem Valid.pairwise_allRows (h : index.Valid now) :
    index.allRows.Pairwise fun a b => a.path ≠ b.path ∨ a.start < b.start := by
  have filed : ∀ e ∈ index.rows.entries, ∀ row ∈ e.2, Path.flatten row.path = e.1 := by
    intro e mem row inRows
    obtain ⟨path, hp, key, same⟩ := h.exists_timeline mem
    rw [← same] at inRows
    rw [(h.fits path hp row inRows).path, key]
  unfold allRows OrderedMap.values
  rw [List.pairwise_flatten, List.pairwise_map]
  constructor
  · intro rows stored
    obtain ⟨e, mem, rfl⟩ := List.mem_map.1 stored
    obtain ⟨path, -, -, same⟩ := h.exists_timeline mem
    rw [← same]
    exact (h.tiles path).pairwise_start.imp .inr
  · apply index.rows.sorted.imp_of_mem
    intro e e' mem mem' before row inRows row' inRows'
    left
    intro same
    rw [← filed e mem row inRows, ← filed e' mem' row' inRows', same] at before
    exact OrderedMap.compare_self_ne_lt _ before

/--
A branch has at most one current row.
-/
theorem Valid.pairwise_currentRows (h : index.Valid now) :
    index.currentRows.Pairwise fun a b => a.path ≠ b.path := by
  apply (h.pairwise_allRows.filter BranchRow.isCurrent).imp_of_mem
  intro a b mem mem' apart same
  obtain ⟨-, last⟩ := h.mem_currentRows_iff.1 mem
  obtain ⟨-, last'⟩ := h.mem_currentRows_iff.1 mem'
  rw [same, last', Option.some.injEq] at last
  rw [last] at apart
  simp at apart

end RowIndex

namespace Directory

variable {directory : Directory} {row : BranchRow} {path : String} {now : Timepoint}

theorem pairwise_branches (h : directory.index.Valid now) :
    (branches directory).Pairwise fun a b => textBytes a.path < textBytes b.path := by
  have apart : (branches directory).Pairwise fun a b => a.path ≠ b.path :=
    (perm_sortByKey BranchRow.path directory.index.currentRows).symm.pairwise
      h.pairwise_currentRows fun other => other.symm
  have sorted : (branches directory).Pairwise fun a b => (compare a.path b.path).isLE :=
    pairwise_sortByKey
  apply (sorted.and apart).imp
  rintro a b ⟨ordered, other⟩
  have le : a.path ≤ b.path := compare_le_iff_le.1 (Ordering.isLE_iff_ne_gt.1 ordered)
  rw [MessagePack.textBytes_lt_iff]
  exact lt_of_le_of_ne le other

theorem mem_branches_iff (h : directory.index.Valid now) :
    row ∈ branches directory ↔
      Path.Valid row.path ∧ directory.index.last? row.path = some row := by
  unfold branches
  rw [mem_sortByKey, h.mem_currentRows_iff]

theorem descendants_eq (directory : Directory) (path : String) :
    descendants directory path =
      (branches directory).filter fun row => path ∈ Path.ancestors row.path := by
  have same : (fun row : BranchRow => Path.isDescendant path row.path) =
      fun row => decide (path ∈ Path.ancestors row.path) := by
    funext row
    rw [Bool.eq_iff_iff, decide_eq_true_iff, Path.isDescendant_iff_mem_ancestors]
  unfold descendants branches
  rw [same, sortByKey_filter]

theorem mem_descendants_iff : row ∈ descendants directory path ↔
    row ∈ branches directory ∧ path ∈ Path.ancestors row.path := by
  rw [descendants_eq, List.mem_filter, decide_eq_true_iff]

theorem exists_branch_above (h : directory.index.Valid now) (mem : row ∈ branches directory)
    {parent : String} (above : Path.parent? row.path = some parent) :
    ∃ row' ∈ branches directory, row'.path = parent := by
  obtain ⟨hp, last⟩ := (mem_branches_iff h).1 mem
  have valid := Path.valid_of_parent? hp above
  obtain ⟨first, hf, -⟩ := h.parents row.path parent hp above row (List.mem_of_getLast? last)
  obtain ⟨row', last'⟩ := RowIndex.last?_isSome_of_first? hf
  have same := (h.fits_last valid last').path
  refine ⟨row', (mem_branches_iff h).2 ?_, same⟩
  rw [same]
  exact ⟨valid, last'⟩

/--
A branch is below another one if its parent is that one or below it.
-/
theorem mem_descendants_iff_parent (h : directory.index.Valid now)
    (mem : row ∈ branches directory) :
    row ∈ descendants directory path ↔ ∃ parent, Path.parent? row.path = some parent ∧
      (parent = path ∨ ∃ above ∈ descendants directory path, above.path = parent) := by
  rw [mem_descendants_iff]
  simp only [mem, true_and]
  cases parent : Path.parent? row.path with
  | none => simp [Path.ancestors_of_parent?_eq_none parent]
  | some p =>
    obtain ⟨above, mem', same⟩ := exists_branch_above h mem parent
    rw [Path.ancestors_of_parent?_eq_some parent, List.mem_cons]
    simp only [Option.some.injEq, exists_eq_left', mem_descendants_iff]
    constructor
    · rintro (here | higher)
      · exact .inl here.symm
      · rw [← same] at higher
        exact .inr ⟨above, ⟨mem', higher⟩, same⟩
    · rintro (here | ⟨above, ⟨-, higher⟩, rfl⟩)
      · exact .inl here.symm
      · exact .inr higher

end Directory

namespace Session

open Directory

variable {start session : Session} {actions : List Action}

/--
Whatever was done to a directory that started out empty, its branches are listed in the order of
the bytes of their paths, each of them once and as it is found when someone asks for it alone. Below
a path those are listed that meet it when they climb from parent to parent, and these are all whose
paths are that path, a separator and more.
-/
theorem branches_of_run (new : start.New) (permitted : start.Permits actions)
    (reached : start.run actions = session) :
    ((branches session.site.directory).Pairwise fun a b => textBytes a.path < textBytes b.path) ∧
    (∀ row ∈ branches session.site.directory, Path.Valid row.path) ∧
    (∀ path, Path.Valid path → ∃ found, latest? path session.site = .ok found session.site ∧
      ∀ row, row ∈ branches session.site.directory ∧ row.path = path ↔ found = some row) ∧
    ∀ path,
      descendants session.site.directory path =
        (branches session.site.directory).filter (fun row => path ∈ Path.ancestors row.path) ∧
      ∀ row ∈ branches session.site.directory,
        (row ∈ descendants session.site.directory path ↔ ∃ parent,
          Path.parent? row.path = some parent ∧ (parent = path ∨
            ∃ above ∈ descendants session.site.directory path, above.path = parent)) ∧
        (row ∈ descendants session.site.directory path ↔ ∃ rest, row.path = path ++ "/" ++ rest) ∧
        (row ∈ descendants session.site.directory path → row.path ≠ path) := by
  have valid := (sound_run new.sound permitted).site.consistent.valid
  rw [reached] at valid
  refine ⟨pairwise_branches valid, fun row mem => ((mem_branches_iff valid).1 mem).1, ?_, ?_⟩
  · intro path hp
    refine ⟨_, latest?_eq valid hp, ?_⟩
    intro row
    rw [mem_branches_iff valid]
    constructor
    · rintro ⟨⟨-, last⟩, rfl⟩
      exact last
    · intro last
      have same := (valid.fits_last hp last).path
      rw [same]
      exact ⟨⟨hp, last⟩, rfl⟩
  · intro path
    refine ⟨descendants_eq _ path, ?_⟩
    intro row mem
    refine ⟨mem_descendants_iff_parent valid mem, ?_, ?_⟩
    · rw [mem_descendants_iff, ← Path.isDescendant_iff_mem_ancestors,
        Path.isDescendant_iff_exists_append]
      simp [mem]
    · intro below same
      rw [mem_descendants_iff, same] at below
      exact Path.not_mem_ancestors_self path below.2

/--
Flat paths of these branches are in another order: `M_A_B` comes after `MA` but `M/A/B` before.
-/
def prefixed : List Action := [.create "M", .create "MA", .create "M/A", .create "M/A/B"]

theorem branches_of_prefixed :
    empty.New ∧ empty.Permits prefixed ∧
      (branches (empty.run prefixed).site.directory).map (·.path) = ["M", "M/A", "M/A/B", "MA"] ∧
      (branches (empty.run prefixed).site.directory).filter
        (fun row => "M" ∈ Path.ancestors row.path) =
          descendants (empty.run prefixed).site.directory "M" ∧
      (descendants (empty.run prefixed).site.directory "M").map (·.path) = ["M/A", "M/A/B"] := by
  have permitted : empty.Permits prefixed := ⟨rfl, rfl, rfl, rfl, trivial⟩
  obtain ⟨-, -, -, below⟩ := branches_of_run new_empty permitted rfl
  refine ⟨new_empty, permitted, by decide +kernel, ?_, by decide +kernel⟩
  exact (below "M").1.symm

end Session

end TemporalStore
