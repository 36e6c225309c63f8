import TemporalStore.Proofs.Session.Sound

/-!
This module contains what the timeline of a branch looks like after any run, and which timepoints
are found on it.
-/

namespace TemporalStore

namespace RowIndex

/--
The rows of a branch are one line from its first start on, which nothing later than `now` is on.
-/
structure Line (index : RowIndex) (path : String) (now : Timepoint) : Prop where
  ordered : (index.timeline path).Pairwise fun a b => a.start < b.start
  chained : (index.timeline path).IsChain fun a b => a.ended = some b.start
  open_iff : ∀ row ∈ index.timeline path, row.ended = none ↔ index.last? path = some row
  head : ∀ row ∈ index.timeline path, row.head = row.start
  base : ∀ row ∈ index.timeline path, row.base ≤ row.start
  unlocked : ∀ row ∈ index.timeline path, row.ended ≠ none → row.locked = false
  issued : ∀ row ∈ index.timeline path, row.base ≤ now ∧ row.start ≤ now ∧ row.head ≤ now ∧
    ∀ t, row.ended = some t → t ≤ now
  parent : ∀ parent first, Path.parent? path = some parent → index.first? path = some first →
    ∃ above, index.first? parent = some above ∧ above.start < first.start

variable {index : RowIndex} {path : String} {now : Timepoint} {row : BranchRow}

theorem Valid.open_iff (h : index.Valid now) (mem : row ∈ index.timeline path) :
    row.ended = none ↔ index.last? path = some row := by
  constructor
  · intro open'
    rcases h.eq_last_or_closed mem with last | ⟨-, e, current, ended, -⟩
    · exact last
    · simp [ended] at open'
  · intro last
    exact h.ended_last last

theorem Valid.unlocked_of_ended (h : index.Valid now) (mem : row ∈ index.timeline path)
    (ended : row.ended ≠ none) : row.locked = false := by
  rcases h.eq_last_or_closed mem with last | ⟨unlocked, -⟩
  · exact absurd (h.ended_last last) ended
  · exact unlocked

theorem Valid.line (h : index.Valid now) (hp : Path.Valid path) : index.Line path now where
  ordered := (h.tiles path).pairwise_start
  chained := (h.tiles path).isChain
  open_iff _ mem := h.open_iff mem
  head row mem := (h.fits path hp row mem).head
  base row mem := (h.fits path hp row mem).base_le
  unlocked _ mem ended := h.unlocked_of_ended mem ended
  issued := by
    intro row mem
    have fits := h.fits path hp row mem
    have head := fits.head
    have base_le := fits.base_le
    have start_le := fits.start_le
    refine ⟨by lia, by lia, by lia, ?_⟩
    intro t ended
    exact (h.ended_bounds hp mem ended).2
  parent := by
    intro parent first above hf
    have mem : first ∈ index.timeline path := List.mem_of_mem_head? hf
    obtain ⟨begins, hb, -, before⟩ := h.parents path parent hp above first mem
    exact ⟨begins, hb, before⟩

theorem Valid.mem_allRows_iff (h : index.Valid now) :
    row ∈ index.allRows ↔ Path.Valid row.path ∧ row ∈ index.timeline row.path := by
  constructor
  · intro mem
    unfold allRows at mem
    rw [List.mem_flatten] at mem
    obtain ⟨rows, stored, mem⟩ := mem
    obtain ⟨key, found⟩ := OrderedMap.mem_values_iff.1 stored
    obtain ⟨path, hp, -, same⟩ := h.exists_timeline (OrderedMap.get?_eq_some_iff.1 found)
    simp only at same
    rw [← same] at mem
    rw [(h.fits path hp row mem).path]
    exact ⟨hp, mem⟩
  · rintro ⟨-, mem⟩
    exact mem_allRows_of_mem_timeline mem

theorem Valid.mem_currentRows_iff (h : index.Valid now) :
    row ∈ index.currentRows ↔ Path.Valid row.path ∧ index.last? row.path = some row := by
  unfold currentRows BranchRow.isCurrent
  rw [List.mem_filter, h.mem_allRows_iff, Option.isNone_iff_eq_none, and_assoc]
  constructor
  · rintro ⟨hp, mem, open'⟩
    exact ⟨hp, (h.open_iff mem).1 open'⟩
  · rintro ⟨hp, last⟩
    obtain ⟨closed, rows⟩ := eq_append_of_last? last
    exact ⟨hp, by simp [rows], h.ended_last last⟩

end RowIndex

namespace Directory

theorem rowAt_ok_iff {site : Site} {now : Timepoint} (h : site.directory.index.Valid now)
    (agrees : site.directory.history.Agrees site.directory.index) (path : String) (t : Timepoint)
    (row : BranchRow) :
    (∃ site', rowAt path t site = .ok row site') ↔
      row ∈ site.directory.index.timeline path ∧ row.covers t := by
  obtain ⟨history, -, answer⟩ := rowAt_eq h agrees path t
  rw [answer, ← h.covering?_eq_some_iff]
  cases site.directory.index.covering? path t with
  | none => simp
  | some row => simp

end Directory

namespace Session

/--
Whatever is done in a session that starts out empty, in any order and with any answers, the rows of
every branch are one line, and no action finds a contradiction. A timepoint is found on a branch
as soon as the branch has begun by then.
-/
theorem timelines_of_run {session : Session} {actions : List Action} (new : session.New)
    (permitted : session.Permits actions) :
    (∀ row ∈ (session.run actions).site.directory.index.allRows, Path.Valid row.path ∧
      row ∈ (session.run actions).site.directory.index.timeline row.path) ∧
    (∀ path, Path.Valid path → (session.run actions).site.directory.index.Line path
      (session.run actions).site.directory.clock.last) ∧
    (∀ answer ∈ session.answers actions, ∀ violation,
      answer.2 ≠ .error (.dataIntegrity violation)) ∧
    (∀ path t, Path.Valid path →
      ((∃ row site', Directory.rowAt path t (session.run actions).site = .ok row site') ↔
        ∃ first, (session.run actions).site.directory.index.first? path = some first ∧
          first.start ≤ t)) := by
  have sound := new.sound
  have site := (sound_run sound permitted).site
  have valid := site.consistent.valid
  refine ⟨?_, ?_, ?_, ?_⟩
  · intro row mem
    exact valid.mem_allRows_iff.1 mem
  · intro path hp
    exact valid.line hp
  · intro answer mem violation failed
    exact plain_answers sound permitted answer mem _ failed violation rfl
  · intro path t hp
    rw [← valid.exists_covering_iff]
    simp only [Directory.rowAt_ok_iff valid site.agrees, valid.covering?_eq_some_iff]

def firstCommit : List Action := [.create "M", .openCommit "M" .content, .complete 0]

theorem timelines_of_first_commit :
    empty.New ∧ empty.Permits firstCommit ∧
      ((empty.run firstCommit).site.directory.index.timeline "M").map
        (fun row => (row.start, row.ended)) = [(1, some 2), (2, none)] ∧
      ∀ t, (∃ row site', Directory.rowAt "M" t (empty.run firstCommit).site = .ok row site') ↔
        1 ≤ t := by
  have valid : Path.Valid "M" := by decide
  have permitted : empty.Permits firstCommit := ⟨valid, valid, trivial, trivial⟩
  have begins : (empty.run firstCommit).site.directory.index.begin? "M" = some 1 := by
    decide +kernel
  refine ⟨new_empty, permitted, by decide +kernel, ?_⟩
  intro t
  obtain ⟨row, found, start⟩ := RowIndex.begin?_eq_some_iff.1 begins
  rw [(timelines_of_run new_empty permitted).2.2.2 "M" t valid, found]
  simp [start]

end Session

end TemporalStore
