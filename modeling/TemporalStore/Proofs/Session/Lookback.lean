import TemporalStore.Proofs.Session.Drafts
import TemporalStore.Proofs.Session.Growth
import TemporalStore.Proofs.Session.Isolation
import TemporalStore.Proofs.Session.Stored
import TemporalStore.Proofs.Session.Timeline

/-!
This module contains what a row shows as of its head while the work on its branch goes on. What the
row inherits stays as it is. Of the versions on its own branch it shows those without end, so that a
version which is ended later is gone from the past of the branch, too.
-/

namespace TemporalStore

/-! ## Documents of later timepoints -/

/--
Versions may have been ended and added since `t`, but not as of `t` or before.
-/
structure Collection.Aged (c c' : Collection) (t : Timepoint) : Prop where
  kept : ∀ id d, c.get? id = some d → c'.get? id = some d ∨
    (d.ended = none ∧ ∃ u, t < u ∧ c'.get? id = some { d with ended := some u })
  added : ∀ id d, c'.get? id = some d → (∃ d', c.get? id = some d') ∨ t < d.start

section

variable {c c' c'' : Collection} {t u : Timepoint}

theorem Collection.Aged.refl (c : Collection) (t : Timepoint) : c.Aged c t where
  kept _ _ found := .inl found
  added _ d found := .inl ⟨d, found⟩

theorem Collection.Aged.trans (h : c.Aged c' t) (h' : c'.Aged c'' t) : c.Aged c'' t where
  kept := by
    intro id d found
    rcases h.kept id d found with same | ⟨current, u, later, ended⟩
    · exact h'.kept id d same
    · -- a version that has an end keeps it
      rcases h'.kept id _ ended with same | ⟨current', -⟩
      · exact .inr ⟨current, u, later, same⟩
      · cases current'
  added := by
    intro id d found
    rcases h'.added id d found with ⟨d', found'⟩ | new
    · rcases h.added id d' found' with known | new
      · exact .inl known
      · right
        rcases h'.kept id d' found' with same | ⟨-, u, -, ended⟩
        · rw [found, Option.some.injEq] at same
          rw [same]
          exact new
        · rw [found, Option.some.injEq] at ended
          rw [ended]
          exact new
    · exact .inr new

theorem Collection.Edited.aged {flat : String} (h : c.Edited c' flat u) (later : t < u) :
    c.Aged c' t where
  kept := by
    intro id d found
    rcases h.kept id d found with same | ⟨-, current, ended⟩
    · exact .inl same
    · exact .inr ⟨current, u, later, ended⟩
  added := by
    intro id d found
    rcases h.added id d found with known | ⟨-, start⟩
    · exact .inl known
    · rw [start]
      exact .inr later

theorem Collection.aged_endVersions {ids : List VersionId} (later : t < u)
    (current : ∀ id ∈ ids, ∀ d, c.get? id = some d → d.ended = none) :
    c.Aged (c.endVersions ids u) t where
  kept := by
    intro id d found
    rw [Collection.get?_endVersions, found]
    by_cases mem : id ∈ ids
    · exact .inr ⟨current id mem d found, u, later, by simp [mem]⟩
    · exact .inl (by simp [mem])
  added := by
    intro id d found
    rw [Collection.get?_endVersions, Option.map_eq_some_iff] at found
    obtain ⟨d', found, -⟩ := found
    exact .inl ⟨d', found⟩

end

section

variable {index : RowIndex} {now t u : Timepoint} {row : BranchRow}
  {hidden : OrderedSet VersionId} {id : VersionId} {d : Document}

theorem RowIndex.Valid.start_le_of_inherits (h : index.Valid now) (hp : Path.Valid row.path)
    (inherits : index.Inherits row hidden d) : d.start ≤ row.base := by
  obtain ⟨level, mem, accepted⟩ := inherits
  obtain ⟨inherited, -, time⟩ := h.of_mem_levels (fun q => Path.valid_of_mem_ancestors hp) mem
  obtain ⟨-, start, -⟩ := (Level.accepts_inherited_iff inherited).1 accepted
  exact Int.le_trans start time

/--
Whoever inherits as of an earlier timepoint does not notice that a version is ended.
-/
theorem RowIndex.Valid.inherits_ended_iff (h : index.Valid now) (hp : Path.Valid row.path)
    (before : row.base < u) (current : d.ended = none) :
    index.Inherits row hidden { d with ended := some u } ↔ index.Inherits row hidden d := by
  have accepts : ∀ level ∈ index.levels (Path.ancestors row.path) row.base hidden,
      (level.toPredicate.accepts { d with ended := some u } ↔ level.toPredicate.accepts d) := by
    intro level mem
    obtain ⟨inherited, -, time⟩ := h.of_mem_levels (fun q => Path.valid_of_mem_ancestors hp) mem
    have blind : level.Blind d.path u := by
      unfold Level.Blind
      rw [if_pos inherited]
      lia
    exact blind.accepts_ended rfl current
  unfold Inherits
  constructor
  · rintro ⟨level, mem, accepted⟩
    exact ⟨level, mem, (accepts level mem).1 accepted⟩
  · rintro ⟨level, mem, accepted⟩
    exact ⟨level, mem, (accepts level mem).2 accepted⟩

/--
As of `t` the same versions are accepted, apart from those on the branch itself that have an end by
now.
-/
theorem Collection.Aged.mem_ids_iff {c c' : Collection} (aged : c.Aged c' t) (keyed : c.Keyed)
    (keyed' : c'.Keyed) (h : index.Valid now) (hp : Path.Valid row.path) (le : row.base ≤ t) :
    id ∈ c'.ids (index.criteria row t hidden).toPredicate ↔
      id ∈ c.ids (index.criteria row t hidden).toPredicate ∧
        ∀ d, c'.get? id = some d → d.path = row.flatPath → d.ended = none := by
  rw [keyed'.mem_ids_iff, keyed.mem_ids_iff]
  constructor
  · rintro ⟨d', found', accepted⟩
    have accepted' := RowIndex.accepts_criteria_iff.1 accepted
    have own : d'.path = row.flatPath → d'.ended = none := by
      intro path
      rcases accepted' with ⟨-, -, current⟩ | inherits
      · exact current
      · exact absurd path (h.path_ne_of_inherits hp inherits)
    have start : d'.start ≤ t := by
      rcases accepted' with ⟨-, start, -⟩ | inherits
      · exact start
      · exact Int.le_trans (h.start_le_of_inherits hp inherits) le
    obtain ⟨d, found⟩ := (aged.added id d' found').resolve_right (Int.not_lt.2 start)
    constructor
    · refine ⟨d, found, ?_⟩
      rcases aged.kept id d found with same | ⟨current, u, later, ended⟩
      · rw [found', Option.some.injEq] at same
        rw [← same]
        exact accepted
      · rw [found', Option.some.injEq] at ended
        rw [ended] at accepted'
        rcases accepted' with ⟨-, -, current'⟩ | inherits
        · cases current'
        · have before := Int.lt_of_le_of_lt le later
          exact RowIndex.accepts_criteria_iff.2
            (.inr ((h.inherits_ended_iff hp before current).1 inherits))
    · intro d'' found''
      rw [found', Option.some.injEq] at found''
      rw [← found'']
      exact own
  · rintro ⟨⟨d, found, accepted⟩, own⟩
    rcases aged.kept id d found with same | ⟨current, u, later, ended⟩
    · exact ⟨d, same, accepted⟩
    · refine ⟨_, ended, ?_⟩
      rcases RowIndex.accepts_criteria_iff.1 accepted with ⟨path, -, -⟩ | inherits
      · have current' := own _ ended path
        cases current'
      · have before := Int.lt_of_le_of_lt le later
        exact RowIndex.accepts_criteria_iff.2
          (.inr ((h.inherits_ended_iff hp before current).2 inherits))

end

/--
What is done under commits is done under those that are later than `t`. New versions get identities
of their own, versions that have an end keep it, and rows are not lost.
-/
def Action.After (action : Action) (t : Timepoint) (session : Session) : Prop :=
  match action with
  | .complete handle | .retire handle _ _ =>
    ∀ commit, session.commits[handle]? = some commit → t < commit.timepoint
  | .write handle docs =>
    ∀ commit, session.commits[handle]? = some commit → t < commit.timepoint ∧
      ∀ id ∈ (session.site.host.ids.drawMany docs.length).1, session.documents.get? id = none
  | .endVersions ids u =>
    t < u ∧ ∀ id ∈ ids, ∀ d, session.documents.get? id = some d → d.ended = none
  | .purge => False
  | _ => True

namespace Session

open Directory

def After (t : Timepoint) (session : Session) : List Action → Prop
  | [] => True
  | action :: actions => action.After t session ∧ (session.step action).2.After t actions

/--
From one session to the next, nothing has happened as of `t` or before.
-/
structure Ages (session next : Session) (t : Timepoint) : Prop where
  before : session.site.directory.index.SameBefore next.site.directory.index (t + 1)
  aged : session.documents.Aged next.documents t

section

variable {session next later : Session} {action : Action} {path : String} {core row : BranchRow}
  {t : Timepoint} {result : Except StoreError Unit × Session}

theorem Ages.refl (session : Session) (t : Timepoint) : session.Ages session t where
  before := .refl _ _
  aged := .refl _ t

theorem Ages.trans (h : session.Ages next t) (h' : next.Ages later t) : session.Ages later t where
  before := h.before.trans h'.before
  aged := h.aged.trans h'.aged

theorem Effect.sameBefore (effect : session.Effect action result) (sound : session.Sound)
    (after : action.After t session) (le : t ≤ session.site.directory.clock.last) :
    session.site.directory.index.SameBefore result.2.site.directory.index (t + 1) := by
  have shifts := effect.shifts sound
  generalize result.2.site.directory.index = index at shifts ⊢
  induction shifts with
  | none => exact .refl _ _
  | begun _ _ _ _ hp last start _ ih =>
    have later : session.site.directory.clock.last < nextTimepoint session.site :=
      last_lt_ticked session.site
    apply ih.trans
    apply (RowIndex.sameBefore_begin hp last start).mono
    lia
  | relocked _ _ locked _ hp ih => exact ih.trans (RowIndex.sameBefore_setLocked _ _ hp locked)
  | advanced _ _ _ _ _ commit _ hp valid last start completes there _ _ ih =>
    rw [completes] at after
    have later : t < commit.timepoint := after commit there
    exact ih.trans ((valid.sameBefore_advance hp last start).mono later)
  | purged purges =>
    rw [purges] at after
    exact after.elim

theorem aged_step (sound : session.Sound) (after : action.After t session) :
    session.documents.Aged (session.step action).2.documents t := by
  have edits := edits_step sound action
  generalize (session.step action).2.documents = documents at edits ⊢
  cases edits with
  | still => exact .refl _ t
  | ended ids u => exact Collection.aged_endVersions after.1 after.2
  | retired handle commit field values there =>
    exact (edited_ownEnded sound commit field values).aged (after commit there)
  | written handle commit docs there =>
    obtain ⟨later, fresh⟩ := after commit there
    exact (edited_saveAll fresh).aged later

theorem ages_step (sound : session.Sound) (allowed : action.Allowed session)
    (after : action.After t session) (le : t ≤ session.site.directory.clock.last) :
    session.Ages (session.step action).2 t where
  before := (effect_step sound allowed).sameBefore sound after le
  aged := aged_step sound after

/--
As long as what is done is later than a row, the row stays where it is, and nothing happens before.
-/
theorem ages_run (sound : session.Sound) (hp : Path.Valid path)
    (stored : session.site.directory.index.Stores path core) {actions : List Action}
    (permitted : session.Permits actions) (after : session.After core.start actions) :
    session.Ages (session.run actions) core.start ∧
      (session.run actions).site.directory.index.Stores path core := by
  induction actions generalizing session with
  | nil => exact ⟨.refl session core.start, stored⟩
  | cons action actions ih =>
    obtain ⟨allowed, permitted⟩ := permitted
    obtain ⟨first, after⟩ := after
    have keeps : action ≠ .purge := by
      rintro rfl
      exact first
    have stored' := (effect_step sound allowed).stores sound keeps hp stored
    obtain ⟨ages, stays⟩ := ih (stays_step sound allowed).sound stored' permitted after
    exact ⟨(ages_step sound allowed first (start_le_of_stores sound hp stored)).trans ages, stays⟩

end

/-! ## What a row shows -/

/--
What a row shows as of its head, be it the current row of its branch or history.
-/
def shownOn (session : Session) (row : BranchRow) : Except StoreError (List VersionId) :=
  match Criteria.ofRow row session.site with
  | .ok criteria _ => .ok (session.documents.ids criteria.toPredicate)
  | .error e _ => .error e

section

variable {session next : Session} {path : String} {row row' : BranchRow}

/--
It is all the same whether a row has been closed or locked since.
-/
theorem shownOn_of_core (same : row'.core = row.core) :
    session.shownOn row' = session.shownOn row := by
  obtain ⟨path, base, -, head, -, replaced⟩ := BranchRow.core_eq_iff.1 same
  unfold shownOn Criteria.ofRow Criteria.build
  rw [path, base, head, replaced]

theorem shownOn_of_stores (sound : session.Sound) (hp : Path.Valid row.path)
    (stored : session.site.directory.index.Stores row.path row.core) :
    session.shownOn row = .ok (session.documents.ids
      (session.site.directory.index.criteria row row.head row.replaced).toPredicate) := by
  have valid := sound.site.consistent.valid
  obtain ⟨row', mem, same⟩ := stored
  obtain ⟨-, base, -⟩ := BranchRow.core_eq_iff.1 same
  have covered := valid.covered_of_mem hp mem
  rw [base] at covered
  obtain ⟨history, -, answer⟩ :=
    Criteria.build_of_covered valid sound.site.agrees covered row.head row.replaced
  unfold shownOn Criteria.ofRow
  rw [answer]

theorem visible_eq_shownOn (sound : session.Sound) (hp : Path.Valid row.path)
    (last : session.site.directory.index.last? row.path = some row) :
    session.visible row.path = session.shownOn row := by
  rw [visible_eq sound hp last, shownOn_of_stores sound hp (RowIndex.stores_of_last? last)]

/--
What is gone from a row are those versions on its branch that have an end by now.
-/
theorem exists_shownOn (sound : session.Sound) (sound' : next.Sound) (hp : Path.Valid row.path)
    (mem : row ∈ session.site.directory.index.timeline row.path)
    (stored : next.site.directory.index.Stores row.path row.core)
    (ages : session.Ages next row.head) :
    ∃ shown shown', session.shownOn row = .ok shown ∧ next.shownOn row = .ok shown' ∧
      (∀ id, id ∈ shown' ↔ id ∈ shown ∧ ∀ d, next.documents.get? id = some d →
        d.path = row.flatPath → d.ended = none) ∧
      (shown' = shown ↔ ∀ id ∈ shown, ∀ d, next.documents.get? id = some d →
        d.path = row.flatPath → d.ended = none) := by
  have valid := sound.site.consistent.valid
  have fits := valid.fits row.path hp row mem
  have le : row.base ≤ row.head := by
    rw [fits.head]
    exact fits.base_le
  have criteria := RowIndex.criteria_of_sameBefore valid ages.before hp
    (Int.lt_add_one_of_le le) row.head row.replaced
  have listed := fun id => @Collection.Aged.mem_ids_iff session.site.directory.index _ row.head row
    row.replaced id _ _ ages.aged sound.keyed sound'.keyed valid hp le
  refine ⟨_, _, shownOn_of_stores sound hp (RowIndex.stores_of_mem mem),
    shownOn_of_stores sound' hp stored, ?_⟩
  rw [criteria]
  refine ⟨listed, ?_, ?_⟩
  · intro same id mem
    rw [← same] at mem
    exact ((listed id).1 mem).2
  · intro current
    apply sound'.keyed.ids_ext sound.keyed
    intro id
    exact (listed id).trans (and_iff_left_of_imp (current id))

theorem head_lt_of_isOpen_of_stores {commit : Commit} (sound : session.Sound)
    (hc : commit ∈ session.commits) (open' : commit.IsOpen session.site.directory.openCommits)
    (stored : session.site.directory.index.Stores commit.branchPath row.core)
    (head : row.head = row.start) : row.head < commit.timepoint := by
  have valid := sound.site.consistent.valid
  have hp := (sound.site.consistent.formed commit hc).valid
  obtain ⟨old, mem, same⟩ := stored
  obtain ⟨last, isLast, le⟩ := valid.exists_last mem
  obtain ⟨-, -, start, -⟩ := BranchRow.core_eq_iff.1 same
  have lt := head_lt_of_isOpen sound hc open' isLast
  rw [(valid.fits_last hp isLast).head] at lt
  rw [head, ← start]
  exact Int.lt_of_le_of_lt le lt

end

/--
What is done from now on is done under commits that are later than a row, which all are that are
open on its branch. Then the row stays what it is, closed or not, and shows what it has shown apart
from those versions on its own branch that have been ended. So it goes on showing the same if and
only if none of them is ended, by a commit that is still open or by one that was completed.
-/
theorem shownOn_of_later {start session later : Session} {actions more : List Action}
    {row : BranchRow} (new : start.New) (permitted : start.Permits actions)
    (reached : start.run actions = session)
    (mem : row ∈ session.site.directory.index.allRows) (permitted' : session.Permits more)
    (after : session.After row.head more) (arrived : session.run more = later) :
    ∃ shown shown', session.shownOn row = .ok shown ∧
      (session.site.directory.index.current row.path = .ok (some row) →
        session.visible row.path = .ok shown) ∧
      (∃ row' ∈ later.site.directory.index.allRows, row'.core = row.core) ∧
      (∀ row', row'.core = row.core → later.shownOn row' = .ok shown' ∧
        (later.site.directory.index.current row.path = .ok (some row') →
          later.visible row.path = .ok shown')) ∧
      (∀ commit ∈ later.commits, commit.IsOpen later.site.directory.openCommits →
        commit.branchPath = row.path → row.head < commit.timepoint) ∧
      (∀ id, id ∈ shown' ↔ id ∈ shown ∧ ∀ d, later.documents.get? id = some d →
        d.path = row.flatPath → d.ended = none) ∧
      (shown' = shown ↔ ∀ id ∈ shown, ∀ d, later.documents.get? id = some d →
        d.path = row.flatPath → d.ended = none) := by
  have sound := sound_run new.sound permitted
  rw [reached] at sound
  have sound' := sound_run sound permitted'
  have valid := sound.site.consistent.valid
  obtain ⟨hp, mem⟩ := valid.mem_allRows_iff.1 mem
  have head := (valid.fits row.path hp row mem).head
  have after' := after
  rw [head] at after'
  obtain ⟨ages, stored⟩ := ages_run sound hp (RowIndex.stores_of_mem mem) permitted' after'
  rw [arrived] at sound' ages stored
  have ages' : session.Ages later row.head := head ▸ ages
  have valid' := sound'.site.consistent.valid
  obtain ⟨shown, shown', shows, shows', rest⟩ := exists_shownOn sound sound' hp mem stored ages'
  refine ⟨shown, shown', shows, ?_, ?_, ?_, ?_, rest⟩
  · intro current
    rw [valid.current_eq, Except.ok.injEq] at current
    rw [visible_eq_shownOn sound hp current, shows]
  · obtain ⟨row', mem', same⟩ := stored
    obtain ⟨path, -⟩ := BranchRow.core_eq_iff.1 same
    refine ⟨row', valid'.mem_allRows_iff.2 ?_, same⟩
    rw [path]
    exact ⟨hp, mem'⟩
  · intro row' same
    obtain ⟨path, -⟩ := BranchRow.core_eq_iff.1 same
    have shows'' := (shownOn_of_core same).trans shows'
    refine ⟨shows'', ?_⟩
    intro current
    rw [valid'.current_eq, Except.ok.injEq] at current
    rw [← path] at hp current ⊢
    rw [visible_eq_shownOn sound' hp current, shows'']
  · intro commit hc open' branch
    rw [← branch] at stored
    exact head_lt_of_isOpen_of_stores sound' hc open' stored head

/--
The row that the first commit on the branch has left behind.
-/
def writtenRow : BranchRow := { BranchRow.fresh "M" 1 2 with containsContent := true }

/--
A commit on the branch adds a version of another document.
-/
def addedAbove : List Action :=
  [.openCommit "M" .content, .retire 1 "businessId" (.ofList ["2"]),
    .write 1 [{ businessId := some "2" }], .complete 1]

theorem after_addedAbove : (empty.run inheritedBelow).After 2 addedAbove := by
  have later : (((empty.run inheritedBelow).run (addedAbove.take 1)).commits[1]?).all
      (fun commit => decide (2 < commit.timepoint)) := by decide +kernel
  have later' : (((empty.run inheritedBelow).run (addedAbove.take 2)).commits[1]?).all
      (fun commit => decide (2 < commit.timepoint)) := by decide +kernel
  have later'' : (((empty.run inheritedBelow).run (addedAbove.take 3)).commits[1]?).all
      (fun commit => decide (2 < commit.timepoint)) := by decide +kernel
  have fresh : ∀ id ∈ (((empty.run inheritedBelow).run
      (addedAbove.take 2)).site.host.ids.drawMany 1).1,
        ((empty.run inheritedBelow).run (addedAbove.take 2)).documents.get? id = none := by
    decide +kernel
  simp only [Option.all_eq_true, decide_eq_true_eq] at later later' later''
  exact ⟨trivial, later, fun commit there => ⟨later' commit there, fresh⟩, later'', trivial⟩

/--
The row is history then, and shows what it has shown before.
-/
theorem shownOn_of_addedAbove :
    (empty.run inheritedBelow).shownOn writtenRow = .ok [.generated 1] ∧
      ((empty.run inheritedBelow).run addedAbove).shownOn (writtenRow.close 4) =
        .ok [.generated 1] := by
  have m : Path.Valid "M" := by decide
  have a : Path.Valid "M/A" := by decide
  have permitted : empty.Permits inheritedBelow := ⟨m, m, trivial, trivial, a, trivial⟩
  have permitted' : (empty.run inheritedBelow).Permits addedAbove :=
    ⟨m, trivial, trivial, trivial, trivial⟩
  have mem : writtenRow ∈ (empty.run inheritedBelow).site.directory.index.allRows := by
    decide +kernel
  have shown : (empty.run inheritedBelow).shownOn writtenRow = .ok [.generated 1] := by
    decide +kernel
  have current : (((empty.run inheritedBelow).run addedAbove).documents.get? (.generated 1)).all
      (fun d => d.ended.isNone) := by decide +kernel
  obtain ⟨ids, ids', shows, -, -, shows', -, -, same⟩ :=
    shownOn_of_later new_empty permitted rfl mem permitted' after_addedAbove rfl
  have listed := shows.symm.trans shown
  rw [Except.ok.injEq] at listed
  refine ⟨shown, (shows' (writtenRow.close 4) rfl).1.trans ?_⟩
  rw [same.2, listed]
  rw [listed]
  intro id mem d found _
  rw [← List.mem_singleton.1 mem, found] at current
  exact Option.isNone_iff_eq_none.1 current

/--
A commit on the branch supersedes the version that the row shows. Readers of the branch miss it as
soon as it is ended, and so does everyone who looks at the row once it is history.
-/
theorem not_shown_since :
    writtenRow ∈ (empty.run inheritedBelow).site.directory.index.allRows ∧
      (empty.run inheritedBelow).shownOn writtenRow = .ok [.generated 1] ∧
      (empty.run (inheritedBelow ++ replacedAbove.take 2)).site.directory.index.current "M" =
        .ok (some { writtenRow with locked := true }) ∧
      (empty.run (inheritedBelow ++ replacedAbove.take 2)).visible "M" = .ok [] ∧
      writtenRow.close 4 ∈
        (empty.run (inheritedBelow ++ replacedAbove)).site.directory.index.allRows ∧
      (empty.run (inheritedBelow ++ replacedAbove)).shownOn (writtenRow.close 4) = .ok [] := by
  decide +kernel

end Session

end TemporalStore
