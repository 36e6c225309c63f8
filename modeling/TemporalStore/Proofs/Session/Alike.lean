import TemporalStore.Proofs.Session.Isolation
import TemporalStore.Proofs.Session.Promotion
import TemporalStore.Proofs.Session.Settled

/-!
This module contains when a branch and its parent show the same versions after the content of the
branch was moved to the parent under a promotion. The parent sees its own versions as long as they
have no end; the branch now inherits them, apart from those that are hidden on the parent.
-/

namespace TemporalStore.Session

open Directory

/--
The versions without end that were written on the branch of a row.
-/
def liveChanges (session : Session) (row : BranchRow) : List VersionId :=
  session.documents.ids ((Criteria.changesOn row).both .endUnset)

/--
The content of the branch of `row` is moved to another one: what it supersedes there is retired, the
versions on the branch itself are ended, and the new ones are written under the promotion.
-/
def moving (session : Session) (path : String) (row : BranchRow) (field : String)
    (values : OrderedSet String) (docs : List Document) : List Action :=
  [.openPromotion path row.path, .retire session.commits.length field values,
    .endVersions (session.liveChanges row) (nextTimepoint session.site),
    .write session.commits.length docs]

section

variable {session next : Session} {path source : String} {row : BranchRow} {field : String}
  {values : OrderedSet String} {docs : List Document} {id : VersionId} {d : Document}
  {t : Timepoint} {hidden : OrderedSet VersionId}

theorem mem_liveChanges_iff (sound : session.Sound)
    (found : session.documents.get? id = some d) :
    id ∈ session.liveChanges row ↔ d.path = row.flatPath ∧ d.start ≤ row.head ∧ d.ended = none := by
  have ids := @Collection.Keyed.mem_ids_iff session.documents id sound.keyed
    ((Criteria.changesOn row).both .endUnset)
  refine ids.trans ?_
  simp [found, Criteria.changesOn, Predicate.accepts, and_assoc]

/--
A promotion of the branch `source`, on which `hidden` is hidden, to the branch `path` is open as of
`t`.
-/
structure Promotes (session : Session) (handle : Nat) (path source : String) (t : Timepoint)
    (hidden : OrderedSet VersionId) : Prop where
  handle : ∃ commit, session.commits[handle]? = some commit ∧
    commit.IsOpen session.site.directory.openCommits ∧ commit.branchPath = path ∧
      commit.timepoint = t ∧ commit.source = some source
  source : (session.site.directory.index.last? source).map BranchRow.replaced = some hidden

theorem promotes_openPromotion (sound : session.Sound) (hp : Path.Valid path)
    (hs : Path.Valid source) (last : session.site.directory.index.last? source = some row)
    (ok : (session.step (.openPromotion path source)).1 = .ok ()) :
    (session.step (.openPromotion path source)).2.Promotes session.commits.length path source
        (nextTimepoint session.site) row.replaced ∧
      session.site.directory.openCommits.get? source = none ∧ source ≠ path := by
  have effect := @effect_step session (.openPromotion path source) sound ⟨hp, hs⟩
  have consistent := sound.site.consistent
  generalize session.step (.openPromotion path source) = result at ok effect ⊢
  cases effect with
  | still _ _ _ quiet => exact absurd trivial (quiet ok)
  | openedBoth _ _ targetRow sourceRow next _ _ distinct targetLast _ sourceLast sourceUnlocked
      index openCommits handles =>
    have rowPath := (consistent.valid.fits_last hp targetLast).path
    rw [last, Option.some.injEq] at sourceLast
    rw [← sourceLast] at sourceUnlocked
    refine ⟨⟨⟨openedPromotion session.site source targetRow, ?_, ?_, rowPath, rfl, rfl⟩, ?_⟩,
      consistent.get?_eq_none_of_unlocked last sourceUnlocked, Ne.symm distinct⟩
    · rw [handles]
      exact List.getElem?_concat_length
    · change next.site.directory.openCommits.get? targetRow.path = _
      rw [openCommits, rowPath, OrderedMap.get?_insert_of_ne distinct]
      exact OrderedMap.get?_insert_self
    · rw [index, RowIndex.last?_setLocked _ _ hs hs, if_pos rfl,
        RowIndex.last?_setLocked _ _ hp hs, if_neg (Ne.symm distinct), last]
      rfl

theorem promotes_retire {handle : Nat} (sound : session.Sound)
    (promotes : session.Promotes handle path source t hidden) :
    (session.step (.retire handle field values)).2.Promotes handle path source t hidden := by
  obtain ⟨⟨commit, there, open', branch, time, double⟩, last⟩ := promotes
  have retired := retired_retire sound there open' field values
  obtain ⟨commit', there', bare, open''⟩ := retired.handle
  obtain ⟨branch', time', -, double'⟩ := Commit.bare_eq_iff.1 bare
  refine ⟨⟨commit', there', open'', (congrArg BranchRow.path branch').trans branch,
    time'.trans time, double'.trans double⟩, ?_⟩
  rw [retired.index]
  exact last

theorem promotes_write {handle : Nat}
    (promotes : session.Promotes handle path source t hidden) :
    (session.step (.write handle docs)).2.Promotes handle path source t hidden := by
  obtain ⟨⟨commit, there, rest⟩, last⟩ := promotes
  rw [step_write there]
  exact ⟨⟨commit, there, rest⟩, last⟩

theorem promotes_moving (sound : session.Sound) (hp : Path.Valid path) (hs : Path.Valid row.path)
    (last : session.site.directory.index.last? row.path = some row)
    (opens : (session.step (.openPromotion path row.path)).1 = .ok ()) :
    (session.run (session.moving path row field values docs)).Sound ∧
      (session.run (session.moving path row field values docs)).Promotes session.commits.length path
        row.path (nextTimepoint session.site) row.replaced := by
  obtain ⟨promotes, -⟩ := promotes_openPromotion sound hp hs last opens
  have sound₁ := (@stays_step session sound (.openPromotion path row.path) ⟨hp, hs⟩).sound
  constructor
  · exact sound_run sound ⟨⟨hp, hs⟩, trivial, trivial, trivial, trivial⟩
  · have promotes₂ := @promotes_retire _ path row.path field values _ _ _ sound₁ promotes
    exact promotes_write ⟨promotes₂.handle, promotes₂.source⟩

/-! ## What is left on the branch -/

/--
Nothing is written on a branch after its head but under a commit that is open there.
-/
theorem mem_liveChanges_of_settled (sound : session.Sound) (settled : session.Settled)
    (hs : Path.Valid source) (free : session.site.directory.openCommits.get? source = none)
    (last : session.site.directory.index.last? source = some row)
    (found : session.documents.get? id = some d) (flat : d.path = Path.flatten source)
    (current : d.ended = none) : id ∈ session.liveChanges row := by
  have rowPath := (sound.site.consistent.valid.fits_last hs last).path
  obtain ⟨path, hp, flat', reaches⟩ := settled.stored id d found
  have same : path = source := Path.flatten_injective hp hs (flat'.symm.trans flat)
  rw [same] at reaches
  rw [mem_liveChanges_iff sound found]
  rcases reaches with ⟨row', last', le⟩ | ⟨commit, -, open', rfl, -⟩
  · rw [last, Option.some.injEq] at last'
    rw [← last'] at le
    refine ⟨?_, le, current⟩
    rw [flat, ← rowPath]
    rfl
  · unfold Commit.IsOpen at open'
    rw [free] at open'
    cases open'

/--
What is retired under the promotion ends with it.
-/
theorem exists_of_promotes_retire {handle : Nat} (sound : session.Sound)
    (promotes : session.Promotes handle path source t hidden)
    (found : (session.step (.retire handle field values)).2.documents.get? id = some d) :
    ∃ d', session.documents.get? id = some d' ∧ (d = d' ∨ d = { d' with ended := some t }) := by
  cases stems_step sound found with
  | kept _ _ found' => exact ⟨d, found', .inl rfl⟩
  | retired _ commit _ _ d' there found' =>
    obtain ⟨commit', there', -, -, time, -⟩ := promotes.handle
    rw [there, Option.some.injEq] at there'
    rw [there', time]
    exact ⟨d', found', .inr rfl⟩

/--
What is written under the promotion is on its branch.
-/
theorem found_or_written_of_promotes {handle : Nat} (sound : session.Sound)
    (promotes : session.Promotes handle path source t hidden)
    (found : (session.step (.write handle docs)).2.documents.get? id = some d) :
    session.documents.get? id = some d ∨ d.path = Path.flatten path ∧ d.ended = none := by
  cases stems_step sound found with
  | kept _ _ found' => exact .inl found'
  | written _ commit _ _ there stamped =>
    obtain ⟨commit', there', -, branch, -⟩ := promotes.handle
    rw [there, Option.some.injEq] at there'
    obtain ⟨flat, -, current⟩ := Commit.stamped_of_mem_identify stamped
    rw [← there'] at branch
    refine .inr ⟨?_, current⟩
    rw [← branch]
    exact flat

/--
Where a version comes from that is there once the content was moved.
-/
theorem moving_cases (sound : session.Sound) (hp : Path.Valid path) (hs : Path.Valid row.path)
    (last : session.site.directory.index.last? row.path = some row)
    (opens : (session.step (.openPromotion path row.path)).1 = .ok ())
    (found : (session.run (session.moving path row field values docs)).documents.get? id =
      some d) :
    (d.path = Path.flatten path ∧ d.ended = none) ∨
      ∃ d', session.documents.get? id = some d' ∧ ((d = d' ∧ id ∉ session.liveChanges row) ∨
        d = { d' with ended := some (nextTimepoint session.site) }) := by
  obtain ⟨promotes, -⟩ := promotes_openPromotion sound hp hs last opens
  have sound₁ := (@stays_step session sound (.openPromotion path row.path) ⟨hp, hs⟩).sound
  have documents₁ : (session.step (.openPromotion path row.path)).2.documents =
      session.documents := documents_call (openPromotion path row.path) fun _ _ => rfl
  unfold moving at found
  simp only [run] at found
  generalize (session.step (.openPromotion path row.path)).2 = session₁ at *
  have promotes₂ := @promotes_retire session₁ path row.path field values _ _ _ sound₁ promotes
  have sound₂ := (@stays_step session₁ sound₁
    (.retire session.commits.length field values) trivial).sound
  have retired := fun d₂ =>
    @exists_of_promotes_retire session₁ _ _ field values id d₂ _ _ _ sound₁ promotes
  rw [documents₁] at retired
  generalize (session₁.step (.retire session.commits.length field values)).2 = session₂ at *
  have sound₃ := (@stays_step session₂ sound₂
    (.endVersions (session.liveChanges row) (nextTimepoint session.site)) trivial).sound
  rcases found_or_written_of_promotes sound₃ ⟨promotes₂.handle, promotes₂.source⟩ found with
    found₃ | written
  · right
    change (session₂.documents.endVersions (session.liveChanges row)
      (nextTimepoint session.site)).get? id = some d at found₃
    rw [Collection.get?_endVersions, Option.map_eq_some_iff] at found₃
    obtain ⟨d₂, found₂, rfl⟩ := found₃
    obtain ⟨d', found', same⟩ := retired d₂ found₂
    refine ⟨d', found', ?_⟩
    by_cases left : id ∈ session.liveChanges row
    · rw [if_pos left]
      rcases same with rfl | rfl <;> exact .inr rfl
    · rw [if_neg left]
      exact same.imp_left (⟨·, left⟩)
  · exact .inl written

/--
Once the content was moved, nothing is left on the branch.
-/
theorem ended_of_moving (sound : session.Sound) (settled : session.Settled)
    (hp : Path.Valid path) (hs : Path.Valid row.path)
    (last : session.site.directory.index.last? row.path = some row)
    (opens : (session.step (.openPromotion path row.path)).1 = .ok ())
    (found : (session.run (session.moving path row field values docs)).documents.get? id = some d)
    (flat : d.path = row.flatPath) : d.ended ≠ none := by
  obtain ⟨-, free, distinct⟩ := promotes_openPromotion sound hp hs last opens
  intro current
  rcases moving_cases sound hp hs last opens found with
    ⟨flat', -⟩ | ⟨d', found', ⟨rfl, left⟩ | rfl⟩
  · exact distinct (Path.flatten_injective hs hp (flat.symm.trans flat'))
  · exact left (mem_liveChanges_of_settled sound settled hs free last found' flat current)
  · cases current

/--
Once the content was moved, nothing has an end after the promotion.
-/
theorem ended_le_of_moving (sound : session.Sound) (settled : session.Settled)
    (hp : Path.Valid path) (hs : Path.Valid row.path)
    (last : session.site.directory.index.last? row.path = some row)
    (opens : (session.step (.openPromotion path row.path)).1 = .ok ())
    (found : (session.run (session.moving path row field values docs)).documents.get? id = some d)
    (ended : d.ended = some t) : t ≤ nextTimepoint session.site := by
  have later : session.site.directory.clock.last < nextTimepoint session.site :=
    last_lt_ticked session.site
  rcases moving_cases sound hp hs last opens found with
    ⟨-, current⟩ | ⟨d', found', ⟨rfl, -⟩ | rfl⟩
  · rw [current] at ended
    cases ended
  · obtain ⟨q, hq, reaches⟩ := settled.ended id d t found' ended
    have := le_last_of_reaches sound hq reaches
    lia
  · exact Int.le_of_eq (Option.some.inj ended).symm

end

/-! ## What both show -/

section

variable {index index' : RowIndex} {now : Timepoint} {commit : Commit} {source : String}
  {row : BranchRow} {id : VersionId} {d : Document}

/--
If nothing is left on the source and nothing has an end after the promotion, the source sees what
its parent sees, apart from versions of the parent that are hidden on the parent.
-/
theorem Merged.accepts_source_iff_of_left (h : Merged index index' commit source row)
    (valid' : index'.Valid now) (formed : commit.Formed now)
    (above : Path.parent? source = some commit.branchPath) (known : d.id = some id)
    (left : d.path = Path.flatten source → d.ended ≠ none)
    (ended_le : ∀ t, d.ended = some t → t ≤ commit.timepoint) :
    (index'.criteria (.fresh source commit.timepoint commit.timepoint) commit.timepoint
        ∅).toPredicate.accepts d ↔
      (index'.criteria row row.head row.replaced).toPredicate.accepts d ∧
        (d.path = commit.flatBranchPath → id ∉ row.replaced) := by
  have covering := valid'.covers_last h.target.last (Int.le_of_eq (h.start_eq valid' formed))
  have rowPath := h.target.path
  have flat : row.flatPath = commit.flatBranchPath := congrArg Path.flatten rowPath
  have validRow : Path.Valid row.path := rowPath ▸ formed.valid
  have elsewhere : index'.Inherits row row.replaced d → d.path ≠ commit.flatBranchPath := by
    rw [← flat]
    exact valid'.path_ne_of_inherits validRow
  have unended : (∀ t, d.ended = some t → commit.timepoint < t) ↔ d.ended = none := by
    cases ended : d.ended with
    | none => simp
    | some t =>
      have := ended_le t ended
      simp only [Option.some.injEq, forall_eq', reduceCtorEq, iff_false]
      lia
  have inherits : (∃ level ∈ index'.levels (Path.ancestors commit.branchPath) row.base row.replaced,
      level.toPredicate.accepts d) ↔ index'.Inherits row row.replaced d := by
    unfold RowIndex.Inherits
    rw [rowPath]
  rw [RowIndex.accepts_fresh_iff above covering, Level.accepts_inherited_iff rfl,
    RowIndex.accepts_criteria_iff, inherits, h.target.head, flat]
  simp only [known, Option.some.injEq, forall_eq', unended]
  change _ ∨ (d.path = row.flatPath ∧ _) ∨ _ ↔ _
  rw [flat]
  constructor
  · rintro (⟨path, -, current⟩ | ⟨path, start, current, shown⟩ | inherits)
    · exact absurd current (left path)
    · exact ⟨.inl ⟨path, start, current⟩, fun _ => shown⟩
    · exact ⟨.inr inherits, fun path => absurd path (elsewhere inherits)⟩
  · rintro ⟨⟨path, start, current⟩ | inherits, shown⟩
    · exact .inr (.inl ⟨path, start, current, shown path⟩)
    · exact .inr (.inr inherits)

end

section

variable {session after : Session} {handle : Nat} {commit : Commit} {source : String}

/--
A promotion into the parent is completed when nothing is left on the source.
-/
theorem shown_complete (sound : session.Sound) (there : session.commits[handle]? = some commit)
    (double : commit.source = some source)
    (above : Path.parent? source = some commit.branchPath)
    (left : ∀ id d, session.documents.get? id = some d → d.path = Path.flatten source →
      d.ended ≠ none)
    (ended_le : ∀ id d t, session.documents.get? id = some d → d.ended = some t →
      t ≤ commit.timepoint)
    (done : (session.step (.complete handle)).1 = .ok ())
    (arrived : (session.step (.complete handle)).2 = after) :
    ∃ row ids ids', after.site.directory.index.current commit.branchPath = .ok (some row) ∧
      row.replaced = commit.allReplaced ∪ sourceReplaced session.site.directory.index commit ∧
      after.visible commit.branchPath = .ok ids ∧ after.visible source = .ok ids' ∧
      (∀ id, id ∈ ids' ↔ id ∈ ids ∧ ∀ d, after.documents.get? id = some d →
        d.path = commit.flatBranchPath → id ∉ row.replaced) ∧
      (ids' = ids ↔ ∀ id ∈ ids, ∀ d, after.documents.get? id = some d →
        d.path = commit.flatBranchPath → id ∉ row.replaced) := by
  obtain ⟨sound', documents, formed, row, merged, last, onBranch, onSource⟩ :=
    exists_merged_of_complete sound there double done arrived
  have valid' := sound'.site.consistent.valid
  rw [← documents] at left ended_le
  have shown : ∀ id, id ∈ after.documents.ids (after.site.directory.index.criteria
        (.fresh source commit.timepoint commit.timepoint) commit.timepoint ∅).toPredicate ↔
      id ∈ after.documents.ids (after.site.directory.index.criteria row row.head
        row.replaced).toPredicate ∧ ∀ d, after.documents.get? id = some d →
          d.path = commit.flatBranchPath → id ∉ row.replaced := by
    intro id
    rw [sound'.keyed.mem_ids_iff, sound'.keyed.mem_ids_iff]
    have accepts := fun d (found : after.documents.get? id = some d) =>
      merged.accepts_source_iff_of_left valid' formed above (sound'.keyed id d found)
        (left id d found) (ended_le id d · found)
    constructor
    · rintro ⟨d, found, accepted⟩
      obtain ⟨accepted, shown⟩ := (accepts d found).1 accepted
      refine ⟨⟨d, found, accepted⟩, ?_⟩
      intro d' found'
      rw [Option.some.inj (found'.symm.trans found)]
      exact shown
    · rintro ⟨⟨d, found, accepted⟩, shown⟩
      exact ⟨d, found, (accepts d found).2 ⟨accepted, shown d found⟩⟩
  refine ⟨row, _, _, last, merged.target.replaced, onBranch, onSource, shown, ?_⟩
  constructor
  · intro same id mem
    rw [← same] at mem
    exact ((shown id).1 mem).2
  · intro all
    apply sound'.keyed.ids_ext sound'.keyed
    intro id
    exact (shown id).trans (and_iff_left_of_imp (all id))

end

/--
The content of a branch is moved to its parent, in any state that can be reached without giving up a
commit. Then the branch shows what its parent shows, apart from those versions of the parent itself
that are hidden on the parent. What was hidden on the branch is hidden on the parent from then on,
so the two show the same if and only if nothing that the parent itself shows is hidden there.
-/
theorem alike_of_promotion {start session after : Session} {actions : List Action}
    {path source : String} {row : BranchRow} (new : start.New)
    (permitted : start.Permits actions) (faithful : start.Faithful actions)
    (reached : start.run actions = session) (hs : Path.Valid source)
    (above : Path.parent? source = some path)
    (current : session.site.directory.index.current source = .ok (some row)) (field : String)
    (values : OrderedSet String) (docs : List Document)
    (opens : (session.step (.openPromotion path source)).1 = .ok ())
    (done : ((session.run (session.moving path row field values docs)).step
      (.complete session.commits.length)).1 = .ok ())
    (arrived : ((session.run (session.moving path row field values docs)).step
      (.complete session.commits.length)).2 = after) :
    ∃ parentRow ids ids', after.site.directory.index.current path = .ok (some parentRow) ∧
      (∀ id ∈ row.replaced, id ∈ parentRow.replaced) ∧
      after.visible path = .ok ids ∧ after.visible source = .ok ids' ∧
      (∀ id, id ∈ ids' ↔ id ∈ ids ∧ ∀ d, after.documents.get? id = some d →
        d.path = Path.flatten path → id ∉ parentRow.replaced) ∧
      (ids' = ids ↔ ∀ id ∈ ids, ∀ d, after.documents.get? id = some d →
        d.path = Path.flatten path → id ∉ parentRow.replaced) := by
  have sound := sound_run new.sound permitted
  have settled := settled_run new.sound new.settled permitted faithful
  rw [reached] at sound settled
  have hp := Path.valid_of_parent? hs above
  have valid := sound.site.consistent.valid
  rw [valid.current_eq] at current
  have last : session.site.directory.index.last? source = some row := Except.ok.inj current
  obtain rfl : row.path = source := (valid.fits_last hs last).path
  obtain ⟨soundMoved, promotes⟩ :=
    @promotes_moving session path row field values docs sound hp hs last opens
  obtain ⟨commit, there, -, branch, time, double⟩ := promotes.handle
  have left := fun id d => @ended_of_moving session path row field values docs id d sound settled hp
    hs last opens
  have ended_le := fun id d t => @ended_le_of_moving session path row field values docs id d t sound
    settled hp hs last opens
  rw [← branch] at above
  rw [← time] at ended_le
  obtain ⟨parentRow, ids, ids', parentLast, replaced, shown⟩ :=
    shown_complete soundMoved there double above left ended_le done arrived
  have flat : commit.flatBranchPath = Path.flatten path := congrArg Path.flatten branch
  rw [branch, flat] at shown
  rw [branch] at parentLast
  refine ⟨parentRow, ids, ids', parentLast, ?_, shown⟩
  intro id mem
  rw [replaced, OrderedSet.mem_union]
  right
  obtain ⟨sourceRow, sourceLast, same⟩ := Option.map_eq_some_iff.1 promotes.source
  rw [sourceReplaced_of_last? double sourceLast, same]
  exact mem

def editedAbove : List Action :=
  .create "M" :: (empty.run [.create "M"]).editOn "M" "businessId" (.ofList ["1"])
    [{ businessId := some "1", term := "old" }] ++ [.create "M/A"]

/--
A document of the parent is edited on the branch. If there are no new versions, it is deleted there.
-/
def editedBelow (docs : List Document) : List Action :=
  editedAbove ++ (empty.run editedAbove).editOn "M/A" "businessId" (.ofList ["1"]) docs

theorem permits_editedBelow (docs : List Document) : empty.Permits (editedBelow docs) := by
  have m : Path.Valid "M" := by decide
  have a : Path.Valid "M/A" := by decide
  exact ⟨m, m, trivial, trivial, trivial, a, a, trivial, trivial, trivial, trivial⟩

theorem faithful_editedBelow (docs : List Document) : empty.Faithful (editedBelow docs) :=
  ⟨trivial, trivial, trivial, trivial, trivial, trivial, trivial, trivial, trivial, trivial,
    trivial⟩

/--
The current row of the branch, on which the version of the parent is hidden.
-/
def editedRow : BranchRow :=
  { BranchRow.fresh "M/A" 2 4 with containsContent := true, replaced := .ofList [.generated 1] }

def replacedBelow : Session := empty.run (editedBelow [{ businessId := some "1", term := "new" }])

def replacementMoved : Session :=
  ((replacedBelow.run (replacedBelow.moving "M" editedRow "businessId" (.ofList ["1"])
    [{ businessId := some "1", term := "new" }])).step (.complete replacedBelow.commits.length)).2

/--
Both show the new version once it was moved to the parent.
-/
theorem alike_of_replacement :
    replacedBelow.site.directory.index.current "M/A" = .ok (some editedRow) ∧
      ∃ ids, replacementMoved.visible "M" = .ok ids ∧ replacementMoved.visible "M/A" = .ok ids := by
  have a : Path.Valid "M/A" := by decide
  have current : replacedBelow.site.directory.index.current "M/A" = .ok (some editedRow) := by
    decide +kernel
  have merged : replacementMoved.site.directory.index.current "M" =
      .ok (some { BranchRow.fresh "M" 1 5 with
        containsContent := true, replaced := .ofList [.generated 1] }) := by decide +kernel
  have shown : replacementMoved.visible "M" = .ok [.generated 3] := by decide +kernel
  obtain ⟨parentRow, ids, ids', last, -, shows, shows', -, same⟩ :=
    alike_of_promotion new_empty (permits_editedBelow _) (faithful_editedBelow _)
      (rfl : empty.run (editedBelow _) = replacedBelow) a (by decide) current "businessId"
      (.ofList ["1"]) [{ businessId := some "1", term := "new" }] (by decide +kernel)
      (by decide +kernel) (rfl : _ = replacementMoved)
  have row := last.symm.trans merged
  have listed := shows.symm.trans shown
  rw [Except.ok.injEq, Option.some.injEq] at row
  rw [Except.ok.injEq] at listed
  refine ⟨current, ids, shows, shows'.trans (congrArg Except.ok (same.2 ?_))⟩
  rw [row, listed]
  intro id mem d _ _
  rw [List.mem_singleton.1 mem]
  decide

def deletedBelow : Session := empty.run (editedBelow [])

def deletionMoved : Session :=
  ((deletedBelow.run (deletedBelow.moving "M" editedRow "businessId" ∅ [])).step
    (.complete deletedBelow.commits.length)).2

/--
If the document is deleted on the branch, there is nothing to be moved to the parent. The parent
still shows it, the branch does not.
-/
theorem shown_above_only :
    empty.New ∧ empty.Permits (editedBelow []) ∧ empty.Faithful (editedBelow []) ∧
      deletedBelow.site.directory.index.current "M/A" = .ok (some editedRow) ∧
      deletedBelow.liveChanges editedRow = [] ∧
      deletionMoved.visible "M" = .ok [.generated 1] ∧ deletionMoved.visible "M/A" = .ok [] :=
  ⟨new_empty, permits_editedBelow [], faithful_editedBelow [], by decide +kernel⟩

end TemporalStore.Session
