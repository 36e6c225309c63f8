import TemporalStore.Proofs.Session.Hidden

/-!
This module contains that a branch shows what its parent shows when it has just been created, as
long as content is edited on its own branch and never moved to another one.
-/

namespace TemporalStore

/--
No content is moved to another branch, and nothing is ended or hidden but what an edit supersedes.
-/
def Action.Editorial : Action → Prop
  | .openPromotion _ _ | .hide _ _ | .endVersions _ _ => False
  | _ => True

namespace Session

open Directory

/--
The version was written on a branch other than the given one.
-/
def StoresElsewhere (session : Session) (id : VersionId) (path : String) : Prop :=
  ∃ d, session.documents.get? id = some d ∧ d.path ≠ Path.flatten path

/--
A branch has got to the ends of all versions on it, or will get there when an open commit is
completed, and what is hidden on it was written elsewhere.
-/
structure Edited (session : Session) : Prop where
  settled : session.Settled
  ended : ∀ path id d t, Path.Valid path → session.documents.get? id = some d →
    d.path = Path.flatten path → d.ended = some t → session.Reaches path t
  single : ∀ commit ∈ session.commits, commit.source = none
  handles : ∀ commit ∈ session.commits, ∀ id ∈ commit.replaced,
    session.StoresElsewhere id commit.branchPath
  rows : ∀ path row, Path.Valid path → session.site.directory.index.last? path = some row →
    ∀ id ∈ row.replaced, session.StoresElsewhere id path

section

variable {session : Session} {action : Action} {commit : Commit} {path : String} {t : Timepoint}
  {row : BranchRow} {id : VersionId} {d : Document}

theorem storesElsewhere_step (sound : session.Sound) (fresh : action.Fresh session)
    (stored : session.StoresElsewhere id path) :
    (session.step action).2.StoresElsewhere id path := by
  obtain ⟨d, found, elsewhere⟩ := stored
  obtain ⟨ended, found'⟩ := exists_ended_step sound fresh found
  exact ⟨_, found', elsewhere⟩

/-! ## What a step keeps -/

theorem edited_ended_step (sound : session.Sound) (allowed : action.Allowed session)
    (faithful : action.Faithful session) (editorial : action.Editorial) (edited : session.Edited)
    (hp : Path.Valid path) (found : (session.step action).2.documents.get? id = some d)
    (here : d.path = Path.flatten path) (ended : d.ended = some t) :
    (session.step action).2.Reaches path t := by
  have effect := effect_step sound allowed
  have sound' := (stays_step sound allowed).sound
  cases stems_step sound found with
  | kept _ _ found' =>
    exact effect.reaches sound sound' faithful hp (edited.ended path id d t hp found' here ended)
  | ended => exact editorial.elim
  | retired handle commit field values d' there found' flat older current =>
    -- whoever ends it does so on the branch of the commit, as of the timepoint of the commit
    have hc := List.mem_of_getElem? there
    have hq := (sound.site.consistent.formed commit hc).valid
    have same : commit.branchPath = path := Path.flatten_injective hq hp (flat.symm.trans here)
    have reaches := edited.settled.commits commit hc
    rw [same, Option.some.inj ended] at reaches
    exact effect.reaches sound sound' faithful hp reaches
  | written handle commit docs _ there stamped =>
    rw [(Commit.stamped_of_mem_identify stamped).2.2] at ended
    cases ended

theorem Effect.single {result : Except StoreError Unit × Session}
    (effect : session.Effect action result) (editorial : action.Editorial)
    (single : ∀ commit ∈ session.commits, commit.source = none)
    (hc : commit ∈ result.2.commits) : commit.source = none := by
  have of_handles : result.2.commits.map Commit.bare = session.commits.map Commit.bare →
      commit.source = none := by
    intro handles
    have mem := List.mem_map_of_mem (f := Commit.bare) hc
    rw [handles] at mem
    obtain ⟨before, hb, bare⟩ := List.mem_map.1 mem
    rw [← (Commit.bare_eq_iff.1 bare).2.2.2]
    exact single before hb
  cases effect with
  | still _ _ _ _ _ _ handles => exact of_handles handles
  | opened _ _ _ _ _ _ _ _ _ handles =>
    rw [handles] at hc
    rcases List.mem_append.1 hc with hc | hc
    · exact single commit hc
    · rw [List.mem_singleton.1 hc]
      rfl
  | openedBoth => exact editorial.elim
  | reopened _ _ _ _ _ handles => simp [handles] at hc
  | _ => exact of_handles (congrArg _ (by assumption))

theorem edited_handles_step (sound : session.Sound) (allowed : action.Allowed session)
    (fresh : action.Fresh session) (editorial : action.Editorial) (edited : session.Edited)
    (hc : commit ∈ (session.step action).2.commits) (mem : id ∈ commit.replaced) :
    (session.step action).2.StoresElsewhere id commit.branchPath := by
  apply storesElsewhere_step sound fresh
  cases hides_step sound allowed hc mem with
  | kept _ _ before hb bare mem =>
    have same : before.branchPath = commit.branchPath :=
      congrArg BranchRow.path (Commit.bare_eq_iff.1 bare).1
    rw [← same]
    exact edited.handles before hb id mem
  | hidden => exact editorial.elim
  | retired _ _ _ _ d found elsewhere => exact ⟨d, found, elsewhere⟩

theorem edited_rows_step (sound : session.Sound) (allowed : action.Allowed session)
    (fresh : action.Fresh session) (edited : session.Edited) (hp : Path.Valid path)
    (last : (session.step action).2.site.directory.index.last? path = some row)
    (mem : id ∈ row.replaced) : (session.step action).2.StoresElsewhere id path := by
  apply storesElsewhere_step sound fresh
  rcases (effect_step sound allowed).hidden sound hp last mem with
    ⟨before, last', mem'⟩ | ⟨commit, hc, rfl, under | onSource⟩
  · exact edited.rows path before hp last' id mem'
  · exact edited.handles commit hc id under
  · rw [sourceReplaced_of_single (edited.single commit hc)] at onSource
    simp at onSource

theorem edited_step (sound : session.Sound) (allowed : action.Allowed session)
    (faithful : action.Faithful session) (fresh : action.Fresh session)
    (editorial : action.Editorial) (edited : session.Edited) :
    (session.step action).2.Edited where
  settled := settled_step sound allowed faithful edited.settled
  ended _ _ _ _ := edited_ended_step sound allowed faithful editorial edited
  single _ := (effect_step sound allowed).single editorial edited.single
  handles _ hc _ := edited_handles_step sound allowed fresh editorial edited hc
  rows _ _ hp last _ := edited_rows_step sound allowed fresh edited hp last

theorem edited_run (sound : session.Sound) (edited : session.Edited) {actions : List Action}
    (permitted : session.Permits actions) (faithful : session.Faithful actions)
    (fresh : session.Fresh actions) (editorial : ∀ action ∈ actions, action.Editorial) :
    (session.run actions).Edited := by
  induction actions generalizing session with
  | nil => exact edited
  | cons action actions ih =>
    obtain ⟨allowed, permitted⟩ := permitted
    obtain ⟨faithful₁, faithful⟩ := faithful
    obtain ⟨fresh₁, fresh⟩ := fresh
    obtain ⟨editorial₁, editorial⟩ := List.forall_mem_cons.1 editorial
    exact ih (stays_step sound allowed).sound
      (edited_step sound allowed faithful₁ fresh₁ editorial₁ edited) permitted faithful fresh
      editorial

theorem New.edited (new : session.New) : session.Edited := by
  have settled := new.settled
  obtain ⟨commits, documents, file, cacheSize, directory, -⟩ := new
  constructor
  · exact settled
  · simp [documents, Collection.get?]
  · simp [commits]
  · simp [commits]
  · simp [directory, Directory.ofIndex, RowIndex.last?, RowIndex.timeline]

/-! ## A branch is created -/

theorem not_reaches_of_absent (sound : session.Sound)
    (absent : session.site.directory.index.last? path = none) : ¬ session.Reaches path t := by
  rintro (⟨row, last, -⟩ | ⟨commit, -, open', rfl, -⟩)
  · simp [absent] at last
  · have free := sound.site.consistent.get?_eq_none_of_absent absent
    unfold Commit.IsOpen at open'
    rw [free] at open'
    cases open'

/--
Where no commit is open, nothing is to come that a branch has not got to.
-/
theorem le_head_of_reaches (last : session.site.directory.index.last? path = some row)
    (free : session.site.directory.openCommits.get? path = none)
    (reaches : session.Reaches path t) : t ≤ row.head := by
  rcases reaches with ⟨row', last', le⟩ | ⟨commit, -, open', rfl, -⟩
  · rw [Option.some.inj (last.symm.trans last')]
    exact le
  · unfold Commit.IsOpen at open'
    rw [free] at open'
    cases open'

/--
What the parent shows of its own content is what can be inherited from it: a version that has ended
has done so before the head of the parent, and none that is hidden there was written there.
-/
theorem Edited.accepts_inherited_iff (edited : session.Edited) (sound : session.Sound)
    (hp : Path.Valid path) (last : session.site.directory.index.last? path = some row)
    (free : session.site.directory.openCommits.get? path = none)
    (found : session.documents.get? id = some d) :
    (Level.toPredicate ⟨row.path, row.head, true, row.replaced⟩).accepts d ↔
      d.path = row.flatPath ∧ d.start ≤ row.head ∧ d.ended = none := by
  have rowPath := (sound.site.consistent.valid.fits_last hp last).path
  rw [Level.accepts_inherited_iff rfl]
  unfold BranchRow.flatPath
  rw [rowPath]
  apply and_congr_right
  intro here
  apply and_congr_right
  intro
  constructor
  · rintro ⟨live, -⟩
    cases ended : d.ended with
    | none => rfl
    | some t =>
      have reaches := edited.ended path id d t hp found here ended
      exact absurd (live t ended) (Int.not_lt.2 (le_head_of_reaches last free reaches))
  · intro current
    refine ⟨by simp [current], ?_⟩
    intro id' known hidden
    rw [sound.keyed id d found, Option.some.injEq] at known
    obtain ⟨d', found', elsewhere⟩ := edited.rows path row hp last id' hidden
    rw [← known, found, Option.some.injEq] at found'
    rw [← found'] at elsewhere
    exact elsewhere here

theorem Edited.path_ne_of_absent (edited : session.Edited) (sound : session.Sound)
    (hp : Path.Valid path) (absent : session.site.directory.index.last? path = none)
    (found : session.documents.get? id = some d) : d.path ≠ Path.flatten path := by
  intro here
  obtain ⟨path', hp', flat, reaches⟩ := edited.settled.stored id d found
  rw [Path.flatten_injective hp' hp (flat.symm.trans here)] at reaches
  exact not_reaches_of_absent sound absent reaches

theorem Edited.accepts_created_iff {parent : String} {index' : RowIndex} {now : Timepoint}
    (edited : session.Edited) (sound : session.Sound) (hp : Path.Valid path)
    (absent : session.site.directory.index.last? path = none)
    (above : Path.parent? path = some parent)
    (last : session.site.directory.index.last? parent = some row)
    (free : session.site.directory.openCommits.get? parent = none) (valid' : index'.Valid now)
    (last' : index'.last? parent = some row) (found : session.documents.get? id = some d) :
    (index'.criteria (.fresh path row.head t) t ∅).toPredicate.accepts d ↔
      (index'.criteria row row.head row.replaced).toPredicate.accepts d := by
  have validParent := Path.valid_of_parent? hp above
  have fits := sound.site.consistent.valid.fits_last validParent last
  have covering := valid'.covers_last last' (Int.le_of_eq fits.head.symm)
  rw [RowIndex.accepts_fresh_iff above covering,
    edited.accepts_inherited_iff sound validParent last free found, RowIndex.accepts_criteria_iff]
  unfold RowIndex.Inherits
  rw [fits.path]
  exact or_iff_right fun own => edited.path_ne_of_absent sound hp absent found own.1

end

/--
Right after a branch was created it shows what its parent shows, which is what the parent has shown
before. Content is only edited up to then, with new identities for new versions, and no commit is
open on the parent.
-/
theorem visible_of_create {start session after : Session} {actions : List Action}
    {path parent : String} (new : start.New) (permitted : start.Permits actions)
    (faithful : start.Faithful actions) (fresh : start.Fresh actions)
    (editorial : ∀ action ∈ actions, action.Editorial) (reached : start.run actions = session)
    (hp : Path.validate path = .ok ()) (above : Path.parent? path = some parent)
    (free : session.site.directory.openCommits.get? parent = none)
    (created : (session.step (.create path)).1 = .ok ())
    (arrived : (session.step (.create path)).2 = after) :
    ∃ ids, session.visible parent = .ok ids ∧ after.visible parent = .ok ids ∧
      after.visible path = .ok ids := by
  have sound := sound_run new.sound permitted
  have edited := edited_run new.sound new.edited permitted faithful fresh editorial
  rw [reached] at sound edited
  have effect := @effect_step session (.create path) sound hp
  have sound' := (@stays_step session sound (.create path) hp).sound
  have documents : after.documents = session.documents := by
    rw [← arrived]
    exact documents_call _ fun _ _ => rfl
  have validParent := Path.valid_of_parent? hp above
  have valid := sound.site.consistent.valid
  generalize session.step (.create path) = result at effect sound' created arrived
  subst arrived
  cases effect with
  | still _ _ _ quiet => exact absurd trivial (quiet created)
  | created _ base next _ absent inherits index =>
    unfold InheritsFrom at inherits
    rw [above] at inherits
    obtain ⟨row, last, rfl⟩ := inherits
    have valid' := sound'.site.consistent.valid
    have begun : next.site.directory.index.last? path =
        some (.fresh path row.head (nextTimepoint session.site)) := by
      rw [index, RowIndex.last?_put_singleton _ _ hp hp, if_pos rfl]
    have last' : next.site.directory.index.last? parent = some row := by
      rw [index, RowIndex.last?_put_singleton _ _ hp validParent, if_neg (Path.parent?_ne above)]
      exact last
    -- the branch begins later than anything that its parent inherits
    have fits := valid.fits_last validParent last
    have before : row.base < nextTimepoint session.site :=
      Int.lt_of_le_of_lt (Int.le_trans fits.base_le fits.start_le) (last_lt_ticked session.site)
    have unmoved : next.site.directory.index.criteria row row.head row.replaced =
        session.site.directory.index.criteria row row.head row.replaced := by
      rw [index]
      exact RowIndex.criteria_of_sameBefore valid (RowIndex.sameBefore_begin hp absent rfl)
        (fits.path ▸ validParent) before _ _
    refine ⟨_, visible_eq sound validParent last, ?_, ?_⟩
    · rw [visible_eq sound' validParent last', documents, unmoved]
    · rw [visible_eq sound' hp begun]
      apply congrArg
      apply sound'.keyed.ids_ext sound.keyed
      intro id
      rw [sound'.keyed.mem_ids_iff, sound.keyed.mem_ids_iff, documents, ← unmoved]
      apply exists_congr
      intro d
      apply and_congr_right
      intro found
      exact edited.accepts_created_iff sound hp absent above last free valid' last' found

/--
A version of the root is superseded on the branch and on the root itself. Then the branch is
rebased, and its own version is superseded.
-/
def editedTwice : List Action :=
  [.create "M", .openCommit "M" .content, .write 0 [{ businessId := some "1" }], .complete 0,
    .create "M/A", .openCommit "M/A" .content, .retire 1 "businessId" (.ofList ["1"]),
    .write 1 [{ businessId := some "1" }], .complete 1, .openCommit "M" .content,
    .retire 2 "businessId" (.ofList ["1"]), .write 2 [{ businessId := some "2" }], .complete 2,
    .openCommit "M/A" .rebase, .complete 3, .openCommit "M/A" .content,
    .retire 4 "businessId" (.ofList ["1"]), .write 4 [{ businessId := some "1" }], .complete 4]

theorem visible_of_editedTwice :
    empty.New ∧ empty.Permits editedTwice ∧ empty.Faithful editedTwice ∧ empty.Fresh editedTwice ∧
      (∀ action ∈ editedTwice, action.Editorial) ∧
      ((empty.run editedTwice).step (.create "M/A/B")).2.visible "M/A" =
        .ok [.generated 4, .generated 3] ∧
      ((empty.run editedTwice).step (.create "M/A/B")).2.visible "M/A/B" =
        .ok [.generated 4, .generated 3] := by
  have m : Path.Valid "M" := by decide
  have a : Path.Valid "M/A" := by decide
  have b : Path.Valid "M/A/B" := by decide
  have permitted : empty.Permits editedTwice :=
    ⟨m, m, trivial, trivial, a, a, trivial, trivial, trivial, m, trivial, trivial, trivial, a,
      trivial, a, trivial, trivial, trivial, trivial⟩
  have faithful : empty.Faithful editedTwice :=
    ⟨trivial, trivial, trivial, trivial, trivial, trivial, trivial, trivial, trivial, trivial,
      trivial, trivial, trivial, trivial, trivial, trivial, trivial, trivial, trivial, trivial⟩
  have absent : ∀ k ∈ [2, 7, 11, 17],
      ∀ id ∈ ((empty.run (editedTwice.take k)).site.host.ids.drawMany 1).1,
        (empty.run (editedTwice.take k)).documents.get? id = none := by
    decide +kernel
  have fresh : empty.Fresh editedTwice :=
    ⟨trivial, trivial, fun _ _ => absent 2 (by decide), trivial, trivial, trivial, trivial,
      fun _ _ => absent 7 (by decide), trivial, trivial, trivial,
      fun _ _ => absent 11 (by decide), trivial, trivial, trivial, trivial, trivial,
      fun _ _ => absent 17 (by decide), trivial, trivial⟩
  have editorial : ∀ action ∈ editedTwice, action.Editorial := by
    simp [editedTwice, Action.Editorial]
  have free : (empty.run editedTwice).site.directory.openCommits.get? "M/A" = none := by
    decide +kernel
  have created : ((empty.run editedTwice).step (.create "M/A/B")).1 = .ok () := by
    decide +kernel
  have before : (empty.run editedTwice).visible "M/A" = .ok [.generated 4, .generated 3] := by
    decide +kernel
  obtain ⟨ids, shown, shown', shown''⟩ :=
    visible_of_create new_empty permitted faithful fresh editorial rfl b
      (by decide : Path.parent? "M/A/B" = some "M/A") free created rfl
  rw [shown] at before
  rw [before] at shown' shown''
  exact ⟨new_empty, permitted, faithful, fresh, editorial, shown', shown''⟩

end Session

end TemporalStore
