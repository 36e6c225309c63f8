import TemporalStore.Proofs.Directory.Open
import TemporalStore.Proofs.Session.Apart
import TemporalStore.Proofs.Visibility.Written

/-!
This module contains the proof that what is committed on one branch is not seen on any other.
-/

namespace TemporalStore.Session

open Directory

/-! ## The steps of an edit -/

/--
The handle, if it was given out at all, is that of a commit on the branch at `t`.
-/
def Holds (session : Session) (handle : Nat) (path : String) (t : Timepoint) : Prop :=
  ∀ commit, session.commits[handle]? = some commit →
    commit.branchPath = path ∧ commit.timepoint = t ∧ commit.source = none

section

variable {session : Session} {handle : Nat} {path : String} {t : Timepoint}

theorem apart_openCommit (sound : session.Sound) (hp : Path.Valid path) (kind : CommitKind)
    (t : Timepoint) : session.Apart (session.step (.openCommit path kind)).2 path t := by
  have out := openCommit_outcome sound.site.consistent.valid sound.site.agrees hp kind
  change session.Apart (session.call (openCommit path kind) addCommit).2 path t
  unfold call
  generalize openCommit path kind session.site = result at out ⊢
  cases out with
  | notLocked e site' lock =>
    have index : site'.directory.index = session.site.directory.index := lock.index_of_error
    constructor
    · intro q _ _
      exact congrArg (RowIndex.last? · q) index
    · change RowIndex.SameBefore _ site'.directory.index t
      rw [index]
      exact .refl _ t
    · exact .refl _ _ t
  | opened row host history last unlocked kept agrees =>
    constructor
    · intro q hq distinct
      exact (RowIndex.last?_setLocked _ true hp hq).trans (if_neg distinct)
    · exact RowIndex.sameBefore_setLocked _ t hp true
    · exact .refl _ _ t

theorem holds_openCommit (sound : session.Sound) (hp : Path.Valid path) (kind : CommitKind) :
    (session.step (.openCommit path kind)).2.Holds session.commits.length path
      (nextTimepoint session.site) := by
  have out := openCommit_outcome sound.site.consistent.valid sound.site.agrees hp kind
  intro commit
  change (session.call (openCommit path kind) addCommit).2.commits[_]? = _ → _
  unfold call
  generalize openCommit path kind session.site = result at out ⊢
  cases out with
  | notLocked e site' lock => simp
  | opened row host history last unlocked kept agrees =>
    have rowPath := (sound.site.consistent.valid.fits_last hp last).path
    simp only [addCommit, List.getElem?_concat_length, Option.some.injEq]
    rintro rfl
    exact ⟨rowPath, rfl, rfl⟩

theorem edited_endVersions {c : Collection} {flat : String} {ids : List VersionId}
    (own : ∀ id ∈ ids, ∀ d, c.get? id = some d → d.path = flat ∧ d.ended = none) :
    c.Edited (c.endVersions ids t) flat t where
  kept := by
    intro id d found
    rw [Collection.get?_endVersions, found]
    by_cases mem : id ∈ ids
    · right
      obtain ⟨path, current⟩ := own id mem d found
      simp [mem, path, current]
    · left
      simp [mem]
  added := by
    intro id d found
    rw [Collection.get?_endVersions, Option.map_eq_some_iff] at found
    obtain ⟨d', found, -⟩ := found
    exact .inl ⟨d', found⟩

theorem own_of_mem_ownIds {edit : Edit} {field : String} {values : OrderedSet String}
    (keyed : edit.documents.Keyed) {id : VersionId} (mem : id ∈ edit.ownIds field values)
    {d : Document} (found : edit.documents.get? id = some d) :
    d.path = edit.commit.flatBranchPath ∧ d.ended = none := by
  obtain ⟨d', found', accepted⟩ := keyed.mem_ids_iff.1 mem
  rw [found, Option.some.injEq] at found'
  rw [← found'] at accepted
  simp only [Edit.superseded, Predicate.accepts_both, Predicate.accepts, Bool.and_eq_true,
    decide_eq_true_eq, Option.isNone_iff_eq_none] at accepted
  exact ⟨accepted.1, accepted.2.1.2⟩

theorem edited_ownEnded (sound : session.Sound) (commit : Commit) (field : String)
    (values : OrderedSet String) :
    session.documents.Edited (session.ownEnded commit field values) commit.flatBranchPath
      commit.timepoint := by
  apply edited_endVersions
  intro id mem d found
  exact own_of_mem_ownIds sound.keyed mem found

theorem apart_retire (sound : session.Sound) (holds : session.Holds handle path t)
    (field : String) (values : OrderedSet String) :
    session.Apart (session.step (.retire handle field values)).2 path t ∧
      (session.step (.retire handle field values)).2.Holds handle path t := by
  cases there : session.commits[handle]? with
  | none =>
    have unchanged : (session.step (.retire handle field values)).2 = session :=
      withHandle_of_absent there
    rw [unchanged]
    exact ⟨.refl session path t, holds⟩
  | some commit =>
    obtain ⟨branch, time, source⟩ := holds commit there
    have edited := edited_ownEnded sound commit field values
    have out := retire_outcome sound there field values
    have flat : commit.flatBranchPath = Path.flatten path := congrArg Path.flatten branch
    rw [time, flat] at edited
    rw [step_retire there]
    generalize session.retire handle field values commit = result at out ⊢
    cases out with
    | nothing none => exact ⟨.refl session path t, holds⟩
    | uncovered path' t' history agrees missing =>
      exact ⟨⟨fun _ _ _ => rfl, .refl _ t, edited⟩, holds⟩
    | retired history agrees some covered =>
      refine ⟨⟨fun _ _ _ => rfl, .refl _ t, edited⟩, ?_⟩
      intro commit' there'
      obtain ⟨lt, -⟩ := List.getElem?_eq_some_iff.1 there
      simp only [List.getElem?_set_self lt, Option.some.injEq] at there'
      rw [← there']
      exact ⟨branch, time, source⟩

theorem edited_saveAll {c : Collection} {commit : Commit} {docs : List Document}
    {supply : IdSupply} (fresh : ∀ id ∈ (supply.drawMany docs.length).1, c.get? id = none) :
    c.Edited (c.saveAll (docs.map commit.stamp) supply).2.1 commit.flatBranchPath
      commit.timepoint where
  kept := by
    intro id d found
    left
    rw [Commit.get?_saveAll_of_not_mem]
    · exact found
    · intro drawn
      rw [fresh id drawn] at found
      simp at found
  added := by
    intro id d found
    by_cases drawn : id ∈ (supply.drawMany docs.length).1
    · obtain ⟨d', stored, path, start, -⟩ := @Commit.exists_get?_saveAll commit _ _ c id drawn
      rw [found, Option.some.injEq] at stored
      rw [stored]
      exact .inr ⟨path, start⟩
    · rw [Commit.get?_saveAll_of_not_mem drawn] at found
      exact .inl ⟨d, found⟩

theorem apart_write {docs : List Document} (holds : session.Holds handle path t)
    (fresh : ∀ commit, session.commits[handle]? = some commit →
      ∀ id ∈ (session.site.host.ids.drawMany docs.length).1, session.documents.get? id = none) :
    session.Apart (session.step (.write handle docs)).2 path t ∧
      (session.step (.write handle docs)).2.Holds handle path t := by
  cases there : session.commits[handle]? with
  | none =>
    have unchanged : (session.step (.write handle docs)).2 = session := withHandle_of_absent there
    rw [unchanged]
    exact ⟨.refl session path t, holds⟩
  | some commit =>
    obtain ⟨branch, time, -⟩ := holds commit there
    have edited := @edited_saveAll session.documents commit docs _ (fresh commit there)
    have flat : commit.flatBranchPath = Path.flatten path := congrArg Path.flatten branch
    rw [time, flat] at edited
    rw [step_write there]
    exact ⟨⟨fun _ _ _ => rfl, .refl _ t, edited⟩, holds⟩

theorem apart_complete (sound : session.Sound)
    (holds : session.Holds handle path t) :
    session.Apart (session.step (.complete handle)).2 path t := by
  cases there : session.commits[handle]? with
  | none =>
    have unchanged : (session.step (.complete handle)).2 = session := withHandle_of_absent there
    rw [unchanged]
    exact .refl session path t
  | some commit =>
    obtain ⟨branch, time, source⟩ := holds commit there
    have hc := List.mem_of_getElem? there
    have valid := sound.site.consistent.valid
    have formed := sound.site.consistent.formed commit hc
    have out := sound.site.consistent.complete_cases hc
    rw [step_complete there]
    unfold call
    generalize Directory.complete commit session.site = result at out ⊢
    cases out with
    | refused reason not => exact .refl session path t
    | alone row result held _ _ _ written =>
      cases written with
      | refused e host kept => exact ⟨fun _ _ _ => rfl, .refl _ t, .refl _ _ t⟩
      | completed host kept =>
        constructor
        · intro q hq distinct
          rw [← branch] at distinct
          exact RowIndex.last?_advance_of_ne _ _ _ formed.valid hq distinct
        · rw [← time]
          exact valid.sameBefore_advance formed.valid held.last rfl
        · exact .refl _ _ t
    | promotion row other otherRow result _ _ double =>
      rw [source] at double
      simp at double

end

/-! ## The whole edit -/

/--
An edit on one branch, from when its commit is opened until it is completed.
-/
def editOn (session : Session) (path field : String) (values : OrderedSet String)
    (docs : List Document) : List Action :=
  [.openCommit path .content, .retire session.commits.length field values,
    .write session.commits.length docs, .complete session.commits.length]

theorem ids_openCommit {session : Session} {path : String} (sound : session.Sound)
    (hp : Path.Valid path) (kind : CommitKind) {commit : Commit}
    (given : (session.step (.openCommit path kind)).2.commits[session.commits.length]? =
      some commit) :
    (session.step (.openCommit path kind)).2.site.host.ids = session.site.host.ids ∧
      (session.step (.openCommit path kind)).2.documents = session.documents := by
  have out := openCommit_outcome sound.site.consistent.valid sound.site.agrees hp kind
  change (session.call (openCommit path kind) addCommit).2.commits[_]? = _ at given
  change (session.call (openCommit path kind) addCommit).2.site.host.ids = _ ∧
    (session.call (openCommit path kind) addCommit).2.documents = _
  unfold call at given ⊢
  generalize openCommit path kind session.site = result at out given ⊢
  cases out with
  | notLocked e site' lock => simp at given
  | opened row host history last unlocked kept agrees =>
    exact ⟨Site.ids_of_persisted_ok kept, rfl⟩

theorem fresh_retire {session : Session} {handle : Nat} {field : String}
    {values : OrderedSet String} {commit : Commit} (sound : session.Sound)
    (there : (session.step (.retire handle field values)).2.commits[handle]? = some commit) :
    (∃ commit', session.commits[handle]? = some commit') ∧
      (session.step (.retire handle field values)).2.site.host = session.site.host ∧
      ∀ id, session.documents.get? id = none →
        (session.step (.retire handle field values)).2.documents.get? id = none := by
  have absent : ∀ commit : Commit, ∀ id, session.documents.get? id = none →
      (session.ownEnded commit field values).get? id = none := by
    intro commit id none
    change (session.documents.endVersions _ commit.timepoint).get? id = _
    rw [Collection.get?_endVersions, none, Option.map_none]
  cases there' : session.commits[handle]? with
  | none =>
    have unchanged : (session.step (.retire handle field values)).2 = session :=
      withHandle_of_absent there'
    rw [unchanged, there'] at there
    simp at there
  | some commit' =>
    have out := retire_outcome sound there' field values
    refine ⟨⟨commit', rfl⟩, ?_⟩
    rw [step_retire there']
    generalize session.retire handle field values commit' = result at out ⊢
    cases out with
    | nothing none => exact ⟨rfl, fun _ => id⟩
    | uncovered path t history agrees missing => exact ⟨rfl, absent commit'⟩
    | retired history agrees some covered => exact ⟨rfl, absent commit'⟩

theorem visible_editOn {session : Session} {path other : String} (sound : session.Sound)
    (hp : Path.Valid path) (ho : Path.Valid other) (distinct : other ≠ path) (field : String)
    (values : OrderedSet String) (docs : List Document)
    (fresh : ∀ id ∈ (session.site.host.ids.drawMany docs.length).1,
      session.documents.get? id = none) :
    (session.run (session.editOn path field values docs)).visible other =
      session.visible other := by
  have later := last_lt_ticked session.site
  have opened := apart_openCommit sound hp .content (nextTimepoint session.site)
  have holds := holds_openCommit sound hp .content
  have sound₁ := (@stays_step _ sound (.openCommit path .content) hp).sound
  have given := fun commit => @ids_openCommit session path sound hp .content commit
  change ((((session.step (.openCommit path .content)).2.step
    (.retire session.commits.length field values)).2.step
      (.write session.commits.length docs)).2.step
        (.complete session.commits.length)).2.visible other = _
  -- each step leaves a sound session behind, in which the next one is taken
  generalize (session.step (.openCommit path .content)).2 = session₁ at *
  obtain ⟨retired, holds₂⟩ := apart_retire sound₁ holds field values
  have sound₂ :=
    (@stays_step _ sound₁ (.retire session.commits.length field values) trivial).sound
  have fresh₂ := fun commit =>
    @fresh_retire session₁ session.commits.length field values commit sound₁
  generalize (session₁.step (.retire session.commits.length field values)).2 = session₂ at *
  -- nothing has been drawn or stored since the commit was opened
  have unstored : ∀ commit, session₂.commits[session.commits.length]? = some commit →
      ∀ id ∈ (session₂.site.host.ids.drawMany docs.length).1,
        session₂.documents.get? id = none := by
    intro commit there id mem
    obtain ⟨⟨commit', there'⟩, host, absent⟩ := fresh₂ commit there
    obtain ⟨ids, documents⟩ := given commit' there'
    rw [host, ids] at mem
    apply absent
    rw [documents]
    exact fresh id mem
  obtain ⟨written, holds₃⟩ := apart_write holds₂ unstored
  have sound₃ := (@stays_step _ sound₂ (.write session.commits.length docs) trivial).sound
  generalize (session₂.step (.write session.commits.length docs)).2 = session₃ at *
  have completed := apart_complete sound₃ holds₃
  have sound₄ := (@stays_step _ sound₃ (.complete session.commits.length) trivial).sound
  have apart := ((opened.trans retired).trans written).trans completed
  exact visible_of_apart sound sound₄ apart later hp ho distinct

/--
A branch shows the same versions before and after an edit on any other branch, be it above, below
or beside.
-/
theorem visible_of_edit {start : Session} {actions : List Action} {path other : String}
    (new : start.New) (permitted : start.Permits actions) (hp : Path.Valid path)
    (ho : Path.Valid other) (distinct : other ≠ path) {row : BranchRow}
    (there : (start.run actions).site.directory.index.last? other = some row) (field : String)
    (values : OrderedSet String) (docs : List Document)
    (fresh : ∀ id ∈ ((start.run actions).site.host.ids.drawMany docs.length).1,
      (start.run actions).documents.get? id = none) :
    ∃ ids, (start.run actions).visible other = .ok ids ∧
      ((start.run actions).run ((start.run actions).editOn path field values docs)).visible other =
        .ok ids := by
  have sound := sound_run new.sound permitted
  refine ⟨_, visible_eq sound ho there, ?_⟩
  rw [visible_editOn sound hp ho distinct field values docs fresh]
  exact visible_eq sound ho there

def inheritedBelow : List Action :=
  [.create "M", .openCommit "M" .content, .write 0 [{ businessId := some "1" }], .complete 0,
    .create "M/A"]

def replacedAbove : List Action :=
  (empty.run inheritedBelow).editOn "M" "businessId" (.ofList ["1"])
    [{ businessId := some "1", term := "new" }]

/--
The branch below still shows the version that was superseded above.
-/
theorem visible_of_edit_above :
    ((empty.run inheritedBelow).run replacedAbove).visible "M/A" = .ok [.generated 1] ∧
      ((empty.run inheritedBelow).run replacedAbove).visible "M" = .ok [.generated 2] := by
  have m : Path.Valid "M" := by decide
  have a : Path.Valid "M/A" := by decide
  have permitted : empty.Permits inheritedBelow := ⟨m, m, trivial, trivial, a, trivial⟩
  have there : ((empty.run inheritedBelow).site.directory.index.last? "M/A").isSome := by
    decide +kernel
  have shown : (empty.run inheritedBelow).visible "M/A" = .ok [.generated 1] := by decide +kernel
  obtain ⟨row, there⟩ := Option.isSome_iff_exists.1 there
  obtain ⟨ids, before, after⟩ := visible_of_edit new_empty permitted m a (by decide) there
    "businessId" (.ofList ["1"]) [{ businessId := some "1", term := "new" }] (by decide +kernel)
  rw [shown, Except.ok.injEq] at before
  rw [← before] at after
  exact ⟨after, by decide +kernel⟩

end TemporalStore.Session
