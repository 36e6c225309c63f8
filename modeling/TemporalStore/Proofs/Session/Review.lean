import TemporalStore.Proofs.Session.Standing
import TemporalStore.Proofs.Session.Timepoints

/-!
This module contains the proof that a look at a branch tells whether it is still what it was at an
earlier look: the head of the branch goes on with every commit that closes its row, and whatever is
created after a purge has a later head than anything before.
-/

namespace TemporalStore

/-! ## What a look at a branch goes by -/

namespace RowIndex

variable {path q : String}

/--
The base and the head of a branch, if it is there.
-/
def stamp? (index : RowIndex) (path : String) : Option (Timepoint × Timepoint) :=
  (index.last? path).map fun row => (row.base, row.head)

theorem stamp?_setLocked (index : RowIndex) (locked : Bool) (hp : Path.Valid path)
    (hq : Path.Valid q) : (index.setLocked path locked).stamp? q = index.stamp? q := by
  unfold stamp?
  rw [last?_setLocked index locked hp hq]
  split
  · rename_i same
    rw [same, Option.map_map]
    rfl
  · rfl

theorem exists_last_of_stamp?_eq {index index' : RowIndex} {row : BranchRow}
    (same : index'.stamp? path = index.stamp? path) (last : index'.last? path = some row) :
    ∃ row', index.last? path = some row' ∧ row'.head = row.head := by
  unfold stamp? at same
  rw [last, Option.map_some, eq_comm, Option.map_eq_some_iff] at same
  obtain ⟨row', last', stamp⟩ := same
  exact ⟨row', last', congrArg Prod.snd stamp⟩

end RowIndex

theorem Directory.isUnchanged_ok_true_iff {site : Site} {now : Timepoint} {path : String}
    {base head : Timepoint} (h : site.directory.index.Valid now) (hp : Path.Valid path) :
    isUnchanged path base head site = .ok true site ↔
      site.directory.index.stamp? path = some (base, head) := by
  have latest := latest_eq h hp
  unfold isUnchanged RowIndex.stamp?
  cases last : site.directory.index.last? path with
  | none =>
    rw [last] at latest
    rw [bind_error latest]
    simp
  | some row =>
    rw [last] at latest
    rw [bind_ok latest]
    change EStateM.Result.ok _ _ = _ ↔ _
    simp

namespace Session

open Directory

/-! ## What has not happened -/

def Never (session : Session) (happening : Happening) (actions : List Action) : Prop :=
  ∀ between next rest, actions = between ++ next :: rest → ¬ session.Occurs happening between next

theorem never_nil {session : Session} {happening : Happening} : session.Never happening [] := by
  intro between next rest none
  simp at none

theorem never_concat {session : Session} {happening : Happening} {actions : List Action}
    {action : Action} : session.Never happening (actions ++ [action]) ↔
      session.Never happening actions ∧ ¬ session.Occurs happening actions action := by
  constructor
  · intro never
    refine ⟨?_, never actions action [] rfl⟩
    rintro between next rest rfl
    exact never between next (rest ++ [action]) (by simp)
  · rintro ⟨never, last⟩ between next rest parts
    rcases List.eq_nil_or_concat rest with rfl | ⟨rest, action', rfl⟩
    · obtain ⟨rfl, same⟩ := List.append_inj' parts rfl
      rw [← List.singleton_inj.1 same]
      exact last
    · rw [List.concat_eq_append, ← List.cons_append, ← List.append_assoc] at parts
      exact never between next rest (List.append_inj' parts rfl).1

/-! ## What an action does to a branch -/

/--
A commit on the branch or a promotion from it is completed, or all rows are deleted.
-/
def Outdates (path : String) : Happening := fun session action answer =>
  answer = .ok () ∧ (action = .purge ∨ ∃ handle commit, action = .complete handle ∧
    session.commits[handle]? = some commit ∧ commit.Touches path)

inductive Course (session : Session) (path : String) (action : Action)
    (result : Except StoreError Unit × Session) : Prop where
  | kept (holds : ¬ Outdates path session action result.1)
    (stamp : result.2.site.directory.index.stamp? path = session.site.directory.index.stamp? path)
  | outdated (outdates : Outdates path session action result.1)
    (later : ∀ row', result.2.site.directory.index.last? path = some row' →
      ∃ row, session.site.directory.index.last? path = some row ∧ row.head < row'.head)
  | begun (absent : session.site.directory.index.last? path = none)
    (later : ∀ row', result.2.site.directory.index.last? path = some row' →
      session.site.directory.clock.last < row'.head)

section

variable {session : Session} {action : Action} {commit : Commit} {path : String} {handle : Nat}
  {result : Except StoreError Unit × Session}

theorem outdates_complete_iff (there : session.commits[handle]? = some commit) :
    Outdates path session (.complete handle) (.ok ()) ↔ commit.Touches path := by
  simp [Outdates, there]

theorem course_of_other (incomplete : ∀ handle, action ≠ .complete handle)
    (spared : action ≠ .purge)
    (stamp : result.2.site.directory.index.stamp? path =
      session.site.directory.index.stamp? path) : session.Course path action result := by
  refine .kept ?_ stamp
  rintro ⟨-, purges | ⟨handle, commit, completes, -⟩⟩
  · exact spared purges
  · exact incomplete handle completes

theorem course_of_untouched {next : Session} (there : session.commits[handle]? = some commit)
    (untouched : ¬ commit.Touches path)
    (same : next.site.directory.index.last? path = session.site.directory.index.last? path) :
    session.Course path (.complete handle) (.ok (), next) := by
  refine .kept ?_ (congrArg (Option.map _) same)
  rwa [outdates_complete_iff there]

/--
A row that is closed by a commit was there before it, and the row after it has its timepoint.
-/
theorem course_of_touched {next : Session} {row new : BranchRow} (sound : session.Sound)
    (there : session.commits[handle]? = some commit) (touched : commit.Touches path)
    (hp : Path.Valid path) (last : session.site.directory.index.last? path = some row)
    (before : row.start < commit.timepoint)
    (after : next.site.directory.index.last? path = some new)
    (head : new.head = commit.timepoint) :
    session.Course path (.complete handle) (.ok (), next) := by
  refine .outdated ((outdates_complete_iff there).2 touched) ?_
  intro row' last'
  rw [after, Option.some.injEq] at last'
  refine ⟨row, last, ?_⟩
  rw [← last', head, (sound.site.consistent.valid.fits_last hp last).head]
  exact before

theorem Effect.course (effect : session.Effect action result) (sound : session.Sound)
    (hp : Path.Valid path) : session.Course path action result := by
  have consistent := sound.site.consistent
  cases effect with
  | still action answer next quiet index =>
    refine .kept ?_ (congrArg (·.stamp? path) index)
    rintro ⟨ok, rfl | ⟨handle, commit, rfl, -⟩⟩
    · exact quiet ok trivial
    · exact quiet ok trivial
  | created q base next hq last inherits index =>
    have after := RowIndex.last?_put_singleton session.site.directory.index
      (BranchRow.fresh q base (nextTimepoint session.site)) hq hp
    rw [← index] at after
    by_cases here : path = q
    · rw [if_pos here] at after
      refine .begun (here ▸ last) ?_
      intro row' last'
      rw [after, Option.some.injEq] at last'
      rw [← last']
      exact last_lt_ticked session.site
    · rw [if_neg here] at after
      exact course_of_other nofun nofun (congrArg (Option.map _) after)
  | locked _ _ _ hq _ _ index =>
    refine course_of_other nofun nofun ?_
    rw [index, RowIndex.stamp?_setLocked _ _ hq hp]
  | unlocked _ _ _ hq _ _ index =>
    refine course_of_other nofun nofun ?_
    rw [index, RowIndex.stamp?_setLocked _ _ hq hp]
  | forced _ _ _ hq _ _ index =>
    refine course_of_other nofun nofun ?_
    rw [index, RowIndex.stamp?_setLocked _ _ hq hp]
  | forcedBoth _ _ _ _ _ hq hr _ _ index =>
    refine course_of_other nofun nofun ?_
    rw [index, RowIndex.stamp?_setLocked _ _ hr hp, RowIndex.stamp?_setLocked _ _ hq hp]
  | opened _ _ _ _ hq _ _ index =>
    refine course_of_other nofun nofun ?_
    rw [index, RowIndex.stamp?_setLocked _ _ hq hp]
  | openedBoth _ _ _ _ _ hq hr _ _ _ _ _ index =>
    refine course_of_other nofun nofun ?_
    rw [index, RowIndex.stamp?_setLocked _ _ hr hp, RowIndex.stamp?_setLocked _ _ hq hp]
  | completed handle commit row next there held kind single index =>
    have hq := (consistent.formed commit (List.mem_of_getElem? there)).valid
    have after := RowIndex.last?_advance session.site.directory.index
      (row.close commit.timepoint) (nextRow commit (row.close commit.timepoint) none) hq hp
    change (completedIndex session.site.directory.index commit row).last? path = _ at after
    rw [← index] at after
    by_cases here : path = commit.branchPath
    · rw [if_pos here] at after
      exact course_of_touched sound there (.inl here) hp (here ▸ held.last) held.before after rfl
    · rw [if_neg here] at after
      apply course_of_untouched there _ after
      rintro (touched | touched)
      · exact here touched
      · simp [single] at touched
  | promoted handle commit row source sourceRow next there held double hs distinct sourceHeld
      index =>
    have hq := (consistent.formed commit (List.mem_of_getElem? there)).valid
    have after := @last?_promotedIndex session.site.directory.index _ _ _ row sourceRow hq hs hp
    rw [← index] at after
    by_cases fromHere : path = source
    · rw [if_pos fromHere] at after
      exact course_of_touched sound there (.inr (fromHere ▸ double)) hp
        (fromHere ▸ sourceHeld.last) sourceHeld.before after rfl
    · rw [if_neg fromHere] at after
      by_cases here : path = commit.branchPath
      · rw [if_pos here] at after
        exact course_of_touched sound there (.inl here) hp (here ▸ held.last) held.before after rfl
      · rw [if_neg here] at after
        apply course_of_untouched there _ after
        rintro (touched | touched)
        · exact here touched
        · rw [double, Option.some.injEq] at touched
          exact fromHere touched.symm
  | purged _ index =>
    refine .outdated ⟨rfl, .inl rfl⟩ ?_
    intro row' last'
    rw [index] at last'
    cases last'
  | reopened _ _ _ index =>
    exact course_of_other nofun nofun (congrArg (·.stamp? path) index)

/-! ## What a run does to a branch -/

/--
Every row that the branch has or will get is later than `t`.
-/
structure Passed (session : Session) (path : String) (t : Timepoint) : Prop where
  known : t ≤ session.site.directory.clock.last
  later : ∀ row, session.site.directory.index.last? path = some row → t < row.head

theorem Passed.step {t : Timepoint} (passed : session.Passed path t)
    (course : session.Course path action (session.step action))
    (onward : session.site.Onward (session.step action).2.site) :
    (session.step action).2.Passed path t := by
  refine ⟨Int.le_trans passed.known onward, ?_⟩
  intro row' last'
  cases course with
  | kept holds stamp =>
    obtain ⟨row, last, same⟩ := RowIndex.exists_last_of_stamp?_eq stamp last'
    rw [← same]
    exact passed.later row last
  | outdated outdates later =>
    obtain ⟨row, last, less⟩ := later row' last'
    exact Int.lt_trans (passed.later row last) less
  | begun absent later => exact Int.lt_of_le_of_lt passed.known (later row' last')

theorem passed_of_outdated {next : Session} {base head : Timepoint} (sound : session.Sound)
    (hp : Path.Valid path) (same : session.site.directory.index.stamp? path = some (base, head))
    (later : ∀ row', next.site.directory.index.last? path = some row' →
      ∃ row, session.site.directory.index.last? path = some row ∧ row.head < row'.head)
    (onward : session.site.Onward next.site) : next.Passed path head := by
  obtain ⟨row, last, stamp⟩ := Option.map_eq_some_iff.1 same
  obtain rfl : row.head = head := congrArg Prod.snd stamp
  constructor
  · have fits := sound.site.consistent.valid.fits_last hp last
    rw [fits.head]
    exact Int.le_trans fits.start_le onward
  · intro row' last'
    obtain ⟨row₀, last₀, less⟩ := later row' last'
    rw [last, Option.some.injEq] at last₀
    rwa [last₀]

theorem stamp?_or_passed {actions : List Action} {row : BranchRow} (sound : session.Sound)
    (hp : Path.Valid path) (permitted : session.Permits actions)
    (stays : ∀ cacheSize, .reopen cacheSize ∉ actions)
    (last : session.site.directory.index.last? path = some row) :
    (session.Never (Outdates path) actions ∧
      (session.run actions).site.directory.index.stamp? path = some (row.base, row.head)) ∨
    (¬ session.Never (Outdates path) actions ∧ (session.run actions).Passed path row.head) := by
  induction actions using List.reverseRecOn with
  | nil => exact .inl ⟨never_nil, congrArg (Option.map _) last⟩
  | append_singleton actions action ih =>
    rw [permits_append] at permitted
    obtain ⟨permitted, allowed, -⟩ := permitted
    have sound' := sound_run sound permitted
    have course := (effect_step sound' allowed).course sound' hp
    have onward : (session.run actions).site.Onward ((session.run actions).step action).2.site := by
      rcases onward_step sound' allowed with onward | ⟨cacheSize, rfl, -⟩
      · exact onward
      · exact absurd (List.mem_append_right _ (List.mem_singleton_self _)) (stays cacheSize)
    have stays' : ∀ cacheSize, .reopen cacheSize ∉ actions :=
      fun cacheSize h => stays cacheSize (List.mem_append_left _ h)
    rw [never_concat, run_append]
    change _ ∧ ((session.run actions).step action).2.site.directory.index.stamp? path = _ ∨
      _ ∧ ((session.run actions).step action).2.Passed path row.head
    rcases ih permitted stays' with ⟨never, same⟩ | ⟨outdated, passed⟩
    · cases course with
      | kept holds stamp => exact .inl ⟨⟨never, holds⟩, stamp.trans same⟩
      | outdated outdates later =>
        exact .inr ⟨fun h => h.2 outdates, passed_of_outdated sound' hp same later onward⟩
      | begun absent later => simp [RowIndex.stamp?, absent] at same
    · exact .inr ⟨fun h => outdated h.1, passed.step course onward⟩

end

/--
Whoever has looked at a branch is told that it is unchanged exactly as long as no commit is
completed on it, none is completed that promotes it, and not all rows are deleted.
-/
theorem unchanged_of_run {session : Session} {before later : List Action} {path : String}
    {row : BranchRow} (new : session.New) (permitted : session.Permits (before ++ later))
    (stays : ∀ cacheSize, .reopen cacheSize ∉ later) (hp : Path.Valid path)
    (current : (session.run before).site.directory.index.current path = .ok (some row)) :
    Directory.isUnchanged path row.base row.head (session.run (before ++ later)).site =
        .ok true (session.run (before ++ later)).site ↔
      (session.run before).Never (Outdates path) later := by
  have valid := (sound_run new.sound permitted).site.consistent.valid
  rw [permits_append] at permitted
  have sound := sound_run new.sound permitted.1
  rw [sound.site.consistent.valid.current_eq, Except.ok.injEq] at current
  rw [isUnchanged_ok_true_iff valid hp, run_append]
  rcases stamp?_or_passed sound hp permitted.2 stays current with ⟨never, same⟩ | ⟨outdated, passed⟩
  · exact ⟨fun _ => never, fun _ => same⟩
  · constructor
    · intro same
      obtain ⟨row', last', stamp⟩ := Option.map_eq_some_iff.1 same
      have := passed.later row' last'
      have head : row'.head = row.head := congrArg Prod.snd stamp
      rw [head] at this
      exact absurd this (Int.lt_irrefl _)
    · intro never
      exact absurd never outdated

/--
The branch is locked and unlocked, and then it is deleted and created again.
-/
def createdAgain : List Action := [.lock "M", .unlock "M", .purge, .create "M"]

theorem unchanged_of_createdAgain :
    empty.New ∧ empty.Permits ([.create "M"] ++ createdAgain) ∧
      ∃ row, (empty.run [.create "M"]).site.directory.index.current "M" = .ok (some row) ∧
        Directory.isUnchanged "M" row.base row.head
            (empty.run ([.create "M"] ++ createdAgain.take 2)).site =
          .ok true (empty.run ([.create "M"] ++ createdAgain.take 2)).site ∧
        Directory.isUnchanged "M" row.base row.head
            (empty.run ([.create "M"] ++ createdAgain)).site ≠
          .ok true (empty.run ([.create "M"] ++ createdAgain)).site := by
  have m : Path.Valid "M" := by decide
  have current : (empty.run [.create "M"]).site.directory.index.current "M" =
    .ok (some (BranchRow.fresh "M" 1 1)) := by decide +kernel
  have permitted : empty.Permits ([.create "M"] ++ createdAgain) := ⟨m, m, m, trivial, m, trivial⟩
  have permitted' : empty.Permits ([.create "M"] ++ createdAgain.take 2) := ⟨m, m, m, trivial⟩
  refine ⟨new_empty, permitted, _, current, ?_, ?_⟩
  · apply (unchanged_of_run new_empty permitted' (by simp [createdAgain]) m current).2
    rintro between next rest parts ⟨-, purges | ⟨handle, commit, completes, -⟩⟩
    · have there : Action.purge ∈ createdAgain.take 2 := by simp [parts, purges]
      simp [createdAgain] at there
    · have there : Action.complete handle ∈ createdAgain.take 2 := by simp [parts, completes]
      simp [createdAgain] at there
  · rw [ne_eq, unchanged_of_run new_empty permitted (by simp [createdAgain]) m current]
    intro never
    have purged : ((empty.run [.create "M", .lock "M", .unlock "M"]).step .purge).1 = .ok () := by
      decide +kernel
    exact never [.lock "M", .unlock "M"] .purge [.create "M"] rfl ⟨purged, .inl rfl⟩

end Session

end TemporalStore
