import TemporalStore.Proofs.Event.Delivery
import TemporalStore.Proofs.Session.Announcement
import TemporalStore.Proofs.Session.Effect

/-!
This module contains who hears of a change: whether a subscriber to some of the branches is told
when the current row of one of them changes.
-/

namespace TemporalStore

namespace EventFilter

variable {filter : EventFilter} {event : Event} {path : String}

theorem wants_of_locks (locks : filter.includeLocks = true) :
    filter.wants event = event.path?.all filter.coversPath := by
  unfold wants
  rw [locks, Bool.true_or, Bool.true_and]

/--
Who wants to hear of everything on a branch wants all events that concern it, but for those that are
filed under another branch.
-/
theorem source?_of_unwanted (locks : filter.includeLocks = true)
    (covers : filter.coversPath path = true) (concerns : event.Concerns path)
    (unwanted : filter.wants event = false) : event.source? = some path := by
  rw [wants_of_locks locks] at unwanted
  rcases concerns with none | same | source
  · simp [none] at unwanted
  · simp [same, covers] at unwanted
  · exact source

end EventFilter

namespace Session

section

variable {session : Session} {action : Action} {path : String}

theorem announces_of_changed (sound : session.Sound) (allowed : action.Allowed session)
    (changed : (session.step action).2.site.directory.index.last? path ≠
      session.site.directory.index.last? path) :
    session.Announces action (session.step action).2 := by
  by_cases reopens : ∃ cacheSize, action = .reopen cacheSize
  · -- subscribers do not outlast the directory, but the rows do
    obtain ⟨cacheSize, rfl⟩ := reopens
    have effect := effect_step sound allowed
    generalize session.step (.reopen cacheSize) = result at effect changed
    cases effect with
    | still _ _ _ _ index => simp [index] at changed
    | reopened _ _ _ index => simp [index] at changed
  · rw [not_exists] at reopens
    apply announces_step sound allowed
    · intro cacheSize same
      exact absurd same (reopens cacheSize)
    · rintro events rfl
      exact changed rfl

/--
The one commit whose completion changes the current row of a branch without being told to those who
listen there: a promotion from there to a branch where they do not listen.
-/
def PromotesOut (session : Session) (action : Action) (path : String) (filter : EventFilter) :
    Prop :=
  ∃ handle commit, action = .complete handle ∧ session.commits[handle]? = some commit ∧
    commit.source = some path ∧ filter.coversPath commit.branchPath = false

theorem exists_wanted_iff {filter : EventFilter} (hp : Path.Valid path)
    (locks : filter.includeLocks = true) (covers : filter.coversPath path = true)
    (announces : session.Announces action (session.step action).2)
    (changed : (session.step action).2.site.directory.index.last? path ≠
      session.site.directory.index.last? path) :
    ∃ told, session.site.Tells told (session.step action).2.site ∧
      ((∀ event ∈ told, filter.wants event = false) ↔ session.PromotesOut action path filter) := by
  cases announces with
  | nothing told =>
    obtain ⟨event, mem, -⟩ := told.rows.exists_concerns hp changed
    cases mem
  | plainly other plain =>
    obtain ⟨told, tells, single⟩ := plain
    refine ⟨told, tells, ?_, ?_⟩
    · intro unwanted
      obtain ⟨event, mem, concerns⟩ := tells.rows.exists_concerns hp changed
      have source := EventFilter.source?_of_unwanted locks covers concerns (unwanted event mem)
      rw [single event mem] at source
      cases source
    · rintro ⟨handle, commit, completes, -⟩
      exact absurd completes (other handle)
  | completed handle commit completes there tells =>
    refine ⟨_, tells, ?_, ?_⟩
    · intro unwanted
      obtain ⟨event, mem, concerns⟩ := tells.rows.exists_concerns hp changed
      have source := EventFilter.source?_of_unwanted locks covers concerns (unwanted event mem)
      rw [List.mem_singleton.1 mem] at source
      have notCovered := unwanted _ (List.mem_singleton_self _)
      rw [EventFilter.wants_of_locks locks] at notCovered
      exact ⟨handle, commit, completes, there, source, notCovered⟩
    · rintro ⟨handle', commit', completes', there', source, notCovered⟩ event mem
      rw [completes, Action.complete.injEq] at completes'
      rw [← completes', there, Option.some.injEq] at there'
      rw [List.mem_singleton.1 mem, EventFilter.wants_of_locks locks, there']
      exact notCovered

end

/--
Whenever the current row of a branch changes in a session that starts out empty, a subscriber to it
and its locks who has room for an event hears of it, unless a promotion from there to somewhere else
is completed.
-/
theorem heard_of_run {session : Session} {actions : List Action} {action : Action} {id : Nat}
    {s : Subscription} {path : String} (new : session.New) (permitted : session.Permits actions)
    (allowed : action.Allowed (session.run actions))
    (there : (session.run actions).site.directory.events.subscription? id = some s)
    (active : s.active = true) (accepts : s.accepts = true) (locks : s.filter.includeLocks = true)
    (hp : Path.Valid path) (covers : s.filter.coversPath path = true)
    (changed : ((session.run actions).step action).2.site.directory.index.last? path ≠
      (session.run actions).site.directory.index.last? path) :
    ∃ s', ((session.run actions).step action).2.site.directory.events.subscription? id = some s' ∧
      s.buffer <+: s'.buffer ∧
      (s'.buffer = s.buffer ↔ (session.run actions).PromotesOut action path s.filter) := by
  have sound := sound_run new.sound permitted
  have announces := announces_of_changed sound allowed changed
  obtain ⟨told, tells, unwanted⟩ := exists_wanted_iff hp locks covers announces changed
  have after := Broadcaster.subscription?_foldl_broadcast told
    (session.run actions).site.directory.events id
  rw [← tells.events, there] at after
  refine ⟨_, after, Subscription.buffer_prefix_deliverAll told s, ?_⟩
  rw [Subscription.buffer_deliverAll_eq_iff active accepts]
  exact unwanted

/--
Someone listens to `M/A` and what is below, and `source` is to be promoted to `path`.
-/
def promotesTo (path source : String) : List Action :=
  [.create "M", .create "M/A", .create "M/A/B",
    .subscribers (Broadcaster.subscribe {} 8 { root := some "M/A", includeLocks := true }).2,
    .openPromotion path source]

theorem heard_of_promotesTo :
    empty.New ∧ empty.Permits (promotesTo "M/A" "M/A/B") ∧ ∃ s s',
      (empty.run (promotesTo "M/A" "M/A/B")).site.directory.events.subscription? 1 = some s ∧
      ((empty.run (promotesTo "M/A" "M/A/B")).step
        (.complete 0)).2.site.directory.events.subscription? 1 = some s' ∧
      s.buffer <+: s'.buffer ∧ s'.buffer ≠ s.buffer := by
  have m : Path.Valid "M" := by decide
  have a : Path.Valid "M/A" := by decide
  have b : Path.Valid "M/A/B" := by decide
  have permitted : empty.Permits (promotesTo "M/A" "M/A/B") :=
    ⟨m, a, b, trivial, ⟨a, b⟩, trivial⟩
  have listens : ((empty.run (promotesTo "M/A" "M/A/B")).site.directory.events.subscription?
      1).map (fun s => (s.active, s.accepts, s.filter)) =
        some (true, true, { root := some "M/A", includeLocks := true }) := by decide +kernel
  have branch : (empty.run (promotesTo "M/A" "M/A/B")).commits[0]?.map Commit.branchPath =
      some "M/A" := by decide +kernel
  have changed : ((empty.run (promotesTo "M/A" "M/A/B")).step
      (.complete 0)).2.site.directory.index.last? "M/A/B" ≠
        (empty.run (promotesTo "M/A" "M/A/B")).site.directory.index.last? "M/A/B" := by
    decide +kernel
  obtain ⟨s, there, parts⟩ := Option.map_eq_some_iff.1 listens
  simp only [Prod.mk.injEq] at parts
  obtain ⟨active, accepts, filter⟩ := parts
  have locks : s.filter.includeLocks = true := by rw [filter]
  have covers : s.filter.coversPath "M/A/B" = true := by
    rw [filter]
    decide
  obtain ⟨s', after, kept, silent⟩ := @heard_of_run empty _ (.complete 0) 1 s "M/A/B" new_empty
    permitted trivial there active accepts locks b covers changed
  refine ⟨new_empty, permitted, s, s', there, after, kept, ?_⟩
  rw [Ne, silent]
  rintro ⟨handle, commit, completes, opened, -, notCovered⟩
  rw [Action.complete.injEq] at completes
  rw [← completes] at opened
  rw [opened, Option.map_some, Option.some.injEq] at branch
  rw [filter, branch] at notCovered
  revert notCovered
  decide

/--
The promotion of a branch to its parent replaces the row of the branch, and those who listen to the
branch are not told.
-/
theorem promotion_unheard :
    empty.New ∧ empty.Permits (promotesTo "M" "M/A") ∧ ∃ s,
      (empty.run (promotesTo "M" "M/A")).site.directory.events.subscription? 1 = some s ∧
      s.active = true ∧ s.accepts = true ∧
      s.filter = { root := some "M/A", includeLocks := true } ∧
      ((empty.run (promotesTo "M" "M/A")).step (.complete 0)).1 = .ok () ∧
      ((empty.run (promotesTo "M" "M/A")).step
        (.complete 0)).2.site.directory.index.last? "M/A" ≠
          (empty.run (promotesTo "M" "M/A")).site.directory.index.last? "M/A" ∧
      ((empty.run (promotesTo "M" "M/A")).step
        (.complete 0)).2.site.directory.events.subscription? 1 = some s := by
  have m : Path.Valid "M" := by decide
  have a : Path.Valid "M/A" := by decide
  have b : Path.Valid "M/A/B" := by decide
  have permitted : empty.Permits (promotesTo "M" "M/A") := ⟨m, a, b, trivial, ⟨m, a⟩, trivial⟩
  have listens : ((empty.run (promotesTo "M" "M/A")).site.directory.events.subscription? 1).map
      (fun s => (s.active, s.accepts, s.filter)) =
        some (true, true, { root := some "M/A", includeLocks := true }) := by decide +kernel
  have same : ((empty.run (promotesTo "M" "M/A")).step
      (.complete 0)).2.site.directory.events.subscription? 1 =
        (empty.run (promotesTo "M" "M/A")).site.directory.events.subscription? 1 := by
    decide +kernel
  obtain ⟨s, there, parts⟩ := Option.map_eq_some_iff.1 listens
  simp only [Prod.mk.injEq] at parts
  obtain ⟨active, accepts, filter⟩ := parts
  exact ⟨new_empty, permitted, s, there, active, accepts, filter, by decide +kernel,
    by decide +kernel, same.trans there⟩

end Session

end TemporalStore
