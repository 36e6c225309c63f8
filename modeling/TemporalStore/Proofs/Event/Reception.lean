import Mathlib.Data.List.Induction
import TemporalStore.Proofs.Event.Delivery
import TemporalStore.Proofs.Event.Subscription

/-!
This module contains what a receiver gets in the course of a run in which subscriptions come and go:
until when it is told of events, what it takes and finds in its buffer, and that the other
subscriptions have no part in that.
-/

namespace TemporalStore

namespace Broadcaster

inductive Step where
  | subscribe (bufferSize : Nat) (filter : EventFilter)
  | unsubscribe (id : Nat)
  | broadcast (event : Event)
  /-- The receiver of a subscription takes what is oldest in its buffer. -/
  | receive (id : Nat)
  /-- The receiver of a subscription is dropped. -/
  | abandon (id : Nat)
  deriving DecidableEq

def step (b : Broadcaster) : Step → Broadcaster
  | .subscribe bufferSize filter => (b.subscribe bufferSize filter).2
  | .unsubscribe id => b.unsubscribe id
  | .broadcast event => b.broadcast event
  | .receive id => b.modify id fun s => s.receive.2
  | .abandon id => b.modify id Subscription.abandon

def run (b : Broadcaster) (steps : List Step) : Broadcaster := steps.foldl step b

def Step.event? : Step → Option Event
  | .broadcast event => some event
  | _ => none

/--
What a step is for one subscription, unless it concerns others only.
-/
def Step.concern? (id : Nat) : Step → Option Subscription.Step
  | .subscribe _ _ => none
  | .unsubscribe other => if other = id then some .cancelled else none
  | .broadcast event => some (.told event)
  | .receive other => if other = id then some .received else none
  | .abandon other => if other = id then some .abandoned else none

/--
Whether a subscription is told of further events.
-/
def Serves (b : Broadcaster) (id : Nat) : Prop :=
  ∃ s, b.subscription? id = some s ∧ s.active = true

def buffered (b : Broadcaster) (id : Nat) : List Event :=
  (b.subscription? id).elim [] Subscription.buffer

/--
What the receiver of a subscription takes in a run.
-/
def taken (id : Nat) : Broadcaster → List Step → List Event
  | _, [] => []
  | b, step :: steps => taking b step ++ taken id (b.step step) steps
where
  taking (b : Broadcaster) : Step → List Event
    | .receive other =>
      if other = id then ((b.subscription? id).bind fun s => s.receive.1).toList else []
    | _ => []

variable {b : Broadcaster} {s : Subscription} {id : Nat} {steps : List Step}

/-! ## The steps that concern one subscription -/

theorem run_append (b : Broadcaster) (steps more : List Step) :
    b.run (steps ++ more) = (b.run steps).run more := List.foldl_append

theorem subscription?_modify (there : b.subscription? id = some s) (other : Nat)
    (step : Subscription.Step) :
    (b.modify other fun s => s.step step).subscription? id =
      some ((if other = id then some step else none).elim s s.step) := by
  have same : s.id = id := by simpa using List.find?_some there
  have kept : ((fun s : Subscription => decide (s.id = id)) ∘
      fun s => if s.id = other then s.step step else s) = fun s => decide (s.id = id) := by
    funext s
    simp only [Function.comp_apply]
    split
    · rw [(s.step_keeps step).1]
    · rfl
  unfold subscription? modify at *
  rw [List.find?_map, kept, there, Option.map_some, same]
  by_cases own : other = id
  · rw [if_pos own, if_pos own.symm]
    rfl
  · rw [if_neg own, if_neg (Ne.symm own)]
    rfl

theorem subscription?_step (there : b.subscription? id = some s) (step : Step) :
    (b.step step).subscription? id = some ((step.concern? id).elim s s.step) := by
  cases step with
  | subscribe bufferSize filter =>
    change List.find? _ (b.subscriptions ++ _) = _
    rw [List.find?_append]
    change (b.subscription? id).or _ = _
    rw [there]
    rfl
  | unsubscribe other => exact subscription?_modify there other .cancelled
  | broadcast event =>
    change (b.broadcast event).subscription? id = _
    rw [subscription?_broadcast, there]
    rfl
  | receive other => exact subscription?_modify there other .received
  | abandon other => exact subscription?_modify there other .abandoned

theorem taking_eq (there : b.subscription? id = some s) (step : Step) :
    taken.taking id b step = (step.concern? id).elim [] s.taking := by
  cases step with
  | subscribe bufferSize filter => rfl
  | unsubscribe other =>
    simp only [Step.concern?]
    split <;> rfl
  | broadcast event => rfl
  | receive other =>
    simp only [Step.concern?, taken.taking, there]
    split <;> rfl
  | abandon other =>
    simp only [Step.concern?]
    split <;> rfl

/--
What becomes of a subscription depends on the steps that concern it alone.
-/
theorem subscription?_run (there : b.subscription? id = some s) (steps : List Step) :
    (b.run steps).subscription? id = some (s.run (steps.filterMap (Step.concern? id))) := by
  induction steps generalizing b s with
  | nil => exact there
  | cons step steps ih =>
    have next := ih (subscription?_step there step)
    rw [List.filterMap_cons]
    cases concern : step.concern? id <;> rw [concern] at next <;> exact next

theorem taken_eq (there : b.subscription? id = some s) (steps : List Step) :
    b.taken id steps = s.taken (steps.filterMap (Step.concern? id)) := by
  induction steps generalizing b s with
  | nil => rfl
  | cons step steps ih =>
    have next := ih (subscription?_step there step)
    rw [taken, taking_eq there, next, List.filterMap_cons]
    cases step.concern? id <;> rfl

theorem serves_iff (there : b.subscription? id = some s) : b.Serves id ↔ s.active = true := by
  unfold Serves
  simp [there]

theorem buffered_eq (there : b.subscription? id = some s) : b.buffered id = s.buffer := by
  unfold buffered
  rw [there]
  rfl

theorem event?_concern? (id : Nat) (step : Step) :
    (step.concern? id).bind Subscription.Step.event? = step.event? := by
  cases step with
  | subscribe bufferSize filter => rfl
  | broadcast event => rfl
  | unsubscribe other =>
    simp only [Step.concern?]
    split <;> rfl
  | receive other =>
    simp only [Step.concern?]
    split <;> rfl
  | abandon other =>
    simp only [Step.concern?]
    split <;> rfl

theorem concern?_eq_cancelled_iff {step : Step} :
    step.concern? id = some .cancelled ↔ step = .unsubscribe id := by
  cases step <;> simp [Step.concern?]

theorem concern?_eq_abandoned_iff {step : Step} :
    step.concern? id = some .abandoned ↔ step = .abandon id := by
  cases step <;> simp [Step.concern?]

/-! ## New subscriptions -/

/--
The ids that were given to subscriptions are not given again.
-/
def Fresh (b : Broadcaster) : Prop := ∀ s ∈ b.subscriptions, s.id < b.nextId

theorem fresh_step (fresh : b.Fresh) (step : Step) : (b.step step).Fresh := by
  have modified (other : Nat) (step : Subscription.Step) :
      (b.modify other fun s => s.step step).Fresh := by
    intro s hs
    obtain ⟨s, there, rfl⟩ := List.mem_map.1 hs
    split
    · rw [(s.step_keeps step).1]
      exact fresh s there
    · exact fresh s there
  cases step with
  | subscribe bufferSize filter =>
    intro s hs
    rcases List.mem_append.1 hs with hs | hs
    · exact Nat.lt_succ_of_lt (fresh s hs)
    · rw [List.mem_singleton.1 hs]
      exact Nat.lt_succ_self _
  | unsubscribe other => exact modified other .cancelled
  | broadcast event =>
    intro s hs
    obtain ⟨s, there, rfl⟩ := List.mem_map.1 hs
    rw [(s.deliver_keeps event).1]
    exact fresh s there
  | receive other => exact modified other .received
  | abandon other => exact modified other .abandoned

theorem fresh_run (steps : List Step) : (run {} steps).Fresh := by
  have kept (b : Broadcaster) (fresh : b.Fresh) : (b.run steps).Fresh := by
    induction steps generalizing b with
    | nil => exact fresh
    | cons step steps ih => exact ih (b.step step) (fresh_step fresh step)
  apply kept
  exact nofun

theorem subscription?_subscribe (fresh : b.Fresh) (bufferSize : Nat) (filter : EventFilter) :
    (b.subscribe bufferSize filter).2.subscription? b.nextId =
      some { id := b.nextId, capacity := max bufferSize 1, filter } := by
  have absent : b.subscriptions.find? (fun s => decide (s.id = b.nextId)) = none := by
    apply List.find?_eq_none.2
    intro s hs
    have := fresh s hs
    simp only [decide_eq_true_eq]
    omega
  change List.find? _ (b.subscriptions ++ _) = _
  rw [List.find?_append, absent]
  simp

/-! ## The whole run -/

/--
Whether a step after the steps `now` ends a subscription: it is cancelled, or an event that it wants
finds its receiver gone or its buffer full.
-/
def Ends (start : Broadcaster) (id bufferSize : Nat) (filter : EventFilter) (now : List Step)
    (step : Step) : Prop :=
  step = .unsubscribe id ∨
    ∃ event, step = .broadcast event ∧ filter.wants event = true ∧
      (.abandon id ∈ now ∨ ((start.run now).buffered id).length = max bufferSize 1)

/--
The event that comes last, if a subscription is cancelled while there is room in its buffer.
-/
def notice (start : Broadcaster) (id bufferSize : Nat) (kept rest : List Step) : List Event :=
  if rest.head? = some (.unsubscribe id) ∧
      ((start.run kept).buffered id).length < max bufferSize 1 then
    [.dropped .unsubscribed]
  else
    []

section

variable {before : List Step} {bufferSize : Nat} {filter : EventFilter} {start : Broadcaster}

/--
A subscription that has just been made.
-/
def newborn (id bufferSize : Nat) (filter : EventFilter) : Subscription where
  id
  capacity := max bufferSize 1
  filter

/--
What a subscription has come to.
-/
def matured (id bufferSize : Nat) (filter : EventFilter) (steps : List Step) : Subscription :=
  (newborn id bufferSize filter).run (steps.filterMap (Step.concern? id))

theorem subscription?_newborn
    (made : (run {} before).subscribe bufferSize filter = (id, start)) :
    start.subscription? id = some (newborn id bufferSize filter) := by
  have born := subscription?_subscribe (fresh_run before) bufferSize filter
  have same : (run {} before).nextId = id := congrArg Prod.fst made
  rw [made, same] at born
  exact born

theorem subscription?_matured (made : (run {} before).subscribe bufferSize filter = (id, start))
    (steps : List Step) :
    (start.run steps).subscription? id = some (matured id bufferSize filter steps) :=
  subscription?_run (subscription?_newborn made) steps

theorem length_buffer_matured (id bufferSize : Nat) (filter : EventFilter) (steps : List Step) :
    (matured id bufferSize filter steps).buffer.length ≤ max bufferSize 1 := by
  have fits := @Subscription.length_buffer_run_le (newborn id bufferSize filter)
    (steps.filterMap (Step.concern? id)) (Nat.zero_le _)
  exact fits

theorem attended_matured (id bufferSize : Nat) (filter : EventFilter) (steps : List Step) :
    (matured id bufferSize filter steps).attended = true ↔ .abandon id ∉ steps := by
  unfold matured
  rw [Subscription.attended_run, List.mem_filterMap]
  simp [newborn, concern?_eq_abandoned_iff]

theorem accepts_matured_eq_false_iff (id bufferSize : Nat) (filter : EventFilter)
    (steps : List Step) :
    (matured id bufferSize filter steps).accepts = false ↔
      .abandon id ∈ steps ∨
        (matured id bufferSize filter steps).buffer.length = max bufferSize 1 := by
  have fits := length_buffer_matured id bufferSize filter steps
  have capacity : (matured id bufferSize filter steps).capacity = max bufferSize 1 :=
    (Subscription.run_keeps _ _).1
  rw [Subscription.accepts, Bool.and_eq_false_iff, Bool.eq_false_iff, ne_eq, attended_matured,
    Decidable.not_not, decide_eq_false_iff_not, capacity]
  constructor
  · rintro (gone | full)
    · exact .inl gone
    · right
      omega
  · rintro (gone | full)
    · exact .inl gone
    · right
      omega

theorem endedBy_matured_iff (made : (run {} before).subscribe bufferSize filter = (id, start))
    (now : List Step) (step : Step) :
    (∃ concern, step.concern? id = some concern ∧
      (matured id bufferSize filter now).EndedBy concern) ↔
      start.Ends id bufferSize filter now step := by
  have same : (matured id bufferSize filter now).filter = filter := (Subscription.run_keeps _ _).2
  have refuses := accepts_matured_eq_false_iff id bufferSize filter now
  rw [← buffered_eq (subscription?_matured made now)] at refuses
  unfold Ends
  cases step with
  | subscribe bufferSize filter => simp [Step.concern?]
  | unsubscribe other => simp [Step.concern?, Subscription.EndedBy, and_assoc]
  | broadcast event => simp [Step.concern?, Subscription.EndedBy, same, refuses]
  | receive other => simp [Step.concern?, Subscription.EndedBy]
  | abandon other => simp [Step.concern?, Subscription.EndedBy]

theorem serves_concat_iff (made : (run {} before).subscribe bufferSize filter = (id, start))
    (now : List Step) (step : Step) :
    (start.run (now ++ [step])).Serves id ↔
      (start.run now).Serves id ∧ ¬ start.Ends id bufferSize filter now step := by
  have there := subscription?_matured made now
  rw [run_append, serves_iff there, ← endedBy_matured_iff made]
  change ((start.run now).step step).Serves id ↔ _
  rw [serves_iff (subscription?_step there step)]
  cases concern : step.concern? id with
  | none => simp
  | some concern => simp [Subscription.active_step]

/--
A subscription lasts for the first part of a run, which may be all of it.
-/
theorem exists_kept (made : (run {} before).subscribe bufferSize filter = (id, start))
    (after : List Step) :
    ∃ kept rest, after = kept ++ rest ∧
      ∀ now, now <+: after → ((start.run now).Serves id ↔ now <+: kept) := by
  induction after using List.reverseRecOn with
  | nil =>
    refine ⟨[], [], rfl, ?_⟩
    intro now hnow
    rw [List.prefix_nil] at hnow
    rw [hnow, serves_iff (subscription?_matured made [])]
    simp [matured, newborn, Subscription.run]
  | append_singleton after step ih =>
    obtain ⟨kept, rest, split, serves⟩ := ih
    by_cases still : (start.run (after ++ [step])).Serves id
    · -- all of it was kept before, since nothing is served again
      have all : kept = after := by
        have whole := (serves after (List.prefix_refl _)).1 ((serves_concat_iff made _ _).1 still).1
        exact (whole.eq_of_length_le (by rw [split]; simp)).symm
      refine ⟨after ++ [step], [], by simp, ?_⟩
      intro now hnow
      rcases List.prefix_concat_iff.1 hnow with rfl | earlier
      · simp [still]
      · have served := (serves now earlier).2 (by rwa [all])
        simp [served, hnow]
    · refine ⟨kept, rest ++ [step], by simp [split], ?_⟩
      intro now hnow
      rcases List.prefix_concat_iff.1 hnow with rfl | earlier
      · have longer : ¬ after ++ [step] <+: kept := by
          intro h
          have := h.length_le
          simp only [split, List.length_append, List.length_singleton] at this
          omega
        simp [still, longer]
      · exact serves now earlier

/--
What the step that ends a subscription puts into the buffer.
-/
theorem putting_matured (made : (run {} before).subscribe bufferSize filter = (id, start))
    {kept rest : List Step} {step : Step} {concern : Subscription.Step}
    (stays : .abandon id ∉ kept) (serves : (start.run kept).Serves id)
    (own : step.concern? id = some concern)
    (ends : (matured id bufferSize filter kept).EndedBy concern) :
    (matured id bufferSize filter kept).putting concern =
      start.notice id bufferSize kept (step :: rest) := by
  have there := subscription?_matured made kept
  have active := (serves_iff there).1 serves
  have refuses := accepts_matured_eq_false_iff id bufferSize filter kept
  have fits := length_buffer_matured id bufferSize filter kept
  have cancelled : step = .unsubscribe id ↔ concern = .cancelled := by
    rw [← concern?_eq_cancelled_iff, own, Option.some.injEq]
  unfold notice
  simp only [buffered_eq there, List.head?_cons, Option.some.injEq, cancelled]
  cases concern with
  | told event => simp [Subscription.putting, ends.2]
  | cancelled =>
    simp only [stays, false_or] at refuses
    cases accepts : (matured id bufferSize filter kept).accepts with
    | false =>
      have full := refuses.1 accepts
      simp [Subscription.putting, accepts, full]
    | true =>
      have room : (matured id bufferSize filter kept).buffer.length < max bufferSize 1 := by
        have other : (matured id bufferSize filter kept).buffer.length ≠ max bufferSize 1 := by
          intro full
          rw [refuses.2 full] at accepts
          cases accepts
        omega
      simp only [Subscription.putting, accepts, active, room, Bool.and_self, and_self, if_true]
  | received => exact ends.elim
  | abandoned => exact ends.elim

/--
From the step on that ends a subscription, it gets nothing but the notice.
-/
theorem gets_matured (made : (run {} before).subscribe bufferSize filter = (id, start))
    {kept rest : List Step} (stays : .abandon id ∉ kept)
    (serves : ∀ now, now <+: kept ++ rest → ((start.run now).Serves id ↔ now <+: kept)) :
    (matured id bufferSize filter kept).gets (rest.filterMap (Step.concern? id)) =
      start.notice id bufferSize kept rest := by
  cases rest with
  | nil => simp [Subscription.gets, notice]
  | cons step rest =>
    have lasts : (start.run kept).Serves id :=
      (serves kept (List.prefix_append _ _)).2 List.prefix_rfl
    have stops : ¬ (start.run (kept ++ [step])).Serves id := by
      rw [serves (kept ++ [step]) (by simp)]
      intro h
      have := h.length_le
      rw [List.length_append, List.length_singleton] at this
      omega
    have ends : start.Ends id bufferSize filter kept step := by
      rw [serves_concat_iff made] at stops
      by_contra h
      exact stops ⟨lasts, h⟩
    obtain ⟨concern, own, endedBy⟩ := (endedBy_matured_iff made kept step).2 ends
    rw [List.filterMap_cons_some own, Subscription.gets_of_endedBy endedBy]
    exact putting_matured made stays lasts own endedBy

theorem taken_append_buffered (made : (run {} before).subscribe bufferSize filter = (id, start))
    {kept rest : List Step} (stays : .abandon id ∉ kept ++ rest)
    (serves : ∀ now, now <+: kept ++ rest → ((start.run now).Serves id ↔ now <+: kept)) :
    start.taken id (kept ++ rest) ++ (start.run (kept ++ rest)).buffered id =
      (kept.filterMap Step.event?).filter filter.wants ++
        start.notice id bufferSize kept rest := by
  have gone : .abandoned ∉ (kept ++ rest).filterMap (Step.concern? id) := by
    rw [List.mem_filterMap]
    rintro ⟨step, there, own⟩
    rw [concern?_eq_abandoned_iff.1 own] at there
    exact stays there
  have lasts : (start.run kept).Serves id :=
    (serves kept (List.prefix_append _ _)).2 List.prefix_rfl
  have active := (serves_iff (subscription?_matured made kept)).1 lasts
  have events : (kept.filterMap (Step.concern? id)).filterMap Subscription.Step.event? =
      kept.filterMap Step.event? := by
    rw [List.filterMap_filterMap]
    exact congrArg (kept.filterMap ·) (funext (event?_concern? id))
  calc start.taken id (kept ++ rest) ++ (start.run (kept ++ rest)).buffered id
    _ = (newborn id bufferSize filter).taken ((kept ++ rest).filterMap (Step.concern? id)) ++
        (matured id bufferSize filter (kept ++ rest)).buffer := by
      rw [taken_eq (subscription?_newborn made), buffered_eq (subscription?_matured made _)]
    _ = (newborn id bufferSize filter).gets ((kept ++ rest).filterMap (Step.concern? id)) :=
      Subscription.taken_append_buffer _ gone
    _ = (newborn id bufferSize filter).gets (kept.filterMap (Step.concern? id)) ++
        (matured id bufferSize filter kept).gets (rest.filterMap (Step.concern? id)) := by
      rw [List.filterMap_append, Subscription.gets_append]
      rfl
    _ = (kept.filterMap Step.event?).filter filter.wants ++
        start.notice id bufferSize kept rest := by
      have rest' := gets_matured made (fun h => stays (List.mem_append_left _ h)) serves
      rw [Subscription.gets_of_active active, events, rest']
      rfl

/--
What a receiver takes and what is left in its buffer are the events that it wants, in order and from
the time for which it is subscribed, and then a notice if that time has ended by its own wish.
-/
theorem reception_of_run (made : (run {} before).subscribe bufferSize filter = (id, start))
    (after : List Step) :
    ((start.run after).buffered id).length ≤ max bufferSize 1 ∧
    (∀ step, (start.run (after ++ [step])).Serves id ↔
      (start.run after).Serves id ∧ ¬ start.Ends id bufferSize filter after step) ∧
    (∃ kept rest, after = kept ++ rest ∧
      (∀ now, now <+: after → ((start.run now).Serves id ↔ now <+: kept)) ∧
      (.abandon id ∉ after →
        start.taken id after ++ (start.run after).buffered id =
          (kept.filterMap Step.event?).filter filter.wants ++
            start.notice id bufferSize kept rest)) ∧
    ∀ (before' after' : List Step) (id' : Nat) (start' : Broadcaster),
      (run {} before').subscribe bufferSize filter = (id', start') →
      after'.filterMap (Step.concern? id') = after.filterMap (Step.concern? id) →
      start'.taken id' after' = start.taken id after ∧
      (start'.run after').buffered id' = (start.run after).buffered id ∧
      ((start'.run after').Serves id' ↔ (start.run after).Serves id) := by
  refine ⟨?_, serves_concat_iff made after, ?_, ?_⟩
  · rw [buffered_eq (subscription?_matured made after)]
    exact length_buffer_matured id bufferSize filter after
  · obtain ⟨kept, rest, rfl, serves⟩ := exists_kept made after
    exact ⟨kept, rest, rfl, serves, fun stays => taken_append_buffered made stays serves⟩
  · intro before' after' id' start' made' same
    have there := subscription?_matured made after
    have there' := subscription?_matured made' after'
    have alike : matured id' bufferSize filter after' =
        (matured id bufferSize filter after).renamed id' := by
      unfold matured
      rw [same, ← Subscription.run_renamed]
      rfl
    rw [taken_eq (subscription?_newborn made), taken_eq (subscription?_newborn made'), same,
      buffered_eq there, buffered_eq there', serves_iff there, serves_iff there', alike]
    refine ⟨?_, rfl, Iff.rfl⟩
    exact Subscription.taken_renamed id' (newborn id bufferSize filter) _

end

/--
Two subscribers, one of which leaves while there is room in its buffer.
-/
def twoSubscribers : List Step :=
  [.broadcast (.created "M/A" 1 2), .broadcast (.locked "M"), .receive 2, .subscribe 1 .all,
    .broadcast (.created "N" 3 3), .broadcast (.created "M/B" 1 4), .receive 3, .unsubscribe 2,
    .broadcast (.created "M/C" 1 5), .receive 2]

theorem reception_of_twoSubscribers :
    ∃ start, (run {} [.subscribe 5 .all, .unsubscribe 1]).subscribe 2 (.below "M") = (2, start) ∧
      .abandon 2 ∉ twoSubscribers ∧
      ∃ kept rest, twoSubscribers = kept ++ rest ∧
        (∀ now, now <+: twoSubscribers → ((start.run now).Serves 2 ↔ now <+: kept)) ∧
        start.taken 2 twoSubscribers ++ (start.run twoSubscribers).buffered 2 =
          (kept.filterMap Step.event?).filter (EventFilter.below "M").wants ++
            start.notice 2 2 kept rest := by
  have made : (run {} [.subscribe 5 .all, .unsubscribe 1]).subscribe 2 (.below "M") =
    (2, ((run {} [.subscribe 5 .all, .unsubscribe 1]).subscribe 2 (.below "M")).2) := rfl
  have stays : .abandon 2 ∉ twoSubscribers := by decide
  obtain ⟨kept, rest, split, serves, exactly⟩ := (reception_of_run made twoSubscribers).2.2.1
  exact ⟨_, made, stays, kept, rest, split, serves, exactly stays⟩

end Broadcaster

end TemporalStore
