import TemporalStore.Event.Broadcaster

/-!
This module contains what becomes of one subscription, step after step: which events get into its
buffer, which leave it, and when it ends.
-/

namespace TemporalStore

namespace Subscription

/--
What can happen to a subscription.
-/
inductive Step where
  | told (event : Event)
  | cancelled
  | received
  | abandoned
  deriving DecidableEq

def step (s : Subscription) : Step → Subscription
  | .told event => s.deliver event
  | .cancelled => s.cancel
  | .received => s.receive.2
  | .abandoned => s.abandon

def run (s : Subscription) (steps : List Step) : Subscription := steps.foldl step s

/--
What the receiver takes in a step.
-/
def taking (s : Subscription) : Step → List Event
  | .received => s.receive.1.toList
  | _ => []

def taken : Subscription → List Step → List Event
  | _, [] => []
  | s, step :: steps => s.taking step ++ (s.step step).taken steps

/--
What a step puts into the buffer.
-/
def putting (s : Subscription) : Step → List Event
  | .told event => if s.active && s.filter.wants event && s.accepts then [event] else []
  | .cancelled => if s.active && s.accepts then [.dropped .unsubscribed] else []
  | .received | .abandoned => []

/--
What comes into the buffer in a run.
-/
def gets : Subscription → List Step → List Event
  | _, [] => []
  | s, step :: steps => s.putting step ++ (s.step step).gets steps

def Step.event? : Step → Option Event
  | .told event => some event
  | _ => none

/--
Whether a step ends the subscription: it is cancelled, or told of an event that it wants and does
not accept.
-/
def EndedBy (s : Subscription) : Step → Prop
  | .told event => s.filter.wants event = true ∧ s.accepts = false
  | .cancelled => True
  | .received | .abandoned => False

variable {s : Subscription} {steps : List Step}

theorem run_append (s : Subscription) (steps more : List Step) :
    s.run (steps ++ more) = (s.run steps).run more := List.foldl_append

theorem gets_append (s : Subscription) (steps more : List Step) :
    s.gets (steps ++ more) = s.gets steps ++ (s.run steps).gets more := by
  induction steps generalizing s with
  | nil => rfl
  | cons step steps ih =>
    rw [List.cons_append, gets, ih, gets, List.append_assoc]
    rfl

/-! ## One step -/

theorem deliver_eq (event : Event) (s : Subscription) :
    s.deliver event = { s with
      active := s.active && (!s.filter.wants event || s.accepts)
      buffer := s.buffer ++ s.putting (.told event) } := by
  obtain ⟨id, capacity, filter, active, attended, buffer⟩ := s
  unfold deliver putting
  cases active with
  | false => simp
  | true =>
    cases wanted : filter.wants event with
    | false => simp [wanted]
    | true =>
      cases accepts : accepts ⟨id, capacity, filter, true, attended, buffer⟩ with
      | false => simp [finish_of_refuses, wanted, accepts]
      | true => simp [push, wanted]

theorem cancel_eq (s : Subscription) :
    s.cancel = { s with active := false, buffer := s.buffer ++ s.putting .cancelled } := by
  obtain ⟨id, capacity, filter, active, attended, buffer⟩ := s
  unfold cancel putting
  cases active with
  | false => simp
  | true =>
    cases accepts : accepts ⟨id, capacity, filter, true, attended, buffer⟩ with
    | false => simp [finish, accepts]
    | true => simp [finish, push, accepts]

theorem step_keeps (s : Subscription) (step : Step) :
    (s.step step).id = s.id ∧ (s.step step).capacity = s.capacity ∧
      (s.step step).filter = s.filter := by
  cases step with
  | told event =>
    change (s.deliver event).id = _ ∧ (s.deliver event).capacity = _ ∧ (s.deliver event).filter = _
    rw [deliver_eq]
    exact ⟨rfl, rfl, rfl⟩
  | cancelled =>
    change s.cancel.id = _ ∧ s.cancel.capacity = _ ∧ s.cancel.filter = _
    rw [cancel_eq]
    exact ⟨rfl, rfl, rfl⟩
  | received => exact ⟨rfl, rfl, rfl⟩
  | abandoned => exact ⟨rfl, rfl, rfl⟩

theorem attended_step (s : Subscription) (step : Step) :
    (s.step step).attended = true ↔ s.attended = true ∧ step ≠ .abandoned := by
  cases step with
  | told event => simp [Subscription.step, deliver_eq]
  | cancelled => simp [Subscription.step, cancel_eq]
  | received => simp [Subscription.step, receive]
  | abandoned => simp [Subscription.step, abandon]

theorem active_step (s : Subscription) (step : Step) :
    (s.step step).active = true ↔ s.active = true ∧ ¬ s.EndedBy step := by
  cases step with
  | told event =>
    simp only [Subscription.step, deliver_eq, EndedBy]
    cases s.filter.wants event <;> simp
  | cancelled => simp [Subscription.step, cancel_eq, EndedBy]
  | received => simp [Subscription.step, receive, EndedBy]
  | abandoned => simp [Subscription.step, abandon, EndedBy]

/--
What is in the buffer leaves it in the order in which it came.
-/
theorem taking_append_buffer (s : Subscription) {step : Step} (stays : step ≠ .abandoned) :
    s.taking step ++ (s.step step).buffer = s.buffer ++ s.putting step := by
  cases step with
  | told event => simp [taking, Subscription.step, deliver_eq]
  | cancelled => simp [taking, Subscription.step, cancel_eq]
  | received =>
    cases buffer : s.buffer <;> simp [taking, Subscription.step, receive, putting, buffer]
  | abandoned => exact absurd rfl stays

theorem length_buffer_step_le {step : Step} (h : s.buffer.length ≤ s.capacity) :
    (s.step step).buffer.length ≤ s.capacity := by
  have room (accepts : s.accepts = true) : s.buffer.length < s.capacity := by
    simp only [Subscription.accepts, Bool.and_eq_true, decide_eq_true_eq] at accepts
    exact accepts.2
  cases step with
  | told event => exact length_buffer_deliver_le h
  | cancelled =>
    simp only [Subscription.step, cancel_eq, putting]
    split
    · rename_i hs
      have := room (Bool.and_eq_true_iff.1 hs).2
      simp only [List.length_append, List.length_singleton]
      omega
    · simpa using h
  | received =>
    have shorter : s.buffer.tail.length ≤ s.buffer.length := (List.tail_sublist s.buffer).length_le
    exact Nat.le_trans shorter h
  | abandoned => exact Nat.zero_le _

theorem putting_of_active {step : Step} (active : (s.step step).active = true) :
    s.putting step = step.event?.toList.filter s.filter.wants := by
  obtain ⟨before, stays⟩ := (s.active_step step).1 active
  cases step with
  | told event =>
    simp only [EndedBy, not_and, Bool.not_eq_false] at stays
    cases wanted : s.filter.wants event with
    | false => simp [putting, Step.event?, wanted]
    | true => simp [putting, Step.event?, before, wanted, stays wanted]
  | cancelled => exact absurd trivial stays
  | received => rfl
  | abandoned => rfl

theorem putting_of_ended {step : Step} (ended : s.active = false) : s.putting step = [] := by
  cases step <;> simp [putting, ended]

/-! ## A run -/

theorem run_keeps (s : Subscription) (steps : List Step) :
    (s.run steps).capacity = s.capacity ∧ (s.run steps).filter = s.filter := by
  induction steps generalizing s with
  | nil => exact ⟨rfl, rfl⟩
  | cons step steps ih =>
    obtain ⟨-, capacity, filter⟩ := s.step_keeps step
    rw [← capacity, ← filter]
    exact ih (s.step step)

theorem length_buffer_run_le (h : s.buffer.length ≤ s.capacity) :
    (s.run steps).buffer.length ≤ s.capacity := by
  induction steps generalizing s with
  | nil => exact h
  | cons step steps ih =>
    have capacity := (s.step_keeps step).2.1
    rw [← capacity]
    apply ih
    rw [capacity]
    exact length_buffer_step_le h

theorem attended_run (s : Subscription) (steps : List Step) :
    (s.run steps).attended = true ↔ s.attended = true ∧ .abandoned ∉ steps := by
  induction steps generalizing s with
  | nil => simp [run]
  | cons step steps ih =>
    change ((s.step step).run steps).attended = true ↔ _
    rw [ih, attended_step, List.mem_cons, not_or, and_assoc, ne_comm]

theorem active_of_run (active : (s.run steps).active = true) : s.active = true := by
  induction steps generalizing s with
  | nil => exact active
  | cons step steps ih => exact ((s.active_step step).1 (ih active)).1

/--
Events leave the buffer in the order in which they have come into it.
-/
theorem taken_append_buffer (s : Subscription) (stays : .abandoned ∉ steps) :
    s.taken steps ++ (s.run steps).buffer = s.buffer ++ s.gets steps := by
  induction steps generalizing s with
  | nil => simp [taken, gets, run]
  | cons step steps ih =>
    rw [List.mem_cons, not_or] at stays
    calc s.taken (step :: steps) ++ (s.run (step :: steps)).buffer
      _ = s.taking step ++ ((s.step step).taken steps ++ ((s.step step).run steps).buffer) :=
        List.append_assoc ..
      _ = (s.taking step ++ (s.step step).buffer) ++ (s.step step).gets steps := by
        rw [ih _ stays.2, List.append_assoc]
      _ = s.buffer ++ s.gets (step :: steps) := by
        rw [taking_append_buffer s (Ne.symm stays.1), gets, List.append_assoc]

/--
As long as a subscription lasts, it gets all events that it wants.
-/
theorem gets_of_active (active : (s.run steps).active = true) :
    s.gets steps = (steps.filterMap Step.event?).filter s.filter.wants := by
  induction steps generalizing s with
  | nil => rfl
  | cons step steps ih =>
    have still : (s.step step).active = true := @active_of_run _ steps active
    have events : (step :: steps).filterMap Step.event? =
        step.event?.toList ++ steps.filterMap Step.event? := by
      cases h : step.event? <;> simp [h]
    rw [gets, ih active, putting_of_active still, (s.step_keeps step).2.2, events,
      List.filter_append]

theorem gets_of_ended (ended : s.active = false) : s.gets steps = [] := by
  induction steps generalizing s with
  | nil => rfl
  | cons step steps ih =>
    have still : (s.step step).active = false := by
      rw [Bool.eq_false_iff]
      intro active
      rw [((s.active_step step).1 active).1] at ended
      cases ended
    rw [gets, putting_of_ended ended, ih still, List.append_nil]

/--
The step that ends a subscription may leave a notice, and nothing comes after that.
-/
theorem gets_of_endedBy {step : Step} (ends : s.EndedBy step) :
    s.gets (step :: steps) = s.putting step := by
  have ended : (s.step step).active = false := by
    rw [Bool.eq_false_iff]
    intro active
    exact ((s.active_step step).1 active).2 ends
  rw [gets, gets_of_ended ended, List.append_nil]

/--
Draining the buffer is receiving until nothing is left in it.
-/
theorem drain_eq (s : Subscription) :
    s.drain = (s.taken (List.replicate s.buffer.length .received),
      s.run (List.replicate s.buffer.length .received)) := by
  obtain ⟨id, capacity, filter, active, attended, buffer⟩ := s
  induction buffer with
  | nil => rfl
  | cons event buffer ih =>
    have rest := Prod.ext_iff.1 ih
    simp only [drain] at rest ⊢
    rw [List.length_cons, List.replicate_succ]
    apply Prod.ext
    · exact congrArg (event :: ·) rest.1
    · exact rest.2

/-! ## Other ids

The id of a subscription plays no part in what happens to it.
-/

def renamed (id : Nat) (s : Subscription) : Subscription := { s with id }

theorem step_renamed (id : Nat) (s : Subscription) (step : Step) :
    (s.renamed id).step step = (s.step step).renamed id := by
  cases step with
  | told event =>
    simp only [Subscription.step, deliver_eq]
    rfl
  | cancelled =>
    simp only [Subscription.step, cancel_eq]
    rfl
  | received => rfl
  | abandoned => rfl

theorem run_renamed (id : Nat) (s : Subscription) (steps : List Step) :
    (s.renamed id).run steps = (s.run steps).renamed id := by
  induction steps generalizing s with
  | nil => rfl
  | cons step steps ih =>
    change ((s.renamed id).step step).run steps = _
    rw [step_renamed, ih]
    rfl

theorem taken_renamed (id : Nat) (s : Subscription) (steps : List Step) :
    (s.renamed id).taken steps = s.taken steps := by
  induction steps generalizing s with
  | nil => rfl
  | cons step steps ih =>
    rw [taken, step_renamed, ih, taken]
    cases step <;> rfl

end Subscription

end TemporalStore
