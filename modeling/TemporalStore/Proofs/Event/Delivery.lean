import TemporalStore.Event.Broadcaster

/-!
This module contains what a subscriber gets when several events are announced one after the other.
-/

namespace TemporalStore

namespace EventFilter

theorem wants_all (event : Event) : all.wants event = true := by
  cases event <;> rfl

end EventFilter

namespace Subscription

variable {s : Subscription} {event : Event} {told : List Event}

def deliverAll (told : List Event) (s : Subscription) : Subscription :=
  told.foldl (fun s event => s.deliver event) s

theorem deliverAll_cons (event : Event) (told : List Event) (s : Subscription) :
    s.deliverAll (event :: told) = (s.deliver event).deliverAll told := rfl

theorem deliver_of_ended (ended : s.active = false) : s.deliver event = s := by
  unfold deliver
  simp [ended]

theorem deliver_of_unwanted (unwanted : s.filter.wants event = false) : s.deliver event = s := by
  unfold deliver
  simp [unwanted]

theorem deliver_of_accepts (active : s.active = true) (wanted : s.filter.wants event = true)
    (accepts : s.accepts = true) : s.deliver event = s.push event := by
  unfold deliver
  simp [active, wanted, accepts]

theorem deliver_of_refuses (active : s.active = true) (wanted : s.filter.wants event = true)
    (refuses : s.accepts = false) : s.deliver event = { s with active := false } := by
  unfold deliver
  simp [active, wanted, refuses, finish_of_refuses]

theorem deliver_keeps (s : Subscription) (event : Event) :
    (s.deliver event).id = s.id ∧ (s.deliver event).capacity = s.capacity ∧
      s.buffer <+: (s.deliver event).buffer := by
  unfold deliver
  split
  · split
    · exact ⟨rfl, rfl, List.prefix_append _ _⟩
    · rename_i full
      rw [finish_of_refuses _ (by simpa using full)]
      exact ⟨rfl, rfl, List.prefix_refl _⟩
  · exact ⟨rfl, rfl, List.prefix_refl _⟩

theorem deliverAll_of_ended (told : List Event) (ended : s.active = false) :
    s.deliverAll told = s := by
  induction told with
  | nil => rfl
  | cons event told ih => rw [deliverAll_cons, deliver_of_ended ended, ih]

theorem deliverAll_of_unwanted (unwanted : ∀ event ∈ told, s.filter.wants event = false) :
    s.deliverAll told = s := by
  induction told with
  | nil => rfl
  | cons event told ih =>
    rw [List.forall_mem_cons] at unwanted
    rw [deliverAll_cons, deliver_of_unwanted unwanted.1, ih unwanted.2]

theorem capacity_deliverAll (s : Subscription) (told : List Event) :
    (s.deliverAll told).capacity = s.capacity := by
  induction told generalizing s with
  | nil => rfl
  | cons event told ih => rw [deliverAll_cons, ih, (s.deliver_keeps event).2.1]

theorem buffer_prefix_deliverAll (told : List Event) (s : Subscription) :
    s.buffer <+: (s.deliverAll told).buffer := by
  induction told generalizing s with
  | nil => exact List.prefix_refl _
  | cons event told ih => exact (s.deliver_keeps event).2.2.trans (ih _)

/--
A subscriber with room left in the end has got every wanted event.
-/
theorem deliverAll_of_room (active : s.active = true) (attended : s.attended = true)
    (room : (s.deliverAll told).buffer.length < s.capacity) :
    s.deliverAll told = { s with buffer := s.buffer ++ told.filter s.filter.wants } := by
  induction told generalizing s with
  | nil =>
    rw [List.filter_nil, List.append_nil]
    rfl
  | cons event told ih =>
    rw [deliverAll_cons] at room ⊢
    cases wanted : s.filter.wants event with
    | false =>
      rw [deliver_of_unwanted wanted] at room ⊢
      rw [ih active attended room, List.filter_cons_of_neg (by simp [wanted])]
    | true =>
      cases fits : s.accepts with
      | true =>
        rw [deliver_of_accepts active wanted fits] at room ⊢
        rw [@ih (s.push event) active attended room, List.filter_cons_of_pos wanted]
        simp [push]
      | false =>
        -- a full buffer does not become shorter
        rw [deliver_of_refuses active wanted fits, deliverAll_of_ended told rfl] at room
        simp only [accepts, attended, Bool.true_and, decide_eq_false_iff_not] at fits
        exact absurd room fits

/--
A subscriber with room left at first gets the first wanted event.
-/
theorem buffer_deliverAll_eq_iff (active : s.active = true) (accepts : s.accepts = true) :
    (s.deliverAll told).buffer = s.buffer ↔ ∀ event ∈ told, s.filter.wants event = false := by
  constructor
  · intro same
    induction told with
    | nil => simp
    | cons event told ih =>
      rw [deliverAll_cons] at same
      cases wanted : s.filter.wants event with
      | false =>
        rw [deliver_of_unwanted wanted] at same
        exact List.forall_mem_cons.2 ⟨wanted, ih same⟩
      | true =>
        exfalso
        have longer := (buffer_prefix_deliverAll told (s.push event)).length_le
        rw [← deliver_of_accepts active wanted accepts, same,
          deliver_of_accepts active wanted accepts] at longer
        simp only [push, List.length_append, List.length_singleton] at longer
        omega
  · intro unwanted
    rw [deliverAll_of_unwanted unwanted]

end Subscription

namespace Broadcaster

variable {b : Broadcaster} {s : Subscription} {id : Nat}

theorem subscription?_broadcast (b : Broadcaster) (event : Event) (id : Nat) :
    (b.broadcast event).subscription? id =
      (b.subscription? id).map (Subscription.deliver event) := by
  have same : ∀ s : Subscription, (s.deliver event).id = s.id := fun s => (s.deliver_keeps event).1
  unfold subscription? broadcast
  rw [List.find?_map]
  congr 2
  funext s
  simp [same]

theorem subscription?_foldl_broadcast (told : List Event) (b : Broadcaster) (id : Nat) :
    (told.foldl broadcast b).subscription? id =
      (b.subscription? id).map (Subscription.deliverAll told) := by
  induction told generalizing b with
  | nil => exact (congrFun Option.map_id (b.subscription? id)).symm
  | cons event told ih =>
    rw [List.foldl_cons, ih, subscription?_broadcast, Option.map_map]
    rfl

end Broadcaster

end TemporalStore
