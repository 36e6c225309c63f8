import TemporalStore.Proofs.Directory.Replica
import TemporalStore.Proofs.Event.Delivery
import TemporalStore.Proofs.Session.Announcement
import TemporalStore.Proofs.Session.Reopen

/-!
This module contains what someone knows of the branches who has listened to a session from its
beginning.
-/

namespace TemporalStore

theorem Replica.Describes.get?_eq_some_iff {replica : Replica} {index : RowIndex} {now : Timepoint}
    {path : String} {view : View} (h : replica.Describes index) (valid : index.Valid now) :
    replica.branches.get? path = some view ↔
      ∃ row ∈ index.currentRows, row.path = path ∧ row.view = view := by
  constructor
  · intro known
    have hp := h.valid path view known
    rw [h.view path hp, Option.map_eq_some_iff] at known
    obtain ⟨row, last, same⟩ := known
    have rowPath := (valid.fits_last hp last).path
    refine ⟨row, valid.mem_currentRows_iff.2 ?_, rowPath, same⟩
    rw [rowPath]
    exact ⟨hp, last⟩
  · rintro ⟨row, mem, rfl, rfl⟩
    obtain ⟨hp, last⟩ := valid.mem_currentRows_iff.1 mem
    rw [h.view row.path hp, last]
    rfl

namespace Session

/-! ## Listening -/

section

variable (id : Nat)

def buffered (session : Session) : List Event :=
  (session.site.directory.events.subscription? id).elim [] Subscription.buffer

/--
The events that the subscriber takes from the buffer.
-/
def drawn (session : Session) (action : Action) : List Event :=
  match action with
  | .subscribers _ =>
    let left := ((session.step action).2.buffered id).length
    (session.buffered id).take ((session.buffered id).length - left)
  | _ => []

/--
The events that the subscriber has received by the end of a run, whether they have been taken or are
still in the buffer.
-/
def received (session : Session) : List Action → List Event
  | [] => session.buffered id
  | action :: actions => session.drawn id action ++ (session.step action).2.received actions

def HasRoom (session : Session) : Prop :=
  ∀ s ∈ session.site.directory.events.subscription? id, s.buffer.length < s.capacity

instance (session : Session) : Decidable (session.HasRoom id) :=
  inferInstanceAs (Decidable (∀ s ∈ _, _))

/--
When subscribers come and go, this one stays, and takes events in the order in which they came.
-/
def Attends (session : Session) : Action → Prop
  | .subscribers events => ∃ n, events.subscription? id =
      (session.site.directory.events.subscription? id).map fun s =>
        { s with buffer := s.buffer.drop n }
  | _ => True

/--
The subscriber is there throughout a run, and the buffer never fills.
-/
def Listens (session : Session) : List Action → Prop
  | [] => session.HasRoom id
  | action :: actions => session.HasRoom id ∧ session.Attends id action ∧
      (session.step action).2.Listens actions

end

/--
The session with a subscriber to all events.
-/
def watched (session : Session) (bufferSize : Nat) : Session :=
  (session.step (.subscribers (session.site.directory.events.subscribe bufferSize .all).2)).2

section

variable {session : Session} {id : Nat} {s : Subscription} {action : Action}
  {actions : List Action}

theorem buffered_of_subscription?
    (there : session.site.directory.events.subscription? id = some s) :
    session.buffered id = s.buffer := by
  unfold buffered
  rw [there]
  rfl

theorem hasRoom_of_listens (listens : session.Listens id actions) : session.HasRoom id := by
  cases actions with
  | nil => exact listens
  | cons action actions => exact listens.1

/--
Nothing is lost between what was taken and what is left.
-/
theorem drawn_append_drop {events : Broadcaster} {n : Nat}
    (there : session.site.directory.events.subscription? id = some s)
    (left : events.subscription? id = some { s with buffer := s.buffer.drop n }) :
    session.drawn id (.subscribers events) ++ s.buffer.drop n = s.buffer := by
  have after : (session.step (.subscribers events)).2.buffered id = s.buffer.drop n :=
    @buffered_of_subscription? (session.step (.subscribers events)).2 id _ left
  have count : s.buffer.length - (s.buffer.length - n) = min n s.buffer.length := by omega
  unfold drawn
  simp only
  rw [after, buffered_of_subscription? there, List.length_drop, count, List.take_eq_take_min.symm]
  exact List.take_append_drop n s.buffer

theorem drawn_of_ne (same : ∀ events, action ≠ .subscribers events) :
    session.drawn id action = [] := by
  cases action with
  | subscribers events => exact absurd rfl (same events)
  | _ => rfl

/--
A subscriber with room gets everything that is told.
-/
theorem subscription?_of_tells {next : Session} {told : List Event}
    (there : session.site.directory.events.subscription? id = some s) (active : s.active = true)
    (attended : s.attended = true) (all : s.filter = .all)
    (tells : session.site.Tells told next.site) (room : next.HasRoom id) :
    next.site.directory.events.subscription? id = some { s with buffer := s.buffer ++ told } := by
  have after := Broadcaster.subscription?_foldl_broadcast told session.site.directory.events id
  rw [← tells.events, there, Option.map_some] at after
  have kept : (s.deliverAll told).capacity = s.capacity := s.capacity_deliverAll told
  have fits := room _ after
  rw [kept] at fits
  rw [after, Subscription.deliverAll_of_room active attended fits, all]
  have wanted : told.filter EventFilter.all.wants = told := by
    rw [List.filter_eq_self]
    intro event _
    exact EventFilter.wants_all event
  rw [wanted]

theorem describes_run {earlier : List Event} (sound : session.Sound)
    (memory : session.site.directory.file = none) (permitted : session.Permits actions)
    (listens : session.Listens id actions)
    (there : session.site.directory.events.subscription? id = some s) (active : s.active = true)
    (attended : s.attended = true) (all : s.filter = .all)
    (describes : (Replica.ofEvents (earlier ++ s.buffer)).Describes session.site.directory.index) :
    (Replica.ofEvents (earlier ++ session.received id actions)).Describes
      (session.run actions).site.directory.index := by
  induction actions generalizing session s earlier with
  | nil =>
    unfold received
    rw [buffered_of_subscription? there]
    exact describes
  | cons action actions ih =>
    obtain ⟨allowed, rest⟩ := permitted
    obtain ⟨-, attends, listens⟩ := listens
    have sound' := (stays_step sound allowed).sound
    have memory' := (keepsFile_step sound allowed).1.trans memory
    unfold received
    rw [← List.append_assoc]
    by_cases changes : ∃ events, action = .subscribers events
    · obtain ⟨events, rfl⟩ := changes
      obtain ⟨n, left⟩ := attends
      rw [there, Option.map_some] at left
      refine ih sound' memory' rest listens left active attended all ?_
      rw [List.append_assoc, drawn_append_drop there left]
      exact describes
    · rw [not_exists] at changes
      obtain ⟨told, tells⟩ :=
        (announces_step sound allowed (fun _ _ => memory) changes).exists_told
      have after := subscription?_of_tells there active attended all tells
        (hasRoom_of_listens listens)
      refine ih sound' memory' rest listens after active attended all ?_
      rw [drawn_of_ne changes, List.append_nil, ← List.append_assoc, Replica.ofEvents_append]
      exact describes.hearAll tells.rows

end

/--
Whatever is done in a session that starts out empty and is kept in memory, and whether or not it
succeeds, someone who has listened from the beginning with room in the buffer knows from the events
alone which branches there are, and the head and the lock of each.
-/
theorem replica_of_run {session : Session} {bufferSize : Nat} {actions : List Action}
    (new : session.New) (memory : session.site.directory.file = none)
    (permitted : (session.watched bufferSize).Permits actions)
    (listens : (session.watched bufferSize).Listens session.site.directory.events.nextId actions)
    (path : String) (view : View) :
    (Replica.ofEvents ((session.watched bufferSize).received session.site.directory.events.nextId
        actions)).branches.get? path = some view ↔
      ∃ row ∈ ((session.watched bufferSize).run actions).site.directory.branches,
        row.path = path ∧ row.view = view := by
  have sound : (session.watched bufferSize).Sound :=
    (@stays_step session new.sound (.subscribers _) trivial).sound
  obtain ⟨-, -, file, cacheSize, directory, -⟩ := new
  have there : (session.watched bufferSize).site.directory.events.subscription?
      session.site.directory.events.nextId =
        some { id := 1, capacity := max bufferSize 1, filter := .all } := by
    unfold watched step
    rw [directory]
    rfl
  have none : (session.watched bufferSize).site.directory.index = {} := by
    unfold watched step
    rw [directory]
    rfl
  have describes : (Replica.ofEvents []).Describes
      (session.watched bufferSize).site.directory.index := by
    rw [none]
    exact Replica.describes_empty
  have after := @describes_run _ _ _ actions [] sound memory permitted listens there rfl rfl rfl
    describes
  unfold Directory.branches
  simp only [mem_sortByKey]
  exact after.get?_eq_some_iff (sound_run sound permitted).site.consistent.valid

/--
A commit is completed, and what has been told so far is read. Then a promotion is opened, which
keeps another one from being opened.
-/
def readSoFar : List Action :=
  [.create "M", .create "M/A", .create "M", .openCommit "M/A" .content, .lock "M/A", .complete 0]

def listened : List Action :=
  readSoFar ++ .subscribers
    (((empty.watched 12).run readSoFar).site.directory.events.modify 1 fun s =>
      { s with buffer := s.buffer.drop 3 }) ::
  [.create "M/B", .openPromotion "M" "M/A", .openPromotion "M/B" "M", .complete 1,
    .openCommit "M/B" .content, .forceUnlock "M/B", .lock "M/A"]

theorem replica_of_listened :
    empty.New ∧ (empty.watched 12).Permits listened ∧ (empty.watched 12).Listens 1 listened ∧
      (((empty.watched 12).answers listened).map fun answer => answer.2.isOk) =
        [true, true, false, true, false, true, true, true, true, false, true, true, true, true] ∧
      (((empty.watched 12).run listened).buffered 1).length = 10 ∧
      ∃ row ∈ ((empty.watched 12).run listened).site.directory.branches,
        row.path = "M/A" ∧ row.view = { head := 6, locked := true } := by
  have m : Path.Valid "M" := by decide
  have a : Path.Valid "M/A" := by decide
  have b : Path.Valid "M/B" := by decide
  have permitted : (empty.watched 12).Permits listened :=
    ⟨m, a, m, a, a, trivial, trivial, b, ⟨m, a⟩, ⟨b, m⟩, trivial, b, b, a, trivial⟩
  have listens : (empty.watched 12).Listens 1 listened := by
    refine ⟨?_, trivial, ?_, trivial, ?_, trivial, ?_, trivial, ?_, trivial, ?_, trivial, ?_,
      ⟨3, ?_⟩, ?_, trivial, ?_, trivial, ?_, trivial, ?_, trivial, ?_, trivial, ?_, trivial, ?_,
      trivial, (?_ : HasRoom 1 _)⟩
    all_goals decide +kernel
  have replicates := @replica_of_run empty 12 listened new_empty rfl permitted listens
  exact ⟨new_empty, permitted, listens, by decide +kernel, by decide +kernel,
    (replicates "M/A" { head := 6, locked := true }).1 (by decide +kernel)⟩

end Session

end TemporalStore
