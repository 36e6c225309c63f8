import TemporalStore.Proofs.Record.Field
import TemporalStore.Record.Event

/-!
This module contains the proof that events are read back from the values that are written for them.
-/

namespace TemporalStore

/--
The numbers of an event have 64 bits: timepoints with sign, counts without.
-/
def Event.InWords : Event → Prop
  | created _ base head => base.IsWord ∧ head.IsWord
  | completed _ timepoint _ _ => timepoint.IsWord
  | purged rows => rows < 0x10000000000000000
  | locked _ | unlocked _ _ | dropped _ => True

namespace Record

open MessagePack (Value Plain)

/-! ## Kinds -/

theorem choice?_commitKindName (kind : CommitKind) :
    choice? commitKinds commitKindName (.text (commitKindName kind)) = some kind := by
  cases kind <;> rfl

theorem choice?_dropReasonName (reason : DropReason) :
    choice? dropReasons dropReasonName (.text (dropReasonName reason)) = some reason := by
  cases reason <;> rfl

theorem idxOf?_eventKinds {i : Nat} {name : String} {names : List String}
    (kind : eventKinds[i]? = some (name, names)) :
    (eventKinds.map (·.1)).idxOf? name = some i := by
  have all : ∀ i (h : i < eventKinds.length),
      (eventKinds.map (·.1)).idxOf? eventKinds[i].1 = some i := by decide
  obtain ⟨h, there⟩ := List.getElem?_eq_some_iff.1 kind
  have found := all i h
  rwa [there] at found

theorem fields_of_eventKinds {i : Nat} {name : String} {names : List String}
    (kind : eventKinds[i]? = some (name, names)) : names.Nodup ∧ kindField ∉ names := by
  have all : ∀ kind ∈ eventKinds, kind.2.Nodup ∧ kindField ∉ kind.2 := by decide
  exact all (name, names) (List.mem_of_getElem? kind)

/--
Every event is of one of the kinds and has the fields of that kind.
-/
theorem exists_eventKind (event : Event) :
    ∃ name names, eventKinds[(eventParts event).1]? = some (name, names) ∧
      (eventParts event).2.length = names.length := by
  cases event <;> exact ⟨_, _, rfl, rfl⟩

theorem eventValue_eq {event : Event} {name : String} {names : List String}
    (kind : eventKinds[(eventParts event).1]? = some (name, names)) :
    eventValue event =
      .record ((kindField, .text name) :: names.zip (eventParts event).2) := by
  unfold eventValue
  simp only [kind, Option.getD_some]

/-! ## Reading -/

theorem splitKind?_record {name : String} {names : List String} {values : List Value}
    (other : kindField ∉ names) :
    splitKind? (.record ((kindField, .text name) :: names.zip values)) =
      some (.text name, .record (names.zip values)) := by
  have kind : isKindKey (.text kindField) = true := rfl
  have rest : ∀ e ∈ (names.zip values).map fun field => (Value.text field.1, field.2),
      isKindKey e.1 = false := by
    intro e he
    obtain ⟨field, hf, rfl⟩ := List.mem_map.1 he
    apply decide_eq_false
    intro same
    rw [← same] at other
    exact other (List.of_mem_zip hf).1
  have taken : (((names.zip values).map fun field => (Value.text field.1, field.2)).filter
      fun e => isKindKey e.1) = [] := by
    apply List.filter_eq_nil_iff.2
    intro e he
    simp [rest e he]
  have left : (((names.zip values).map fun field => (Value.text field.1, field.2)).filter
      fun e => !isKindKey e.1) =
      (names.zip values).map fun field => (Value.text field.1, field.2) := by
    apply List.filter_eq_self.2
    intro e he
    simp [rest e he]
  unfold splitKind? Value.record
  simp only [List.map_cons, List.filter_cons, kind, if_true, Bool.not_true, taken, left]
  rfl

theorem event?_record {i : Nat} {name : String} {names : List String} {values : List Value}
    (kind : eventKinds[i]? = some (name, names)) (length : values.length = names.length) :
    event? (.record ((kindField, .text name) :: names.zip values)) =
      eventOf? i (values.map some) := by
  obtain ⟨distinct, other⟩ := fields_of_eventKinds kind
  unfold event?
  simp only [splitKind?_record other, nameIndex?, idxOf?_eventKinds kind, kind,
    fields?_record distinct length, Option.bind_eq_bind, Option.bind_some]

theorem eventOf?_eventParts {event : Event} (h : event.InWords) :
    eventOf? (eventParts event).1 ((eventParts event).2.map some) = some event := by
  unfold eventParts eventOf?
  cases event with
  | created path base head =>
    simp [required, text?, int?_ofInt h.1, int?_ofInt h.2]
  | locked path => rfl
  | unlocked path forced => rfl
  | completed path timepoint kind source =>
    have time : int? (.ofInt timepoint) = some timepoint := int?_ofInt h
    simp [required, text?, time, choice?_commitKindName, optional_optionText]
  | purged rows => rfl
  | dropped reason =>
    simp [required, choice?_dropReasonName]

theorem event?_eventValue {event : Event} (h : event.InWords) :
    event? (eventValue event) = some event := by
  obtain ⟨name, names, kind, length⟩ := exists_eventKind event
  rw [eventValue_eq kind, event?_record kind length]
  exact eventOf?_eventParts h

/-! ## Plain values -/

theorem plain_eventParts {depth : Nat} {event : Event} (h : event.InWords) :
    ∀ v ∈ (eventParts event).2, Plain depth v := by
  unfold eventParts
  cases event with
  | created path base head =>
    simp only [List.forall_mem_cons, List.not_mem_nil, false_implies, implies_true, and_true]
    exact ⟨.text path, plain_ofInt h.1, plain_ofInt h.2⟩
  | locked path =>
    rw [List.forall_mem_singleton]
    exact .text path
  | unlocked path forced =>
    simp only [List.forall_mem_cons, List.not_mem_nil, false_implies, implies_true, and_true]
    exact ⟨.text path, .bool forced⟩
  | completed path timepoint kind source =>
    simp only [List.forall_mem_cons, List.not_mem_nil, false_implies, implies_true, and_true]
    exact ⟨.text path, plain_ofInt h, .text _, plain_optionValue fun s _ => .text s⟩
  | purged rows =>
    rw [List.forall_mem_singleton]
    exact plain_ofNat h
  | dropped reason =>
    rw [List.forall_mem_singleton]
    exact .text _

theorem plain_eventValue {depth : Nat} {event : Event} (h : event.InWords) :
    Plain (depth + 1) (eventValue event) := by
  obtain ⟨name, names, kind, -⟩ := exists_eventKind event
  rw [eventValue_eq kind]
  apply plain_record
  intro field hf
  rcases List.mem_cons.1 hf with rfl | hf
  · exact .text name
  · exact plain_eventParts h field.2 (List.of_mem_zip hf).2

end Record

end TemporalStore
