import TemporalStore.Event.Basic
import TemporalStore.Record.Field

/-!
This module contains the stored form of events: a record whose first field names the kind of the
event.
-/

namespace TemporalStore.Record

open MessagePack (Value)

def commitKinds : List CommitKind := [.content, .rebase, .promotion]

def commitKindName : CommitKind → String
  | .content => "Content"
  | .rebase => "Rebase"
  | .promotion => "Promotion"

def dropReasons : List DropReason := [.bufferOverflow, .unsubscribed]

def dropReasonName : DropReason → String
  | .bufferOverflow => "buffer_overflow"
  | .unsubscribed => "unsubscribed"

/--
The kinds of events by name, each with the names of its fields.
-/
def eventKinds : List (String × List String) :=
  [("branch_created", ["path", "base", "head"]),
    ("branch_locked", ["path"]),
    ("branch_unlocked", ["path", "forced"]),
    ("commit_completed", ["path", "timepoint", "commit_type", "source"]),
    ("branches_purged", ["rows"]),
    ("dropped", ["reason"])]

def kindField : String := "type"

/--
The place of an event's kind among the kinds, and the values of its fields.
-/
def eventParts : Event → Nat × List Value
  | .created path base head => (0, [.text path, .ofInt base, .ofInt head])
  | .locked path => (1, [.text path])
  | .unlocked path forced => (2, [.text path, .bool forced])
  | .completed path timepoint kind source =>
    (3, [.text path, .ofInt timepoint, .text (commitKindName kind), optionValue .text source])
  | .purged rows => (4, [.ofNat rows])
  | .dropped reason => (5, [.text (dropReasonName reason)])

def eventValue (event : Event) : Value :=
  let (i, values) := eventParts event
  let (name, names) := eventKinds[i]?.getD ("", [])
  .record ((kindField, .text name) :: names.zip values)

/--
One of several things that are told apart by name alone: the name, or a map from the name to
nothing.
-/
def choice? {α : Type} (choices : List α) (name : α → String) : Value → Option α
  | .text s => choices.find? (name · = s)
  | .map [(k, .nil)] => byKey k
  | .map [(k, .map [])] => byKey k
  | _ => none
where
  byKey (k : Value) : Option α := do
    choices[← (← nameIndex? keptWidth (choices.map name) k)]?

/--
Whether a key is the name of the field with the kind.
-/
def isKindKey : Value → Bool
  | .text s => s = kindField
  | .binary bytes => bytesAsText? bytes = some kindField
  | _ => false

/--
Takes the kind out of a record: the entry with its name, of which there must be one, or the
first item of an array.
-/
def splitKind? : Value → Option (Value × Value)
  | .map entries =>
    match entries.filter (isKindKey ·.1) with
    | [(_, kind)] => some (kind, .map (entries.filter (!isKindKey ·.1)))
    | _ => none
  | .array (kind :: items) => some (kind, .array items)
  | _ => none

/--
The event of a kind, from the values of its fields.
-/
def eventOf? : Nat → List (Option Value) → Option Event
  | 0, [path, base, head] =>
    return .created (← required text? path) (← required int? base) (← required int? head)
  | 1, [path] => return .locked (← required text? path)
  | 2, [path, forced] => return .unlocked (← required text? path) (← required bool? forced)
  | 3, [path, timepoint, commitKind, source] =>
    return .completed (← required text? path) (← required int? timepoint)
      (← required (choice? commitKinds commitKindName) commitKind) (← optional text? source)
  | 4, [rows] => return .purged (← required nat? rows)
  | 5, [reason] => return .dropped (← required (choice? dropReasons dropReasonName) reason)
  | _, _ => none

def event? (v : Value) : Option Event := do
  let (kind, content) ← splitKind? v
  let i ← (← nameIndex? everyWidth (eventKinds.map (·.1)) kind)
  let (_, names) ← eventKinds[i]?
  eventOf? i (← fields? keptWidth names content)

end TemporalStore.Record
