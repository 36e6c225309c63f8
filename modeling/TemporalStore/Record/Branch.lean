import TemporalStore.Record.Field
import TemporalStore.Timeline.Index

/-!
This module contains the stored form of branch rows and of their index.
-/

namespace TemporalStore.Record

open MessagePack (Value)

def rowFields : List String :=
  ["path", "base", "start", "head", "end", "locked", "contains_content", "versions_replaced"]

def rowValue (row : BranchRow) : Value :=
  .record <| rowFields.zip
    [.text row.path, .ofInt row.base, .ofInt row.start, .ofInt row.head,
      optionValue .ofInt row.ended, .bool row.locked, .bool row.containsContent,
      idsValue row.replaced]

def row? (v : Value) : Option BranchRow := do
  match ← fields? everyWidth rowFields v with
  | [path, base, start, head, ended, locked, containsContent, replaced] =>
    return {
      path := ← required text? path
      base := ← required int? base
      start := ← required int? start
      head := ← required int? head
      ended := ← optional int? ended
      locked := ← required bool? locked
      containsContent := ← required bool? containsContent
      replaced := ← required ids? replaced }
  | _ => none

def indexFields : List String := ["rows"]

def indexValue (index : RowIndex) : Value :=
  .record <| indexFields.zip [mapValue (fun rows => .array (rows.map rowValue)) index.rows]

/--
The rows of a path stay in the order in which they are stored.
-/
def index? (v : Value) : Option RowIndex := do
  match ← fields? everyWidth indexFields v with
  | [rows] => return ⟨← required (map? (list? row?)) rows⟩
  | _ => none

end TemporalStore.Record
