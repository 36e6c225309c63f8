import TemporalStore.Document.Basic
import TemporalStore.Record.Field

/-!
This module contains the stored form of documents, which differs between the kinds.
-/

namespace TemporalStore.Record

open MessagePack (Value)

def metaFields : List String := ["internal_id", "path", "start", "end"]

def metaValue (d : Document) : Value :=
  .record <| metaFields.zip
    [optionValue idValue d.id, .text d.path, .ofInt d.start, optionValue .ofInt d.ended]

def meta? (v : Value) : Option Document := do
  match ← fields? everyWidth metaFields v with
  | [id, path, start, ended] =>
    return {
      id := ← optional id? id
      path := ← required text? path
      start := ← required int? start
      ended := ← optional int? ended }
  | _ => none

def plainFields : List String := ["meta", "id", "term"]

def plainValue (d : Document) : Value :=
  .record <| plainFields.zip [metaValue d, optionValue .text d.businessId, .text d.term]

def plain? (v : Value) : Option Document := do
  match ← fields? everyWidth plainFields v with
  | [version, businessId, term] =>
    return { ← required meta? version with
      businessId := ← optional text? businessId
      term := ← required text? term }
  | _ => none

def keyedFields : List String := plainFields ++ ["fields", "deleted"]

def keyedValue (d : Document) : Value :=
  .record <| keyedFields.zip
    [metaValue d, optionValue .text d.businessId, .text d.term, mapValue .text d.fields,
      .bool d.deleted]

def keyed? (v : Value) : Option Document := do
  match ← fields? everyWidth keyedFields v with
  | [version, businessId, term, fields, deleted] =>
    return { ← required meta? version with
      businessId := ← optional text? businessId
      term := ← required text? term
      fields := ← required (map? text?) fields
      deleted := ← required bool? deleted }
  | _ => none

def documentValue : DocumentKind → Document → Value
  | .plain => plainValue
  | .keyed => keyedValue

def document? : DocumentKind → Value → Option Document
  | .plain => plain?
  | .keyed => keyed?

def documentsValue (kind : DocumentKind) (docs : List Document) : Value :=
  .array (docs.map (documentValue kind))

def documents? (kind : DocumentKind) (v : Value) : Option (List Document) :=
  list? (document? kind) v

end TemporalStore.Record
