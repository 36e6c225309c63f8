import TemporalStore.Proofs.Record.Field
import TemporalStore.Record.Document

/-!
This module contains the proof that documents are read back from the values that are written for
them.
-/

namespace TemporalStore

/--
The timepoints of a document have 64 bits.
-/
structure Document.InWords (d : Document) : Prop where
  start : d.start.IsWord
  ended : ∀ e, d.ended = some e → e.IsWord

instance Document.decidableInWords (d : Document) : Decidable d.InWords :=
  decidable_of_iff (d.start.IsWord ∧ ∀ e ∈ d.ended, e.IsWord)
    ⟨fun ⟨start, ended⟩ => ⟨start, ended⟩, fun h => ⟨h.start, h.ended⟩⟩

namespace Record

open MessagePack (Value Plain)

variable {d : Document} {kind : DocumentKind} {docs : List Document}

theorem optional_optionId (id : Option VersionId) :
    optional id? (some (optionValue idValue id)) = some id := by
  apply optional_optionValue
  · intro id
    exact Value.noConfusion
  · intro id _
    exact VersionId.ofBytes?_toBytes id

theorem map?_mapText (fields : OrderedMap String String) :
    map? text? (mapValue .text fields) = some fields := by
  apply map?_mapValue
  intro e _
  rfl

theorem meta?_metaValue (h : d.InWords) :
    meta? (metaValue d) =
      some { id := d.id, path := d.path, start := d.start, ended := d.ended } := by
  unfold meta? metaValue
  rw [fields?_record (by decide) rfl]
  simp only [List.map_cons, List.map_nil, Option.bind_eq_bind, Option.bind_some, required,
    optional_optionId, int?_ofInt h.start, optional_optionTimepoint h.ended]
  rfl

theorem plain?_plainValue (h : d.InWords) :
    plain? (plainValue d) = some (DocumentKind.plain.restrict d) := by
  unfold plain? plainValue
  rw [fields?_record (by decide) rfl]
  simp only [List.map_cons, List.map_nil, Option.bind_eq_bind, Option.bind_some, required,
    meta?_metaValue h, optional_optionText]
  rfl

theorem keyed?_keyedValue (h : d.InWords) : keyed? (keyedValue d) = some d := by
  unfold keyed? keyedValue
  rw [fields?_record (by decide) rfl]
  simp only [List.map_cons, List.map_nil, Option.bind_eq_bind, Option.bind_some, required,
    meta?_metaValue h, optional_optionText, map?_mapText]
  rfl

theorem document?_documentValue (h : d.InWords) :
    document? kind (documentValue kind d) = some (kind.restrict d) := by
  cases kind with
  | plain => exact plain?_plainValue h
  | keyed => exact keyed?_keyedValue h

/--
Documents come back in the same order, without the parts that their kind does not have.
-/
theorem documents?_documentsValue (h : ∀ d ∈ docs, d.InWords) :
    documents? kind (documentsValue kind docs) = some (docs.map kind.restrict) := by
  apply mapM_map
  intro d hd
  exact document?_documentValue (h d hd)

theorem plain_metaValue {depth : Nat} (h : d.InWords) : Plain (depth + 1) (metaValue d) := by
  apply plain_zip
  simp only [List.forall_mem_cons, List.not_mem_nil, false_implies, implies_true, and_true]
  refine ⟨?_, .text d.path, plain_ofInt h.start, ?_⟩
  · exact plain_optionValue fun id _ => .binary id.toBytes
  · exact plain_optionValue fun e he => plain_ofInt (h.ended e he)

theorem plain_documentValue {depth : Nat} (h : d.InWords) :
    Plain (depth + 2) (documentValue kind d) := by
  have version : Plain (depth + 1) (metaValue d) := plain_metaValue h
  have businessId : Plain (depth + 1) (optionValue .text d.businessId) :=
    plain_optionValue fun s _ => .text s
  have fields : Plain (depth + 1) (mapValue .text d.fields) := plain_mapValue fun e _ => .text e.2
  cases kind with
  | plain =>
    apply plain_zip
    simp only [List.forall_mem_cons, List.not_mem_nil, false_implies, implies_true, and_true]
    exact ⟨version, businessId, .text d.term⟩
  | keyed =>
    apply plain_zip
    simp only [List.forall_mem_cons, List.not_mem_nil, false_implies, implies_true, and_true]
    exact ⟨version, businessId, .text d.term, fields, .bool d.deleted⟩

theorem plain_documentsValue {depth : Nat} (h : ∀ d ∈ docs, d.InWords) :
    Plain (depth + 3) (documentsValue kind docs) := by
  unfold documentsValue
  apply Plain.array
  intro v hv
  obtain ⟨d, hd, rfl⟩ := List.mem_map.1 hv
  exact plain_documentValue (h d hd)

end Record

end TemporalStore
