import TemporalStore.Proofs.Record.Field
import TemporalStore.Proofs.Record.File
import TemporalStore.Record.Branch

/-!
This module contains the proof that an index of rows is read back from its file.
-/

namespace TemporalStore

/--
The timepoints of a row have 64 bits.
-/
structure BranchRow.InWords (row : BranchRow) : Prop where
  base : row.base.IsWord
  start : row.start.IsWord
  head : row.head.IsWord
  ended : ∀ e, row.ended = some e → e.IsWord

instance BranchRow.decidableInWords (row : BranchRow) : Decidable row.InWords :=
  decidable_of_iff (row.base.IsWord ∧ row.start.IsWord ∧ row.head.IsWord ∧
      ∀ e ∈ row.ended, e.IsWord)
    ⟨fun ⟨base, start, head, ended⟩ => ⟨base, start, head, ended⟩,
      fun h => ⟨h.base, h.start, h.head, h.ended⟩⟩

/--
The timepoints of a row are machine words, and none is before the epoch.
-/
structure BranchRow.Storable (row : BranchRow) : Prop where
  base : 0 ≤ row.base ∧ row.base < 0x8000000000000000
  start : 0 ≤ row.start ∧ row.start < 0x8000000000000000
  head : 0 ≤ row.head ∧ row.head < 0x8000000000000000
  ended : ∀ e, row.ended = some e → 0 ≤ e ∧ e < 0x8000000000000000

theorem BranchRow.Storable.inWords {row : BranchRow} (h : row.Storable) : row.InWords := by
  have word {t : Timepoint} (bounds : 0 ≤ t ∧ t < 0x8000000000000000) : t.IsWord :=
    ⟨Int.le_trans (by decide) bounds.1, bounds.2⟩
  exact ⟨word h.base, word h.start, word h.head, fun e he => word (h.ended e he)⟩

/--
The timepoints of all rows have 64 bits.
-/
def RowIndex.InWords (index : RowIndex) : Prop :=
  ∀ e ∈ index.rows.entries, ∀ row ∈ e.2, row.InWords

instance RowIndex.decidableInWords (index : RowIndex) : Decidable index.InWords :=
  inferInstanceAs (Decidable (∀ e ∈ index.rows.entries, ∀ row ∈ e.2, row.InWords))

namespace Record

open MessagePack (Value Plain encode)

theorem row?_rowValue {row : BranchRow} (h : row.InWords) : row? (rowValue row) = some row := by
  unfold row? rowValue
  rw [fields?_record (by decide) rfl]
  simp only [List.map_cons, List.map_nil, Option.bind_eq_bind, Option.bind_some, required,
    optional_optionTimepoint h.ended, int?_ofInt h.base, int?_ofInt h.start, int?_ofInt h.head,
    ids?_idsValue]
  rfl

theorem plain_rowValue {depth : Nat} {row : BranchRow} (h : row.InWords) :
    Plain (depth + 2) (rowValue row) := by
  apply plain_zip
  simp only [List.forall_mem_cons, List.not_mem_nil, false_implies, implies_true, and_true]
  refine ⟨.text row.path, plain_ofInt h.base, plain_ofInt h.start, plain_ofInt h.head, ?_,
    .bool row.locked, .bool row.containsContent, plain_idsValue row.replaced⟩
  exact plain_optionValue fun e he => plain_ofInt (h.ended e he)

section

variable {index : RowIndex}

theorem index?_indexValue (h : index.InWords) :
    index? (indexValue index) = some index := by
  have rows : map? (list? row?) (mapValue (fun rows => .array (rows.map rowValue)) index.rows) =
      some index.rows := by
    apply map?_mapValue
    intro e he
    have read := mapM_map rowValue row? (fun row => row) e.2
      (fun row hrow => row?_rowValue (h e he row hrow))
    rw [List.map_id'] at read
    exact read
  unfold index? indexValue
  rw [fields?_record (by decide) rfl]
  simp only [List.map_cons, List.map_nil, Option.bind_eq_bind, Option.bind_some, required, rows,
    Option.pure_def]

theorem plain_indexValue {depth : Nat} (h : index.InWords) :
    Plain (depth + 5) (indexValue index) := by
  apply plain_zip
  rw [List.forall_mem_singleton]
  apply plain_mapValue
  intro e he
  apply Plain.array
  intro v hv
  obtain ⟨row, hrow, rfl⟩ := List.mem_map.1 hv
  apply plain_rowValue
  exact h e he row hrow

theorem ofFileBytes_fileBytes_of_le (format : FileFormat) (name : String)
    (magic : format.magic.length = 4)
    (fits : (encode (indexValue index)).length ≤ Frame.maxPayload) (h : index.InWords) :
    ofFileBytes format index? name (fileBytes format (indexValue index)) = .ok index := by
  have plain : Plain MessagePack.maxDepth (indexValue index) := @plain_indexValue index 1018 h
  have read := ofFileBytes_append name magic fits plain (index?_indexValue h) []
  rwa [List.append_nil] at read

/--
What is read from the file of an index: the index, unless it is longer than a frame may be.
-/
theorem ofFileBytes_fileBytes (format : FileFormat) (name : String)
    (magic : format.magic.length = 4)
    (size : (encode (indexValue index)).length < 0x10000000000000000) (h : index.InWords) :
    ofFileBytes format index? name (fileBytes format (indexValue index)) = .ok index ∨
      ∃ reason, ofFileBytes format index? name (fileBytes format (indexValue index)) =
        .error (.corruption reason) := by
  by_cases fits : (encode (indexValue index)).length ≤ Frame.maxPayload
  · left
    exact ofFileBytes_fileBytes_of_le format name magic fits h
  · right
    exact ⟨_, ofFileBytes_of_lt index? name magic (by omega) size⟩

end

end Record

end TemporalStore
