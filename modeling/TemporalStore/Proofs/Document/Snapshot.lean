import TemporalStore.Proofs.Document.Collection
import TemporalStore.Proofs.Host.Record

/-!
This module contains the collections of documents of one kind, however they were filled, and the
proof that such a collection is read back from its snapshot.
-/

namespace TemporalStore

/--
What can be stored of a document of some kind: timepoints of 64 bits, and no parts that the kind
does not have.
-/
structure Document.Fits (d : Document) (kind : DocumentKind) : Prop where
  words : d.InWords
  ofKind : kind.restrict d = d

instance Document.decidableFits (d : Document) (kind : DocumentKind) : Decidable (d.Fits kind) :=
  decidable_of_iff (d.InWords ∧ kind.restrict d = d)
    ⟨fun ⟨words, ofKind⟩ => ⟨words, ofKind⟩, fun h => ⟨h.words, h.ofKind⟩⟩

namespace Document

variable {d : Document} {kind : DocumentKind}

theorem Fits.withId (h : d.Fits kind) (id : Option VersionId) :
    Fits { d with id } kind where
  words := ⟨h.words.start, h.words.ended⟩
  ofKind := by
    have after : kind.restrict { d with id } = { kind.restrict d with id } := by cases kind <;> rfl
    rw [after, h.ofKind]

theorem Fits.close (h : d.Fits kind) {t : Timepoint} (word : t.IsWord) :
    Fits { d with ended := some t } kind where
  words := by
    refine ⟨h.words.start, ?_⟩
    intro e same
    rw [← Option.some.inj same]
    exact word
  ofKind := by
    have after : kind.restrict { d with ended := some t } =
        { kind.restrict d with ended := some t } := by cases kind <;> rfl
    rw [after, h.ofKind]

end Document

namespace Collection

/--
The collections that one can have: they start out empty, documents of their kind are saved to them,
and versions in them are ended.
-/
inductive OfKind (kind : DocumentKind) : Collection → Prop where
  | empty : OfKind kind {}
  | saveAll {c : Collection} (h : OfKind kind c) (docs : List Document) (ids : IdSupply)
    (fits : ∀ d ∈ docs, d.Fits kind) : OfKind kind (c.saveAll docs ids).2.1
  | endVersions {c : Collection} (h : OfKind kind c) (ids : List VersionId) (t : Timepoint)
    (word : t.IsWord) : OfKind kind (c.endVersions ids t)

variable {c : Collection} {kind : DocumentKind}

theorem OfKind.keyed (h : c.OfKind kind) : c.Keyed := by
  induction h with
  | empty => exact keyed_empty
  | saveAll _ docs ids _ ih => exact ih.saveAll docs ids
  | endVersions _ ids t _ ih => exact ih.endVersions ids t

theorem OfKind.fits (h : c.OfKind kind) {id : VersionId} {d : Document}
    (found : c.get? id = some d) : d.Fits kind := by
  induction h generalizing id d with
  | empty => simp [get?] at found
  | saveAll _ docs ids fits ih =>
    rcases eq_or_mem_of_get?_insertMany found with mem | ⟨found, -⟩
    · obtain ⟨-, d', mem', shape⟩ := mem_identify mem
      simp only at shape
      rw [shape]
      exact (fits d' mem').withId _
    · exact ih found
  | endVersions _ ids t word ih =>
    rw [get?_endVersions, Option.map_eq_some_iff] at found
    obtain ⟨d', found, rfl⟩ := found
    split
    · exact (ih found).close word
    · exact ih found

theorem identify_values {es : List (VersionId × Document)} (known : ∀ e ∈ es, e.2.id = some e.1)
    (ids : IdSupply) : identify (es.map (·.2)) ids = (es, ids) := by
  induction es with
  | nil => rfl
  | cons e es ih =>
    rw [List.forall_mem_cons] at known
    unfold identify
    rw [List.map_cons]
    simp only [known.1, ih known.2]

/--
Saving all documents of a collection to an empty one gives the same collection, and no identities
are drawn.
-/
theorem Keyed.saveAll_values (h : c.Keyed) (ids : IdSupply) :
    ∃ docs, Collection.saveAll {} c.documents.values ids = (docs, c, ids) := by
  have known : ∀ e ∈ c.documents.entries, e.2.id = some e.1 :=
    fun e mem => h e.1 e.2 (OrderedMap.get?_eq_some_iff.2 mem)
  have identified := identify_values known ids
  have whole := OrderedMap.ofList_entries c.documents
  unfold OrderedMap.ofList at whole
  unfold Collection.saveAll Collection.insertMany OrderedMap.values
  rw [identified]
  exact ⟨_, congrArg (fun m => (_, Collection.mk m, ids)) whole⟩

/-! ## Snapshots -/

open MessagePack (encode)

def snapshotBytes (kind : DocumentKind) (c : Collection) : List UInt8 :=
  Record.fileBytes fileFormat (Record.documentsValue kind c.documents.values)

def payloadLength (kind : DocumentKind) (c : Collection) : Nat :=
  (encode (Record.documentsValue kind c.documents.values)).length

theorem readSnapshot_of_read {name : String} {host : Host} (h : c.OfKind kind)
    (fits : c.payloadLength kind ≤ Frame.maxPayload)
    (there : host.disk.read name = .ok (c.snapshotBytes kind)) :
    readSnapshot kind name host = .ok c host := by
  have values : ∀ d ∈ c.documents.values, d.Fits kind := by
    intro d mem
    obtain ⟨id, found⟩ := OrderedMap.mem_values_iff.1 mem
    exact h.fits found
  have words : ∀ d ∈ c.documents.values, d.InWords := fun d mem => (values d mem).words
  have same : c.documents.values.map kind.restrict = c.documents.values := by
    rw [List.map_congr_left (g := id) fun d mem => (values d mem).ofKind, List.map_id]
  have back := @Record.documents?_documentsValue kind c.documents.values words
  rw [same] at back
  have magic : fileFormat.magic.length = 4 := rfl
  have record := Record.ofFileBytes_append name magic fits
    (@Record.plain_documentsValue kind c.documents.values 1020 words) back []
  rw [List.append_nil] at record
  have read : Host.readRecord fileFormat (Record.documents? kind) name host =
      .ok c.documents.values host := by
    rw [Host.readRecord_of_read there]
    unfold snapshotBytes
    rw [record]
  obtain ⟨docs, saved⟩ := h.keyed.saveAll_values host.ids
  unfold readSnapshot
  rw [bind_ok read, get_bind]
  simp only [saved]
  rfl

end Collection

end TemporalStore
