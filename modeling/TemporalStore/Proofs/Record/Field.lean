import TemporalStore.Clock
import TemporalStore.Proofs.MessagePack.RoundTrip
import TemporalStore.Proofs.Ordered
import TemporalStore.Record.Field

/-!
This module contains the proofs that the pieces of stored records are read back from the values
that are written for them.
-/

namespace TemporalStore

/--
A timepoint of 64 bits.
-/
def Timepoint.IsWord (t : Timepoint) : Prop := -0x8000000000000000 ≤ t ∧ t < 0x8000000000000000

instance Timepoint.decidableIsWord (t : Timepoint) : Decidable t.IsWord :=
  inferInstanceAs (Decidable (_ ∧ _))

namespace OrderedMap

variable {κ ν : Type} [Ord κ] [Std.TransOrd κ] [Std.LawfulEqOrd κ]

theorem get?_foldl_insert {es : List (κ × ν)} {m : OrderedMap κ ν} {k : κ}
    (h : es.Pairwise fun a b => compare a.1 b.1 = .lt) :
    (es.foldl (fun m e => m.insert e.1 e.2) m).get? k = (get?.go k es).or (m.get? k) := by
  induction es generalizing m with
  | nil => rfl
  | cons e es ih =>
    have hk : compare k e.1 = .eq ↔ k = e.1 := Std.LawfulEqCmp.compare_eq_iff_eq
    rw [List.foldl_cons, ih h.of_cons, get?_insert, get?.go]
    by_cases he : k = e.1
    · have absent : get?.go k es = none := by
        cases hg : get?.go k es with
        | none => rfl
        | some v =>
          have later := List.rel_of_pairwise_cons h ((go_eq_some_iff h.of_cons).1 hg)
          rw [he] at later
          exact absurd later (compare_self_ne_lt _)
      have found : compare k e.1 = .eq := hk.2 he
      simp [absent, found]
    · have other : ¬ compare k e.1 = .eq := fun h => he (hk.1 h)
      rw [if_neg other, if_neg other]

theorem ofList_entries (m : OrderedMap κ ν) : ofList m.entries = m := by
  apply ext
  intro k
  unfold ofList
  rw [get?_foldl_insert m.sorted]
  simp only [get?_empty, Option.or_none]
  rfl

end OrderedMap

theorem OrderedSet.ofList_toList {α : Type} [Ord α] [Std.TransOrd α] [Std.LawfulEqOrd α]
    (s : OrderedSet α) : OrderedSet.ofList s.toList = s := by
  apply OrderedSet.ext
  intro x
  rw [OrderedSet.mem_ofList, OrderedSet.mem_def]

namespace Record

open MessagePack (Value Plain Width)

theorem mapM_map {α β γ : Type} (write : α → β) (read : β → Option γ) (f : α → γ) (xs : List α)
    (h : ∀ x ∈ xs, read (write x) = some (f x)) :
    (xs.map write).mapM read = some (xs.map f) := by
  induction xs with
  | nil => rfl
  | cons x xs ih =>
    have first := h x List.mem_cons_self
    have rest := ih (fun y hy => h y (List.mem_cons_of_mem _ hy))
    rw [List.map_cons, List.mapM_cons, first, rest]
    rfl

/-! ## Values of one piece -/

theorem int?_ofInt {t : Timepoint} (word : t.IsWord) : int? (.ofInt t) = some t := by
  unfold Value.ofInt Value.ofNat
  by_cases low : 0 ≤ t
  · have whole : (t.toNat : Int) = t := Int.toNat_of_nonneg low
    have small : t.toNat < 0x8000000000000000 := by
      have := word.2
      lia
    simp only [low, if_true, int?, small, whole]
  · simp only [low, if_false, int?]

theorem optional_optionValue {α : Type} {write : α → Value} {read : Value → Option α}
    {a : Option α} (notNil : ∀ a, write a ≠ .nil) (h : ∀ x, a = some x → read (write x) = some x) :
    optional read (some (optionValue write a)) = some a := by
  cases a with
  | none => rfl
  | some x =>
    change option? read (write x) = _
    unfold option?
    split
    · rename_i hn
      exact absurd hn (notNil x)
    · rw [h x rfl]
      rfl

theorem ofInt_ne_nil (i : Int) : Value.ofInt i ≠ .nil := by
  unfold Value.ofInt Value.ofNat
  split <;> simp

theorem optional_optionText (s : Option String) :
    optional text? (some (optionValue .text s)) = some s := by
  apply optional_optionValue
  · intro a
    exact Value.noConfusion
  · intro x _
    rfl

theorem optional_optionTimepoint {t : Option Timepoint} (words : ∀ e, t = some e → e.IsWord) :
    optional int? (some (optionValue .ofInt t)) = some t := by
  apply optional_optionValue ofInt_ne_nil
  intro e he
  exact int?_ofInt (words e he)

theorem ids?_idsValue (ids : OrderedSet VersionId) : ids? (idsValue ids) = some ids := by
  have read : (ids.toList.map idValue).mapM id? = some (ids.toList.map fun id => id) := by
    apply mapM_map
    intro id _
    exact VersionId.ofBytes?_toBytes id
  unfold ids? idsValue list?
  rw [List.map_id'] at read
  simp only [read, Option.map_some, OrderedSet.ofList_toList]

theorem map?_mapValue {α : Type} {write : α → Value} {read : Value → Option α}
    {m : OrderedMap String α} (h : ∀ e ∈ m.entries, read (write e.2) = some e.2) :
    map? read (mapValue write m) = some m := by
  have entries : (m.entries.map fun e => (Value.text e.1, write e.2)).mapM (map?.entry read) =
      some (m.entries.map fun e => e) := by
    apply mapM_map
    intro e he
    unfold map?.entry
    rw [h e he]
    rfl
  rw [List.map_id'] at entries
  unfold map? mapValue Value.record
  rw [List.map_map]
  change Option.map _ ((m.entries.map fun e => (Value.text e.1, write e.2)).mapM _) = _
  rw [entries, Option.map_some, OrderedMap.ofList_entries]

/-! ## Fields -/

theorem idxOf?_append_cons {before after : List String} {name : String} (fresh : name ∉ before) :
    (before ++ name :: after).idxOf? name = some before.length := by
  induction before with
  | nil => simp [List.idxOf?_cons]
  | cons first before ih =>
    simp only [List.mem_cons, not_or] at fresh
    have other : first ≠ name := fun h => fresh.1 h.symm
    rw [List.cons_append, List.idxOf?_cons, ih fresh.2]
    simp [other]

theorem fromEntries_zip {counts : Width → Bool} {names before after : List String}
    {values found : List Value} (split : names = before ++ after) (distinct : names.Nodup)
    (width : found.length = before.length) (length : values.length = after.length) :
    fields?.fromEntries counts names
        ((after.zip values).map fun field => (Value.text field.1, field.2))
        (found.map some ++ after.map fun _ => none) =
      some ((found ++ values).map some) := by
  induction after generalizing before values found with
  | nil =>
    have none : values = [] := List.eq_nil_of_length_eq_zero length
    simp [none, fields?.fromEntries]
  | cons name after ih =>
    cases values with
    | nil => simp at length
    | cons v values =>
      have fresh : name ∉ before := by
        rw [split] at distinct
        intro hm
        exact (List.nodup_append.1 distinct).2.2 name hm name List.mem_cons_self rfl
      have place : names.idxOf? name = some found.length := by
        rw [split, width]
        exact idxOf?_append_cons fresh
      have unset : ((found.map some ++
          none :: after.map fun _ => (none : Option Value))[found.length]?.getD none).isNone := by
        simp
      have filled : (found.map some ++ none :: after.map fun _ => none).set found.length (some v) =
          (found ++ [v]).map some ++ after.map fun _ => none := by
        simp
      have rest := @ih (before ++ [name]) values (found ++ [v]) (by simp [split])
        (by simp [width]) (by simpa using length)
      rw [List.append_assoc, List.singleton_append] at rest
      simp only [List.zip_cons_cons, List.map_cons, fields?.fromEntries, nameIndex?, place,
        Option.bind_eq_bind, Option.bind_some, unset, guard, if_true, filled]
      exact rest

theorem fields?_record {counts : Width → Bool} {names : List String} {values : List Value}
    (distinct : names.Nodup) (length : values.length = names.length) :
    fields? counts names (.record (names.zip values)) = some (values.map some) := by
  have read := @fromEntries_zip counts names [] names values [] rfl distinct rfl length
  unfold fields? Value.record
  simp only [List.map_nil, List.nil_append] at read
  exact read

/-! ## Plain values -/

theorem plain_ofInt {depth : Nat} {t : Timepoint} (word : t.IsWord) : Plain depth (.ofInt t) := by
  have high : t < 0x10000000000000000 := Int.lt_trans word.2 (by decide)
  exact .int t word.1 high

theorem plain_ofNat {depth n : Nat} (h : n < 0x10000000000000000) : Plain depth (.ofNat n) :=
  .int n (by omega) (by omega)

theorem plain_optionValue {α : Type} {depth : Nat} {write : α → Value} {a : Option α}
    (plain : ∀ x, a = some x → Plain depth (write x)) : Plain depth (optionValue write a) := by
  cases a with
  | none => exact .nil
  | some x => exact plain x rfl

theorem plain_record {depth : Nat} {fields : List (String × Value)}
    (h : ∀ field ∈ fields, Plain depth field.2) : Plain (depth + 1) (.record fields) := by
  unfold Value.record
  apply Plain.map
  · intro e he
    obtain ⟨field, -, rfl⟩ := List.mem_map.1 he
    exact .text field.1
  · intro e he
    obtain ⟨field, hf, rfl⟩ := List.mem_map.1 he
    exact h field hf

theorem plain_zip {depth : Nat} {names : List String} {values : List Value}
    (h : ∀ v ∈ values, Plain depth v) : Plain (depth + 1) (.record (names.zip values)) := by
  apply plain_record
  intro field hf
  exact h field.2 (List.of_mem_zip hf).2

theorem plain_mapValue {depth : Nat} {α : Type} {write : α → Value} {m : OrderedMap String α}
    (h : ∀ e ∈ m.entries, Plain depth (write e.2)) : Plain (depth + 1) (mapValue write m) := by
  unfold mapValue
  apply plain_record
  intro field hf
  obtain ⟨e, he, rfl⟩ := List.mem_map.1 hf
  exact h e he

theorem plain_idsValue {depth : Nat} (ids : OrderedSet VersionId) :
    Plain (depth + 1) (idsValue ids) := by
  unfold idsValue
  apply Plain.array
  intro v hv
  obtain ⟨id, -, rfl⟩ := List.mem_map.1 hv
  exact .binary id.toBytes

end Record

end TemporalStore
