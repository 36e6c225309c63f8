import TemporalStore.MessagePack.Decode

/-!
This module contains the proof that values of which records are made are read back from their
encoding.
-/

namespace TemporalStore.MessagePack

open Bytes (bigEndian capacity)

/--
The values of which records are made, with at most `depth` arrays and maps inside one another.
Integers have 64 bits, with or without sign.
-/
inductive Plain : Nat → Value → Prop where
  | nil {depth : Nat} : Plain depth .nil
  | bool {depth : Nat} (b : Bool) : Plain depth (.bool b)
  | int {depth : Nat} (i : Int) (low : -0x8000000000000000 ≤ i) (high : i < 0x10000000000000000) :
    Plain depth (.ofInt i)
  | text {depth : Nat} (s : String) : Plain depth (.text s)
  | binary {depth : Nat} (bytes : List UInt8) : Plain depth (.binary bytes)
  | array {depth : Nat} (items : List Value) (plain : ∀ v ∈ items, Plain depth v) :
    Plain (depth + 1) (.array items)
  | map {depth : Nat} (entries : List (Value × Value)) (keys : ∀ e ∈ entries, Plain depth e.1)
    (values : ∀ e ∈ entries, Plain depth e.2) : Plain (depth + 1) (.map entries)

/-! ## Leading bytes -/

theorem takeNat_bigEndian {width n : Nat} (rest : List UInt8) (h : n < capacity width) :
    takeNat width (bigEndian width n ++ rest) = some (n, rest) := by
  unfold takeNat
  have split : Bytes.splitAt? width (bigEndian width n ++ rest) =
      some (bigEndian width n, rest) := by
    rw [Bytes.splitAt?_eq_some_iff]
    exact ⟨rfl, Bytes.length_bigEndian⟩
  rw [split]
  simp [Bytes.ofBigEndian_bigEndian, Nat.mod_eq_of_lt h]

theorem takeHead_bigEndian {width n : Nat} (f : Nat → Head) (rest : List UInt8)
    (h : n < capacity width) : takeHead width f (bigEndian width n ++ rest) = some (f n, rest) := by
  unfold takeHead
  rw [takeNat_bigEndian rest h]
  rfl

theorem takeSigned_bigEndian {width n : Nat} (rest : List UInt8) (h : n < capacity width) :
    takeSigned width (bigEndian width n ++ rest) =
      some (.whole (.signed (Int.bmod n (capacity width))), rest) := by
  unfold takeSigned
  rw [takeNat_bigEndian rest h]
  rfl

theorem toNat_add_ofNat {b : UInt8} {n : Nat} (h : b.toNat + n < 256) :
    (b + UInt8.ofNat n).toNat = b.toNat + n := by
  rw [UInt8.toNat_add, UInt8.toNat_ofNat']
  omega

theorem read_textHead {n : Nat} (rest : List UInt8) (h : n < 0x100000000) :
    Head.read (lengthHead 0xa0 32 (some 0xd9) 0xda 0xdb n ++ rest) = some (.text n, rest) := by
  unfold lengthHead lengthHead.wide
  split
  · rename_i short
    have value : ((0xa0 : UInt8) + UInt8.ofNat n).toNat = 0xa0 + n := by
      apply toNat_add_ofNat
      change 160 + n < 256
      omega
    rw [List.singleton_append, Head.read]
    simp only [value]
    rw [if_neg (by omega), if_neg (by omega), if_neg (by omega), if_pos (by omega),
      Nat.add_sub_cancel_left]
  · simp only
    split
    · exact takeHead_bigEndian .text rest (by assumption)
    · split
      · exact takeHead_bigEndian .text rest (by assumption)
      · exact takeHead_bigEndian .text rest (by assumption)

theorem read_binaryHead {n : Nat} (rest : List UInt8) (h : n < 0x100000000) :
    Head.read (lengthHead 0 0 (some 0xc4) 0xc5 0xc6 n ++ rest) = some (.binary n, rest) := by
  unfold lengthHead lengthHead.wide
  rw [if_neg (by omega)]
  simp only
  split
  · exact takeHead_bigEndian .binary rest (by assumption)
  · split
    · exact takeHead_bigEndian .binary rest (by assumption)
    · exact takeHead_bigEndian .binary rest (by assumption)

theorem read_arrayHead {n : Nat} (rest : List UInt8) (h : n < 0x100000000) :
    Head.read (lengthHead 0x90 16 none 0xdc 0xdd n ++ rest) = some (.array n, rest) := by
  unfold lengthHead lengthHead.wide
  split
  · rename_i short
    have value : ((0x90 : UInt8) + UInt8.ofNat n).toNat = 0x90 + n := by
      apply toNat_add_ofNat
      change 144 + n < 256
      omega
    rw [List.singleton_append, Head.read]
    simp only [value]
    rw [if_neg (by omega), if_neg (by omega), if_pos (by omega), Nat.add_sub_cancel_left]
  · simp only
    split
    · exact takeHead_bigEndian .array rest (by assumption)
    · exact takeHead_bigEndian .array rest (by assumption)

theorem read_mapHead {n : Nat} (rest : List UInt8) (h : n < 0x100000000) :
    Head.read (lengthHead 0x80 16 none 0xde 0xdf n ++ rest) = some (.map n, rest) := by
  unfold lengthHead lengthHead.wide
  split
  · rename_i short
    have value : ((0x80 : UInt8) + UInt8.ofNat n).toNat = 0x80 + n := by
      apply toNat_add_ofNat
      change 128 + n < 256
      omega
    rw [List.singleton_append, Head.read]
    simp only [value]
    rw [if_neg (by omega), if_pos (by omega), Nat.add_sub_cancel_left]
  · simp only
    split
    · exact takeHead_bigEndian .map rest (by assumption)
    · exact takeHead_bigEndian .map rest (by assumption)

theorem read_unsigned {n : Nat} (rest : List UInt8) (h : n < 0x10000000000000000) :
    Head.read (unsignedBytes n (.least n) ++ rest) = some (.whole (.ofNat n), rest) := by
  unfold Value.ofNat Width.least
  split
  · rename_i short
    have value : (UInt8.ofNat n).toNat = n := by
      rw [UInt8.toNat_ofNat']
      omega
    rw [unsignedBytes, List.singleton_append, Head.read]
    simp only [value]
    rw [if_pos (by omega)]
  · split
    · exact takeHead_bigEndian (fun n => .whole (.unsigned n .one)) rest (by assumption)
    · split
      · exact takeHead_bigEndian (fun n => .whole (.unsigned n .two)) rest (by assumption)
      · split
        · exact takeHead_bigEndian (fun n => .whole (.unsigned n .four)) rest (by assumption)
        · exact takeHead_bigEndian (fun n => .whole (.unsigned n .eight)) rest (by assumption)

theorem bmod_of_neg {i : Int} {m : Nat} (low : -m ≤ 2 * i) (high : i < 0) :
    Int.bmod (i + m).toNat m = i := by
  have whole : (((i + m).toNat : Nat) : Int) = i + m := Int.toNat_of_nonneg (by omega)
  rw [whole, Int.add_bmod_right]
  apply Int.bmod_eq_of_le
  · omega
  · omega

theorem read_signed {i : Int} (rest : List UInt8) (low : -0x8000000000000000 ≤ i) (high : i < 0) :
    Head.read (signedBytes i ++ rest) = some (.whole (.signed i), rest) := by
  have tag (t : UInt8) (width : Nat) (lowest : -(capacity width : Int) ≤ 2 * i) :
      takeSigned width (bigEndian width (i + (capacity width : Int)).toNat ++ rest) =
        some (.whole (.signed i), rest) := by
    rw [takeSigned_bigEndian rest (by omega), bmod_of_neg lowest high]
  unfold signedBytes
  split
  · rename_i short
    have value : (UInt8.ofNat (i + 256).toNat).toNat = (i + 256).toNat := by
      rw [UInt8.toNat_ofNat']
      omega
    have whole : (((i + 256).toNat : Nat) : Int) - 256 = i := by omega
    rw [List.singleton_append, Head.read]
    simp only [value]
    rw [if_neg (by omega), if_neg (by omega), if_neg (by omega), if_neg (by omega),
      if_pos (by omega), whole]
  · split
    · exact tag 0xd0 1 (by simp only [capacity]; omega)
    · split
      · exact tag 0xd1 2 (by simp only [capacity]; omega)
      · split
        · exact tag 0xd2 4 (by simp only [capacity]; omega)
        · exact tag 0xd3 8 (by simp only [capacity]; omega)

theorem read_int {i : Int} (rest : List UInt8) (low : -0x8000000000000000 ≤ i)
    (high : i < 0x10000000000000000) :
    Head.read (encode (.ofInt i) ++ rest) = some (.whole (.ofInt i), rest) := by
  unfold Value.ofInt
  split
  · have below : i.toNat < 0x10000000000000000 := by omega
    exact read_unsigned rest below
  · exact read_signed rest low (by omega)

/-! ## Lengths -/

theorem length_lengthHead_pos (fixTag : UInt8) (limit : Nat) (byteTag : Option UInt8)
    (wordTag longTag : UInt8) (n : Nat) :
    0 < (lengthHead fixTag limit byteTag wordTag longTag n).length := by
  unfold lengthHead lengthHead.wide tagged
  split
  · simp
  · split
    · split
      · simp
      · split <;> simp
    · split <;> simp

theorem Plain.length_encode_pos {depth : Nat} {v : Value} (h : Plain depth v) :
    0 < (encode v).length := by
  cases h with
  | nil => simp [encode]
  | bool b => cases b <;> simp [encode]
  | int i =>
    unfold Value.ofInt
    split
    · unfold Value.ofNat encode unsignedBytes
      split <;> simp [tagged]
    · unfold encode signedBytes tagged
      split
      · simp
      · repeat (split; simp)
        simp
  | text s =>
    have := length_lengthHead_pos 0xa0 32 (some 0xd9) 0xda 0xdb (textBytes s).length
    simp only [encode, List.length_append]
    omega
  | binary bytes =>
    have := length_lengthHead_pos 0 0 (some 0xc4) 0xc5 0xc6 bytes.length
    simp only [encode, List.length_append]
    omega
  | array items =>
    have := length_lengthHead_pos 0x90 16 none 0xdc 0xdd items.length
    simp only [encode, List.length_append]
    omega
  | map entries =>
    have := length_lengthHead_pos 0x80 16 none 0xde 0xdf entries.length
    simp only [encode, List.length_append]
    omega

theorem length_encode_le_encodeItems {v : Value} {items : List Value} (h : v ∈ items) :
    (encode v).length ≤ (encodeItems items).length := by
  induction items with
  | nil => simp at h
  | cons w items ih =>
    rw [encodeItems, List.length_append]
    rcases List.mem_cons.1 h with rfl | h
    · omega
    · have := ih h
      omega

theorem length_encode_le_encodeEntries {e : Value × Value} {entries : List (Value × Value)}
    (h : e ∈ entries) :
    (encode e.1).length + (encode e.2).length ≤ (encodeEntries entries).length := by
  induction entries with
  | nil => simp at h
  | cons w entries ih =>
    obtain ⟨k, v⟩ := w
    rw [encodeEntries, List.length_append, List.length_append]
    rcases List.mem_cons.1 h with rfl | h
    · simp only
      omega
    · have := ih h
      omega

theorem length_le_encodeItems {depth : Nat} {items : List Value}
    (h : ∀ v ∈ items, Plain depth v) : items.length ≤ (encodeItems items).length := by
  induction items with
  | nil => simp
  | cons v items ih =>
    have first := (h v List.mem_cons_self).length_encode_pos
    have rest := ih (fun w hw => h w (List.mem_cons_of_mem _ hw))
    rw [encodeItems, List.length_append, List.length_cons]
    omega

theorem length_le_encodeEntries {depth : Nat} {entries : List (Value × Value)}
    (h : ∀ e ∈ entries, Plain depth e.1) : entries.length ≤ (encodeEntries entries).length := by
  induction entries with
  | nil => simp
  | cons e entries ih =>
    obtain ⟨k, v⟩ := e
    have first := (h (k, v) List.mem_cons_self).length_encode_pos
    have rest := ih (fun w hw => h w (List.mem_cons_of_mem _ hw))
    rw [encodeEntries, List.length_append, List.length_append, List.length_cons]
    simp only at first
    omega

/-! ## One step of the reader -/

section

variable {depth n : Nat} {bs rest : List UInt8}

theorem decode_eq (depth : Nat) (bs : List UInt8) :
    ∃ inner?, decode depth bs = (Head.read bs).bind fun read => readBody inner? read.1 read.2 := by
  cases depth with
  | zero => exact ⟨none, rfl⟩
  | succ depth => exact ⟨some (decode depth), rfl⟩

theorem decode_whole {v : Value} (h : Head.read bs = some (.whole v, rest)) :
    decode depth bs = some (v, rest) := by
  obtain ⟨inner?, body⟩ := decode_eq depth bs
  rw [body, h]
  rfl

theorem decode_text (h : Head.read bs = some (.text n, rest)) :
    decode depth bs = (Bytes.splitAt? n rest).map fun split => (textOrBinary split.1, split.2) := by
  obtain ⟨inner?, body⟩ := decode_eq depth bs
  rw [body, h, Option.bind_some, Option.map_eq_bind]
  rfl

theorem decode_binary (h : Head.read bs = some (.binary n, rest)) :
    decode depth bs = (Bytes.splitAt? n rest).map fun split => (.binary split.1, split.2) := by
  obtain ⟨inner?, body⟩ := decode_eq depth bs
  rw [body, h, Option.bind_some, Option.map_eq_bind]
  rfl

theorem decode_array (h : Head.read bs = some (.array n, rest)) :
    decode (depth + 1) bs =
      (readMany (decode depth) n rest).map fun read => (.array read.1, read.2) := by
  rw [decode, h, Option.map_eq_bind]
  rfl

theorem decode_map (h : Head.read bs = some (.map n, rest)) :
    decode (depth + 1) bs =
      (readMany (readPair (decode depth)) n rest).map fun read => (.map read.1, read.2) := by
  rw [decode, h, Option.map_eq_bind]
  rfl

end

/-! ## The round trip -/

theorem readMany_encodeItems {depth : Nat} {items : List Value}
    (h : ∀ v ∈ items, ∀ rest, decode depth (encode v ++ rest) = some (v, rest))
    (rest : List UInt8) :
    readMany (decode depth) items.length (encodeItems items ++ rest) = some (items, rest) := by
  induction items with
  | nil => rfl
  | cons v items ih =>
    have tail := ih (fun w hw => h w (List.mem_cons_of_mem _ hw))
    rw [encodeItems, List.append_assoc, List.length_cons, readMany, h v List.mem_cons_self]
    simp only [Option.bind_eq_bind, Option.bind_some, tail, Option.pure_def]

theorem readMany_encodeEntries {depth : Nat} {entries : List (Value × Value)}
    (hk : ∀ e ∈ entries, ∀ rest, decode depth (encode e.1 ++ rest) = some (e.1, rest))
    (hv : ∀ e ∈ entries, ∀ rest, decode depth (encode e.2 ++ rest) = some (e.2, rest))
    (rest : List UInt8) :
    readMany (readPair (decode depth)) entries.length (encodeEntries entries ++ rest) =
      some (entries, rest) := by
  induction entries with
  | nil => rfl
  | cons e entries ih =>
    obtain ⟨k, v⟩ := e
    have tail := ih (fun w hw => hk w (List.mem_cons_of_mem _ hw))
      (fun w hw => hv w (List.mem_cons_of_mem _ hw))
    have key := hk (k, v) List.mem_cons_self
    have value := hv (k, v) List.mem_cons_self
    simp only at key value
    rw [encodeEntries, List.append_assoc, List.append_assoc, List.length_cons, readMany, readPair,
      key]
    simp only [Option.bind_eq_bind, Option.bind_some, value, tail, Option.pure_def]

/--
A plain value is read back from its encoding, whatever follows it, if every length in it can be
written in four bytes.
-/
theorem decode_encode {depth : Nat} {v : Value} (h : Plain depth v)
    (size : (encode v).length < 0x100000000) (rest : List UInt8) :
    decode depth (encode v ++ rest) = some (v, rest) := by
  induction h generalizing rest with
  | nil => exact decode_whole rfl
  | bool b =>
    cases b
    · exact decode_whole rfl
    · exact decode_whole rfl
  | int i low high => exact decode_whole (read_int rest low high)
  | text s =>
    simp only [encode, List.length_append] at size
    have head := read_textHead (textBytes s ++ rest) (n := (textBytes s).length) (by omega)
    simp only [encode, List.append_assoc]
    rw [decode_text head, Bytes.splitAt?_append, Option.map_some, textOrBinary_textBytes]
  | binary bytes =>
    simp only [encode, List.length_append] at size
    have head := read_binaryHead (bytes ++ rest) (n := bytes.length) (by omega)
    simp only [encode, List.append_assoc]
    rw [decode_binary head, Bytes.splitAt?_append, Option.map_some]
  | @array depth items plain ih =>
    simp only [encode, List.length_append] at size
    have count := length_le_encodeItems plain
    have inner : ∀ v ∈ items, ∀ rest, decode depth (encode v ++ rest) = some (v, rest) := by
      intro v hv
      have := length_encode_le_encodeItems hv
      exact ih v hv (by omega)
    have head := read_arrayHead (encodeItems items ++ rest) (n := items.length) (by omega)
    rw [encode, List.append_assoc, decode_array head, readMany_encodeItems inner, Option.map_some]
  | @map depth entries keys values ihk ihv =>
    simp only [encode, List.length_append] at size
    have count := length_le_encodeEntries keys
    have innerKeys : ∀ e ∈ entries, ∀ rest,
        decode depth (encode e.1 ++ rest) = some (e.1, rest) := by
      intro e he
      have := length_encode_le_encodeEntries he
      exact ihk e he (by omega)
    have innerValues : ∀ e ∈ entries, ∀ rest,
        decode depth (encode e.2 ++ rest) = some (e.2, rest) := by
      intro e he
      have := length_encode_le_encodeEntries he
      exact ihv e he (by omega)
    have head := read_mapHead (encodeEntries entries ++ rest) (n := entries.length) (by omega)
    rw [encode, List.append_assoc, decode_map head, readMany_encodeEntries innerKeys innerValues,
      Option.map_some]

end TemporalStore.MessagePack
