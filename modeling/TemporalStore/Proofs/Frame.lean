import TemporalStore.Frame
import TemporalStore.Proofs.Bytes.Checksum

/-!
This module contains what the reader makes of frames that are longer than they may be, that are cut
short, or in which a byte has changed.
-/

namespace TemporalStore.Frame

variable {format : FileFormat} {name : String}

/--
What becomes of a file that has all the bytes in front of the payload.
-/
theorem decode_append {magic length checksum payload : List UInt8} {version : UInt8}
    (four : magic.length = 4) (eight : length.length = 8) (wide : checksum.length = 4) :
    decode format name (magic ++ version :: (length ++ (checksum ++ payload))) =
      if magic ≠ format.magic then
        .error (.invalidFormat s!"Invalid magic in {name}")
      else if version ≠ format.version then
        .error (.invalidFormat
          s!"Unsupported format version {Bytes.ofLittleEndian [version]} in {name}")
      else if maxPayload < Bytes.ofLittleEndian length then
        .error (.corruption s!"Frame in {name} claims {Bytes.ofLittleEndian length} bytes")
      else
        match take (Bytes.ofLittleEndian length) payload with
        | .error e => .error e
        | .ok (taken, _) =>
          if Bytes.crc32 taken ≠ UInt32.ofNat (Bytes.ofLittleEndian checksum) then
            .error (.checksumMismatch (UInt32.ofNat (Bytes.ofLittleEndian checksum))
              (Bytes.crc32 taken))
          else
            .ok taken := by
  have one : ∀ xs, take 1 (version :: xs) = .ok ([version], xs) := fun _ => rfl
  simp only [decode, bind, Except.bind]
  rw [take_append four]
  by_cases known : magic = format.magic
  · simp only [known, ne_eq, not_true_eq_false, if_false, pure, Except.pure]
    rw [one]
    by_cases current : version = format.version
    · simp only [current, not_true_eq_false, if_false]
      rw [take_append eight]
      by_cases long : maxPayload < Bytes.ofLittleEndian length
      · simp only [long, if_true]
        rfl
      · simp only [long, if_false]
        rw [take_append wide]
        dsimp only
        cases take (Bytes.ofLittleEndian length) payload with
        | error e => rfl
        | ok split =>
          by_cases same : Bytes.crc32 split.1 = UInt32.ofNat (Bytes.ofLittleEndian checksum)
          · simp [same]
          · simp only [same, not_false_eq_true, if_true]
            rfl
    · simp only [List.cons.injEq, and_true, current, not_false_eq_true, if_true]
      rfl
  · simp only [ne_eq, known, not_false_eq_true, if_true]
    rfl

theorem ofLittleEndian_length {payload : List UInt8} (size : payload.length < 0x10000000000000000) :
    Bytes.ofLittleEndian (Bytes.littleEndian 8 payload.length) = payload.length := by
  rw [Bytes.ofLittleEndian_littleEndian]
  exact Nat.mod_eq_of_lt size

theorem ofLittleEndian_crc32 (payload : List UInt8) :
    UInt32.ofNat (Bytes.ofLittleEndian (Bytes.littleEndian 4 (Bytes.crc32 payload).toNat)) =
      Bytes.crc32 payload := by
  have word : (Bytes.crc32 payload).toNat < Bytes.capacity 4 := (Bytes.crc32 payload).toNat_lt
  rw [Bytes.ofLittleEndian_littleEndian, Nat.mod_eq_of_lt word, UInt32.ofNat_toNat]

/--
A frame is written at any length, but one that is too long is refused by the reader.
-/
theorem decode_encode_of_lt {format : FileFormat} {payload rest : List UInt8} (name : String)
    (magic : format.magic.length = 4) (long : maxPayload < payload.length)
    (size : payload.length < 0x10000000000000000) :
    decode format name (encode format payload ++ rest) =
      .error (.corruption s!"Frame in {name} claims {payload.length} bytes") := by
  unfold encode
  simp only [List.append_assoc, List.cons_append]
  rw [decode_append magic Bytes.length_littleEndian Bytes.length_littleEndian,
    ofLittleEndian_length size]
  simp only [ne_eq, not_true_eq_false, if_false, long, if_true]

/-! ## Damage -/

section

variable {payload cut : List UInt8} {i : Nat} {b : UInt8}

/--
What is left of a piece and of all that follows it: the piece and some of what follows, or less than
the piece.
-/
theorem take_of_prefix {piece rest : List UInt8} {n : Nat} (width : piece.length = n)
    (h : cut <+: piece ++ rest) :
    take n cut = .error endOfFile ∨ ∃ left, cut = piece ++ left ∧ left <+: rest := by
  by_cases short : cut.length < n
  · left
    unfold take
    rw [Bytes.splitAt?_eq_none_iff.2 short]
  · right
    have whole : piece <+: cut := by
      apply List.prefix_of_prefix_length_le (List.prefix_append piece rest) h
      omega
    obtain ⟨left, rfl⟩ := whole
    exact ⟨left, rfl, (List.prefix_append_right_inj piece).1 h⟩

theorem take_of_strict_prefix (h : cut <+: payload) (strict : cut ≠ payload) :
    take payload.length cut = .error endOfFile := by
  have shorter : cut.length < payload.length := by
    have := h.length_le
    have : cut.length ≠ payload.length := fun same => strict (h.eq_of_length same)
    omega
  unfold take
  rw [Bytes.splitAt?_eq_none_iff.2 shorter]

/--
A file that ends too early is refused, wherever it ends.
-/
theorem decode_of_strict_prefix (magic : format.magic.length = 4)
    (size : payload.length ≤ maxPayload) (h : cut <+: encode format payload)
    (strict : cut ≠ encode format payload) : decode format name cut = .error endOfFile := by
  unfold encode at h strict
  have one : ∀ xs, take 1 (format.version :: xs) = .ok ([format.version], xs) := fun _ => rfl
  have length := @ofLittleEndian_length payload (by unfold maxPayload at size; omega)
  rcases take_of_prefix magic h with ended | ⟨afterMagic, rfl, h₁⟩
  · simp only [decode, ended, bind, Except.bind]
  rw [← List.singleton_append] at h₁
  rcases take_of_prefix rfl h₁ with ended | ⟨afterVersion, rfl, h₂⟩
  · rw [List.length_singleton] at ended
    simp [decode, take_append magic, ended, bind, Except.bind]
  rcases take_of_prefix Bytes.length_littleEndian h₂ with ended | ⟨afterLength, rfl, h₃⟩
  · simp [decode, take_append magic, one, ended, bind, Except.bind]
  rcases take_of_prefix Bytes.length_littleEndian h₃ with ended | ⟨left, rfl, h₄⟩
  · simp [decode, take_append magic, take_append Bytes.length_littleEndian, one, ended, length,
      Nat.not_lt.2 size, bind, Except.bind]
  · have less : left ≠ payload := by
      rintro rfl
      exact strict rfl
    rw [List.singleton_append, decode_append magic Bytes.length_littleEndian
      Bytes.length_littleEndian, length, take_of_strict_prefix h₄ less]
    simp only [ne_eq, not_true_eq_false, if_false, Nat.not_lt.2 size]

theorem set_ne_self {bs : List UInt8} (h : i < bs.length) (other : b ≠ bs[i]) :
    bs.set i b ≠ bs := by
  intro same
  have there : (bs.set i b)[i]? = some b := List.getElem?_set_self h
  rw [same, List.getElem?_eq_getElem h, Option.some.injEq] at there
  exact other there.symm

/--
A file is not taken for one of another kind or of another version.
-/
theorem decode_of_changed_header (magic : format.magic.length = 4) (front : i < 5)
    (h : i < (encode format payload).length) (other : b ≠ (encode format payload)[i]) :
    ∃ reason, decode format name ((encode format payload).set i b) =
      .error (.invalidFormat reason) := by
  unfold encode at h other ⊢
  rw [List.set_append]
  split
  · rename_i inMagic
    rw [List.getElem_append_left inMagic] at other
    rw [decode_append (by rw [List.length_set, magic]) Bytes.length_littleEndian
      Bytes.length_littleEndian, if_pos (set_ne_self inMagic other)]
    exact ⟨_, rfl⟩
  · have last : i - format.magic.length = 0 := by omega
    rw [List.getElem_append_right (by omega)] at other
    simp only [last, List.getElem_cons_zero] at other
    rw [last, List.set_cons_zero, decode_append magic Bytes.length_littleEndian
      Bytes.length_littleEndian, if_neg (by simp), if_pos other]
    exact ⟨_, rfl⟩

/--
Any checksum but that of the payload is refused.
-/
theorem decode_of_other_checksum {checksum : List UInt8} (magic : format.magic.length = 4)
    (size : payload.length ≤ maxPayload) (four : checksum.length = 4)
    (other : Bytes.crc32 payload ≠ UInt32.ofNat (Bytes.ofLittleEndian checksum)) :
    ∃ expected got, decode format name (format.magic ++ format.version ::
        (Bytes.littleEndian 8 payload.length ++ (checksum ++ payload))) =
      .error (.checksumMismatch expected got) := by
  have whole : take payload.length payload = .ok (payload, []) := by
    rw [← take_append rfl, List.append_nil]
  rw [decode_append magic Bytes.length_littleEndian four,
    ofLittleEndian_length (by unfold maxPayload at size; omega), whole]
  simp [Nat.not_lt.2 size, other]

theorem ofNat_ofLittleEndian_ne {checksum : List UInt8} (four : checksum.length = 4)
    (other : checksum ≠ Bytes.littleEndian 4 (Bytes.crc32 payload).toNat) :
    Bytes.crc32 payload ≠ UInt32.ofNat (Bytes.ofLittleEndian checksum) := by
  intro same
  have word := Bytes.ofLittleEndian_lt checksum
  rw [four] at word
  simp only [Bytes.capacity] at word
  apply other
  rw [← Bytes.ofLittleEndian_inj (by rw [four, Bytes.length_littleEndian]), same,
    UInt32.toNat_ofNat', Bytes.ofLittleEndian_littleEndian]
  simp only [Bytes.capacity]
  omega

/--
Neither the checksum nor the payload can be changed unnoticed.
-/
theorem decode_of_changed_body (magic : format.magic.length = 4)
    (size : payload.length ≤ maxPayload) (back : 13 ≤ i)
    (h : i < (encode format payload).length) (other : b ≠ (encode format payload)[i]) :
    ∃ expected got, decode format name ((encode format payload).set i b) =
      .error (.checksumMismatch expected got) := by
  have pieces (checksum payload' : List UInt8) :
      format.magic ++ format.version :: (Bytes.littleEndian 8 payload.length ++
        (checksum ++ payload')) =
      (format.magic ++ format.version :: Bytes.littleEndian 8 payload.length) ++
        (checksum ++ payload') := by simp
  have front : (format.magic ++ format.version ::
      Bytes.littleEndian 8 payload.length).length = 13 := by simp [magic]
  obtain ⟨j, rfl⟩ := Nat.exists_eq_add_of_le back
  unfold encode at h other ⊢
  simp only [pieces] at h other ⊢
  rw [List.length_append, front, List.length_append, Bytes.length_littleEndian] at h
  rw [List.getElem_append_right (by omega)] at other
  rw [List.set_append_right _ _ (by omega)]
  simp only [front, Nat.add_sub_cancel_left] at other ⊢
  rw [List.set_append]
  split
  · rename_i inChecksum
    rw [List.getElem_append_left inChecksum] at other
    have four : ((Bytes.littleEndian 4 (Bytes.crc32 payload).toNat).set j b).length = 4 := by simp
    rw [← pieces]
    apply decode_of_other_checksum magic size four
    exact ofNat_ofLittleEndian_ne four (set_ne_self inChecksum other)
  · rename_i inPayload
    rw [List.getElem_append_right (by omega)] at other
    simp only [Bytes.length_littleEndian] at other inPayload ⊢
    have there : j - 4 < payload.length := by omega
    have same : (payload.set (j - 4) b).length = payload.length := List.length_set
    rw [← pieces, ← same]
    apply decode_of_other_checksum magic (by rwa [same]) Bytes.length_littleEndian
    rw [ofLittleEndian_crc32]
    exact Bytes.crc32_set_ne there other

end

end TemporalStore.Frame
