import Mathlib.Tactic

/-!
# Prefixes of UTF-8 texts

A list of bytes is UTF-8 if it is the encoding of some characters.  `isUtf8_take_iff` says where
such a text may be cut: at its end, or before a byte that begins a character.
-/

/-- The bytes encode characters. -/
def IsUtf8 (s : List UInt8) : Prop := ∃ cs : List Char, cs.flatMap String.utf8EncodeChar = s

lemma isUtf8_iff {s : List UInt8} : IsUtf8 s ↔ s.toByteArray.IsValidUTF8 := by
  constructor
  · rintro ⟨cs, rfl⟩
    exact ⟨cs, rfl⟩
  · rintro ⟨cs, hcs⟩
    have hdata : (cs.flatMap String.utf8EncodeChar).toByteArray.data.toList
        = s.toByteArray.data.toList := by rw [hcs]; rfl
    rw [List.toList_data_toByteArray, List.toList_data_toByteArray] at hdata
    exact ⟨cs, hdata⟩

lemma toByteArray_take (s : List UInt8) (n : ℕ) :
    (s.take n).toByteArray = s.toByteArray.extract 0 n := by
  refine ByteArray.ext (Array.ext' ?_)
  simp

/-- Where a text can be cut: at its end, or before a byte that begins a character. -/
theorem isUtf8_take_iff {s : List UInt8} (hs : IsUtf8 s) (n : ℕ) :
    IsUtf8 (s.take n) ↔ ∀ b, s[n]? = some b → b.IsUTF8FirstByte := by
  rcases Nat.lt_or_ge n s.length with hlt | hge
  · let t : String := ⟨s.toByteArray, isUtf8_iff.mp hs⟩
    have hend : String.Pos.Raw.mk n < t.rawEndPos := by
      simpa [String.Pos.Raw.lt_iff, t] using hlt
    have hcut : IsUtf8 (s.take n) ↔ (String.Pos.Raw.mk n).IsValid t := by
      rw [isUtf8_iff, toByteArray_take, String.Pos.Raw.isValid_iff_isValidUTF8_extract_zero]
      exact (and_iff_right (String.Pos.Raw.le_of_lt hend)).symm
    have hbyte : t.getUTF8Byte ⟨n⟩ hend = s[n] := by
      rw [String.getUTF8Byte_eq_getElem]
      exact (List.getElem_eq_getElem_toByteArray ..).symm
    have hinside : String.Pos.Raw.mk n ≠ t.rawEndPos := String.Pos.Raw.ne_of_lt hend
    rw [hcut, String.Pos.Raw.isValid_iff_isUTF8FirstByte, or_iff_right hinside,
      List.getElem?_eq_getElem hlt]
    simp [hbyte, hend]
  · rw [List.take_of_length_le hge, List.getElem?_eq_none hge]
    simp [hs]
