import HashHush.Web.Crypto

/-!
# The hex codec of the cached key

`hexToBytes` reads a text two characters at a time through `parseInt`, which also takes a sign or a
blank in front of a digit and ignores what follows one.  `readable_iff` says which pairs it reads,
and `hexCodec_iff` for which texts the decoder is the exact inverse of `bytesToHex` all the
same.
-/

namespace HashHush.Web

/-! ## Pairs of characters -/

/-- The character is a hex digit. -/
def IsHex (u : UInt16) : Prop := (hexDigit u).isSome = true

instance : DecidablePred IsHex := fun u => inferInstanceAs (Decidable ((hexDigit u).isSome = true))

def isSign (u : UInt16) : Bool := u = '-'.toNat.toUInt16 || u = '+'.toNat.toUInt16

/-- The two characters are a prefix `0x`. -/
def IsPrefix (u v : UInt16) : Prop :=
  u = '0'.toNat.toUInt16 ∧ (v = 'x'.toNat.toUInt16 ∨ v = 'X'.toNat.toUInt16)

/-- A pair that `parseInt` reads: a digit with whatever is behind it, or a digit behind a sign or a
blank. -/
def Readable (u v : UInt16) : Prop :=
  (IsHex u ∧ ¬ IsPrefix u v) ∨ ((isSign u = true ∨ isWhite u = true) ∧ IsHex v)

/-- The letters of a hex text, in lower case. -/
def lowerCase (u : UInt16) : UInt16 := if 0x41 ≤ u && u ≤ 0x46 then u + 0x20 else u

/-- What is known of a digit: its value, that it is neither a sign nor a blank, and its lower case
character. -/
lemma hexDigit_spec {u : UInt16} {n : ℕ} (h : hexDigit u = some n) : n < 16 ∧
    isWhite u = false ∧ isSign u = false ∧ (hexChar n.toUInt8).toUInt16 = lowerCase u := by
  have key : ∀ i < 128, ∀ n, hexDigit i.toUInt16 = some n → n < 16 ∧
      isWhite i.toUInt16 = false ∧ isSign i.toUInt16 = false ∧
        (hexChar n.toUInt8).toUInt16 = lowerCase i.toUInt16 := by
    have hall : ∀ i < 128, (hexDigit i.toUInt16).all (fun n => n < 16 ∧
        isWhite i.toUInt16 = false ∧ isSign i.toUInt16 = false ∧
          (hexChar n.toUInt8).toUInt16 = lowerCase i.toUInt16) = true := by decide +kernel
    intro i hi n hn
    have hi := hall i hi
    rw [hn] at hi
    exact of_decide_eq_true hi
  have hlt : u.toNat < 128 := by
    have h0 : '9'.toNat = 57 := rfl
    have hf : 'f'.toNat = 102 := rfl
    have hF : 'F'.toNat = 70 := rfl
    unfold hexDigit at h
    split at h
    · omega
    · split at h
      · omega
      · split at h
        · omega
        · cases h
  have hu : u.toNat.toUInt16 = u := UInt16.ofNat_toNat
  exact hu ▸ key u.toNat hlt n (hu.symm ▸ h)

lemma isHex_iff {u : UInt16} : IsHex u ↔ ∃ n, hexDigit u = some n := Option.isSome_iff_exists

lemma hexDigit_eq_none {u : UInt16} : hexDigit u = none ↔ ¬ IsHex u := by
  rw [IsHex, Option.not_isSome_iff_eq_none]

@[simp] lemma digitsValue_nil : digitsValue [] = none := rfl

/-- Digits are read exactly where there is one in front. -/
lemma digitsValue_ne_none {u : UInt16} {s : JsString} : digitsValue (u :: s) ≠ none ↔ IsHex u := by
  cases hu : hexDigit u with
  | none =>
      have hno : ¬ IsHex u := hexDigit_eq_none.mp hu
      simp [digitsValue, hu, hno]
  | some n =>
      have hyes : IsHex u := isHex_iff.mpr ⟨n, hu⟩
      simp [digitsValue, hu, hyes]

lemma digitsValue_pair {u v : UInt16} {n m : ℕ} (hu : hexDigit u = some n)
    (hv : hexDigit v = some m) : digitsValue [u, v] = some (16 * n + m) := by
  simp [digitsValue, hu, hv]

lemma parseSign_of_isSign {u : UInt16} (h : isSign u = true) (s : JsString) :
    ∃ sign, parseSign (u :: s) = (sign, s) := by
  rcases Bool.or_eq_true_iff.mp h with hminus | hplus
  · exact ⟨-1, if_pos (of_decide_eq_true hminus)⟩
  · rw [parseSign, if_pos (of_decide_eq_true hplus)]
    split
    · exact ⟨-1, rfl⟩
    · exact ⟨1, rfl⟩

lemma parseSign_of_not {u : UInt16} (h : isSign u = false) (s : JsString) :
    parseSign (u :: s) = (1, u :: s) := by
  simp only [isSign, Bool.or_eq_false_iff, decide_eq_false_iff_not] at h
  rw [parseSign, if_neg h.1, if_neg h.2]

lemma parseInt_white {u : UInt16} (h : isWhite u = true) (s : JsString) :
    parseInt (u :: s) = parseInt s := by
  rw [parseInt, parseInt, List.dropWhile_cons_of_pos h]

/-- A number without blanks and sign is its digits. -/
lemma parseInt_plain {u : UInt16} (hwhite : isWhite u = false) (hsign : isSign u = false)
    (s : JsString) :
    parseInt (u :: s) = (digitsValue (stripPrefix (u :: s))).map (Nat.cast : ℕ → ℤ) := by
  rw [parseInt, List.dropWhile_cons_of_neg (by simp [hwhite]), parseSign_of_not hsign]
  simp only [one_mul]

/-- A number behind a sign is read where its digits are. -/
lemma parseInt_sign {u : UInt16} (hwhite : isWhite u = false) (hsign : isSign u = true)
    (s : JsString) : parseInt (u :: s) ≠ none ↔ digitsValue (stripPrefix s) ≠ none := by
  obtain ⟨sign, hparse⟩ := parseSign_of_isSign hsign s
  rw [parseInt, List.dropWhile_cons_of_neg (by simp [hwhite]), hparse, Ne, Option.map_eq_none_iff]

lemma stripPrefix_of_isPrefix {u v : UInt16} (h : IsPrefix u v) : stripPrefix [u, v] = [] := if_pos h

lemma stripPrefix_of_not {u v : UInt16} (h : ¬ IsPrefix u v) : stripPrefix [u, v] = [u, v] := if_neg h

/-- Of one character a digit is read, and nothing else. -/
lemma parseInt_singleton {v : UInt16} : parseInt [v] ≠ none ↔ IsHex v := by
  cases hwhite : isWhite v with
  | true =>
      have hno : ¬ IsHex v := fun h => by
        obtain ⟨n, hn⟩ := isHex_iff.mp h
        exact absurd hwhite (by rw [(hexDigit_spec hn).2.1]; exact Bool.false_ne_true)
      rw [parseInt_white hwhite]
      exact iff_of_false (by decide) hno
  | false =>
      cases hsign : isSign v with
      | true =>
          have hno : ¬ IsHex v := fun h => by
            obtain ⟨n, hn⟩ := isHex_iff.mp h
            exact absurd hsign (by rw [(hexDigit_spec hn).2.2.1]; exact Bool.false_ne_true)
          rw [parseInt_sign hwhite hsign]
          exact iff_of_false (by decide) hno
      | false =>
          rw [parseInt_plain hwhite hsign, Ne, Option.map_eq_none_iff]
          exact digitsValue_ne_none

/-- The pairs that `parseInt` reads. -/
lemma readable_iff {u v : UInt16} : parseInt [u, v] ≠ none ↔ Readable u v := by
  by_cases hex : IsHex u
  · obtain ⟨n, hn⟩ := isHex_iff.mp hex
    obtain ⟨-, hwhite, hsign, -⟩ := hexDigit_spec hn
    rw [parseInt_plain hwhite hsign, Ne, Option.map_eq_none_iff]
    by_cases hprefix : IsPrefix u v
    · have hno : ¬ Readable u v := by simp [Readable, hprefix, hwhite, hsign]
      rw [stripPrefix_of_isPrefix hprefix]
      exact iff_of_false (fun h => h rfl) hno
    · have hyes : Readable u v := .inl ⟨hex, hprefix⟩
      rw [stripPrefix_of_not hprefix]
      exact iff_of_true (digitsValue_ne_none.mpr hex) hyes
  · have hshort : Readable u v ↔ (isSign u = true ∨ isWhite u = true) ∧ IsHex v := by
      simp [Readable, hex]
    rw [hshort]
    cases hwhite : isWhite u with
    | true =>
        rw [parseInt_white hwhite, parseInt_singleton]
        simp
    | false =>
        cases hsign : isSign u with
        | true =>
            rw [parseInt_sign hwhite hsign, stripPrefix, digitsValue_ne_none]
            · simp
            · intro u' v' s' h
              cases h
        | false =>
            have hprefix : ¬ IsPrefix u v := fun h => hex (h.1 ▸ by decide)
            rw [parseInt_plain hwhite hsign, Ne, Option.map_eq_none_iff,
              stripPrefix_of_not hprefix]
            simpa [hex] using (digitsValue_ne_none (u := u)).not.mpr hex

/-- Two digits are read as their number. -/
lemma parseInt_digits {u v : UInt16} {n m : ℕ} (hu : hexDigit u = some n) (hv : hexDigit v = some m) :
    parseInt [u, v] = some ((16 * n + m : ℕ) : ℤ) := by
  obtain ⟨-, hwhite, hsign, -⟩ := hexDigit_spec hu
  have hprefix : ¬ IsPrefix u v := by
    have hx : hexDigit 'x'.toNat.toUInt16 = none ∧ hexDigit 'X'.toNat.toUInt16 = none := by decide
    rintro ⟨-, hvx | hvx⟩
    · rw [hvx, hx.1] at hv
      cases hv
    · rw [hvx, hx.2] at hv
      cases hv
  rw [parseInt_plain hwhite hsign, stripPrefix_of_not hprefix, digitsValue_pair hu hv]
  rfl

/-! ## Texts -/

/-- The pairs that the decoder reads. -/
def windows : JsString → List (UInt16 × UInt16)
  | u :: v :: s => (u, v) :: windows s
  | _ => []

/-- The text is of even length, and all its characters are digits. -/
def IsHexText (s : JsString) : Prop := s.length % 2 = 0 ∧ ∀ u ∈ s, IsHex u

/-- A text is decoded if it has pairs only, each of which can be read. -/
lemma hexToBytes_ne_none_iff (s : JsString) :
    hexToBytes s ≠ none ↔ s.length % 2 = 0 ∧ ∀ w ∈ windows s, Readable w.1 w.2 := by
  induction s using List.twoStepInduction with
  | nil => simp [hexToBytes, windows]
  | singleton u => simp [hexToBytes]
  | cons_cons u v s ih =>
      have hlen : (u :: v :: s).length % 2 = s.length % 2 := by
        rw [List.length_cons, List.length_cons]
        omega
      rw [hlen, windows, List.forall_mem_cons, and_left_comm, ← ih, ← readable_iff, hexToBytes]
      cases parseInt [u, v] with
      | none => simp
      | some n => cases hexToBytes s <;> simp

lemma forall_mem_windows {s : JsString} (h : s.length % 2 = 0) :
    (∀ w ∈ windows s, IsHex w.1 ∧ IsHex w.2) ↔ ∀ u ∈ s, IsHex u := by
  induction s using List.twoStepInduction with
  | nil => simp [windows]
  | singleton u => simp at h
  | cons_cons u v s ih =>
      have hlen : s.length % 2 = 0 := by
        rw [List.length_cons, List.length_cons] at h
        omega
      rw [windows, List.forall_mem_cons, List.forall_mem_cons, List.forall_mem_cons, ih hlen,
        and_assoc]

/-- A byte is known by its two halves. -/
lemma ofInt_nibbles (b : UInt8) :
    UInt8.ofInt ((16 * (b >>> 4).toNat + (b &&& 0x0F).toNat : ℕ) : ℤ) = b := by
  have key : ∀ n < 256, UInt8.ofInt ((16 * ((Nat.toUInt8 n) >>> 4).toNat
      + ((Nat.toUInt8 n) &&& 0x0F).toNat : ℕ) : ℤ) = Nat.toUInt8 n := by decide +kernel
  have hnat : b.toNat.toUInt8 = b := UInt8.ofNat_toNat
  exact hnat ▸ key b.toNat b.toNat_lt

lemma nibbles_of_digits {n m : ℕ} (hn : n < 16) (hm : m < 16) :
    UInt8.ofInt ((16 * n + m : ℕ) : ℤ) >>> 4 = n.toUInt8 ∧
      UInt8.ofInt ((16 * n + m : ℕ) : ℤ) &&& 0x0F = m.toUInt8 := by
  have key : ∀ n < 16, ∀ m < 16, UInt8.ofInt ((16 * n + m : ℕ) : ℤ) >>> 4 = n.toUInt8 ∧
      UInt8.ofInt ((16 * n + m : ℕ) : ℤ) &&& 0x0F = m.toUInt8 := by decide +kernel
  exact key n hn m hm

/-- A byte of two digits is written with the two in lower case. -/
lemma text_bytesToHex_cons {u v : UInt16} {n m : ℕ} (hu : hexDigit u = some n)
    (hv : hexDigit v = some m) (bytes : List UInt8) :
    text (bytesToHex (UInt8.ofInt ((16 * n + m : ℕ) : ℤ) :: bytes))
      = lowerCase u :: lowerCase v :: text (bytesToHex bytes) := by
  obtain ⟨hn, -, -, hun⟩ := hexDigit_spec hu
  obtain ⟨hm, -, -, hvm⟩ := hexDigit_spec hv
  obtain ⟨hhigh, hlow⟩ := nibbles_of_digits hn hm
  have hcons : bytesToHex (UInt8.ofInt ((16 * n + m : ℕ) : ℤ) :: bytes)
      = hexChar n.toUInt8 :: hexChar m.toUInt8 :: bytesToHex bytes := by
    rw [← hhigh, ← hlow]
    rfl
  rw [hcons, ← hun, ← hvm]
  rfl

/-- A hex text is decoded, and written back in lower case. -/
lemma hexToBytes_of_isHex {s : JsString} (heven : s.length % 2 = 0)
    (hex : ∀ w ∈ windows s, IsHex w.1 ∧ IsHex w.2) :
    ∃ bytes, hexToBytes s = some bytes ∧ text (bytesToHex bytes) = s.map lowerCase := by
  induction s using List.twoStepInduction with
  | nil => exact ⟨[], rfl, rfl⟩
  | singleton u => exact absurd heven (by simp)
  | cons_cons u v s ih =>
      have hrest : s.length % 2 = 0 := by
        rw [List.length_cons, List.length_cons] at heven
        omega
      obtain ⟨hpair, hothers⟩ := List.forall_mem_cons.mp hex
      obtain ⟨n, hu⟩ := isHex_iff.mp hpair.1
      obtain ⟨m, hv⟩ := isHex_iff.mp hpair.2
      obtain ⟨bytes, hbytes, htext⟩ := ih hrest hothers
      refine ⟨UInt8.ofInt ((16 * n + m : ℕ) : ℤ) :: bytes, ?_, ?_⟩
      · rw [hexToBytes, parseInt_digits hu hv, hbytes]
        rfl
      · rw [text_bytesToHex_cons hu hv, htext]
        rfl

/-- The digit of a half is read as the half. -/
lemma hexDigit_hexChar {b : UInt8} (h : b.toNat < 16) :
    hexDigit (hexChar b).toUInt16 = some b.toNat := by
  have key : ∀ n < 16, hexDigit (hexChar (Nat.toUInt8 n)).toUInt16 = some (Nat.toUInt8 n).toNat := by
    decide +kernel
  have hnat : b.toNat.toUInt8 = b := UInt8.ofNat_toNat
  exact hnat ▸ key b.toNat h

lemma hexToBytes_bytesToHex (bytes : List UInt8) :
    hexToBytes (text (bytesToHex bytes)) = some bytes := by
  induction bytes with
  | nil => rfl
  | cons b bytes ih =>
      have hu := hexDigit_hexChar (toNat_shiftRight_four_lt b)
      have hv := hexDigit_hexChar (toNat_and_fifteen_lt b)
      have hcons : text (bytesToHex (b :: bytes))
          = (hexChar (b >>> 4)).toUInt16 :: (hexChar (b &&& 0x0F)).toUInt16
            :: text (bytesToHex bytes) := rfl
      rw [hcons, hexToBytes, ih, parseInt_digits hu hv]
      exact congrArg (fun b => some (b :: bytes)) (ofInt_nibbles b)

example : hexToBytes (text (ascii "0aFF")) = some [0x0A, 0xFF] := by decide +kernel

/-! ## The codec -/

/-- The decoder undoes the encoder.  It reads the hex texts alone, and the encoder writes them back in
lower case, but for the texts whose every pair `parseInt` can read though not all are two digits. -/
theorem hexCodec_iff (s : JsString) :
    (∀ bytes, hexToBytes (text (bytesToHex bytes)) = some bytes) ∧
      (((hexToBytes s ≠ none ↔ IsHexText s) ∧
          (IsHexText s → ∃ bytes, hexToBytes s = some bytes ∧
            text (bytesToHex bytes) = s.map lowerCase)) ↔
        (s.length % 2 = 0 → (∀ w ∈ windows s, Readable w.1 w.2) →
          ∀ w ∈ windows s, IsHex w.1 ∧ IsHex w.2)) := by
  refine ⟨hexToBytes_bytesToHex, ⟨fun ⟨hexact, _⟩ heven hread => ?_, fun hcond => ?_⟩⟩
  · have hsome : hexToBytes s ≠ none := (hexToBytes_ne_none_iff s).mpr ⟨heven, hread⟩
    exact (forall_mem_windows heven).mpr (hexact.mp hsome).2
  · have hback : IsHexText s → ∃ bytes, hexToBytes s = some bytes ∧
        text (bytesToHex bytes) = s.map lowerCase := fun ⟨heven, hex⟩ =>
      hexToBytes_of_isHex heven ((forall_mem_windows heven).mpr hex)
    refine ⟨⟨fun hsome => ?_, fun hex => ?_⟩, hback⟩
    · obtain ⟨heven, hread⟩ := (hexToBytes_ne_none_iff s).mp hsome
      exact ⟨heven, (forall_mem_windows heven).mp (hcond heven hread)⟩
    · obtain ⟨bytes, hbytes, -⟩ := hback hex
      rw [hbytes]
      exact Option.some_ne_none bytes

/-- `1g` is read as the byte 1. -/
theorem hexToBytes_garbage :
    ¬ ((∀ bytes, hexToBytes (text (bytesToHex bytes)) = some bytes) ∧
      ∀ s, (hexToBytes s ≠ none ↔ IsHexText s) ∧
        (IsHexText s → ∃ bytes, hexToBytes s = some bytes ∧
          text (bytesToHex bytes) = s.map lowerCase)) := by
  rintro ⟨-, hall⟩
  have hread : hexToBytes (text (ascii "1g")) ≠ none := by decide +kernel
  have hno : (text (ascii "1g")).all (fun u => (hexDigit u).isSome) = false := by decide +kernel
  have hex : (text (ascii "1g")).all (fun u => (hexDigit u).isSome) = true :=
    List.all_eq_true.mpr ((hall _).1.mp hread).2
  rw [hno] at hex
  cases hex

end HashHush.Web
