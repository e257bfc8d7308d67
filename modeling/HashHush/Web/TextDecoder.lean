import HashHush.Web.JsString

/-!
# `TextDecoder`

The UTF-8 decoder of the encoding standard, which never fails: bytes that encode no character become
U+FFFD.  `decode_encode` says that a string without lone surrogates comes back from its encoding,
unless it begins with a byte order mark, which the decoder drops.
-/

namespace HashHush.Web

namespace TextDecoder

/-- What the decoder keeps of a character that has begun. -/
structure State where
  codePoint : ℕ := 0
  bytesSeen : ℕ := 0
  bytesNeeded : ℕ := 0
  lower : ℕ := 0x80
  upper : ℕ := 0xBF

def replacement : Char := Char.ofNat 0xFFFD

def byteOrderMark : Char := Char.ofNat 0xFEFF

/-- A byte where no character has begun. -/
def firstByte (b : ℕ) : State × List Char :=
  if b ≤ 0x7F then ({}, [Char.ofNat b])
  else if 0xC2 ≤ b ∧ b ≤ 0xDF then ({ bytesNeeded := 1, codePoint := b % 0x20 }, [])
  else if 0xE0 ≤ b ∧ b ≤ 0xEF then
    ({ bytesNeeded := 2
       codePoint := b % 0x10
       lower := if b = 0xE0 then 0xA0 else 0x80
       upper := if b = 0xED then 0x9F else 0xBF }, [])
  else if 0xF0 ≤ b ∧ b ≤ 0xF4 then
    ({ bytesNeeded := 3
       codePoint := b % 0x08
       lower := if b = 0xF0 then 0x90 else 0x80
       upper := if b = 0xF4 then 0x8F else 0xBF }, [])
  else ({}, [replacement])

/-- The next byte, and the characters that it completes. -/
def step (σ : State) (b : ℕ) : State × List Char :=
  if σ.bytesNeeded = 0 then firstByte b
  else if b < σ.lower ∨ σ.upper < b then
    -- the byte that does not belong to the character may begin another one
    let (next, cs) := firstByte b
    (next, replacement :: cs)
  else if σ.bytesSeen + 1 = σ.bytesNeeded then ({}, [Char.ofNat (σ.codePoint * 0x40 + b % 0x40)])
  else
    ({ codePoint := σ.codePoint * 0x40 + b % 0x40
       bytesSeen := σ.bytesSeen + 1
       bytesNeeded := σ.bytesNeeded }, [])

/-- The rest of the input. -/
def run (σ : State) : List UInt8 → List Char
  | [] => if σ.bytesNeeded = 0 then [] else [replacement]
  | b :: bytes => (step σ b.toNat).2 ++ run (step σ b.toNat).1 bytes

/-- A byte order mark in front is dropped. -/
def dropMark : List Char → List Char
  | [] => []
  | c :: cs => if c = byteOrderMark then cs else c :: cs

end TextDecoder

/-- `new TextDecoder().decode`. -/
def decode (bytes : List UInt8) : JsString := units (TextDecoder.dropMark (TextDecoder.run {} bytes))

namespace TextDecoder

variable {σ : State} {b : UInt8} {bytes : List UInt8}

lemma run_cons {n : ℕ} (hn : b.toNat = n) :
    run σ (b :: bytes) = (step σ n).2 ++ run (step σ n).1 bytes := by
  rw [run, hn]

/-- A byte that continues a character. -/
lemma run_continue {n codePoint seen needed lower upper : ℕ} (hn : b.toNat = n)
    (hrange : lower ≤ n ∧ n ≤ upper) (hmore : seen + 1 < needed) :
    run ⟨codePoint, seen, needed, lower, upper⟩ (b :: bytes)
      = run ⟨codePoint * 0x40 + n % 0x40, seen + 1, needed, 0x80, 0xBF⟩ bytes := by
  rw [run_cons hn, step, if_neg (by simp only; omega), if_neg (by simp only; omega),
    if_neg (by simp only; omega)]
  rfl

/-- The last byte of a character. -/
lemma run_last {n codePoint seen needed lower upper : ℕ} (hn : b.toNat = n)
    (hrange : lower ≤ n ∧ n ≤ upper) (hlast : seen + 1 = needed) :
    run ⟨codePoint, seen, needed, lower, upper⟩ (b :: bytes)
      = Char.ofNat (codePoint * 0x40 + n % 0x40) :: run {} bytes := by
  rw [run_cons hn, step, if_neg (by simp only; omega), if_neg (by simp only; omega),
    if_pos hlast]
  rfl

lemma toNat_byte {n : ℕ} (h : n < 0x100) : (UInt8.ofNat n).toNat = n := by
  rw [UInt8.toNat_ofNat']
  omega

/-- The bytes of a character are decoded to it. -/
lemma run_utf8EncodeChar (c : Char) :
    run {} (String.utf8EncodeChar c ++ bytes) = c :: run {} bytes := by
  have hval : c.val.toNat = c.toNat := rfl
  have hchar := char_toNat c
  simp only [String.utf8EncodeChar, hval]
  split
  · rw [List.cons_append, run_cons (toNat_byte (by omega)), step, if_pos rfl, firstByte,
      if_pos (by omega), Char.ofNat_toNat]
    rfl
  · split
    · have hcode : (c.toNat / 64 % 0x20 + 0xC0) % 0x20 * 0x40 + (c.toNat % 0x40 + 0x80) % 0x40
          = c.toNat := by omega
      rw [List.cons_append, run_cons (toNat_byte (by omega)), step, if_pos rfl, firstByte,
        if_neg (by omega), if_pos (by omega)]
      rw [List.cons_append, List.nil_append, List.nil_append,
        run_last (toNat_byte (by omega)) (by omega) (by omega), hcode, Char.ofNat_toNat]
    · split
      · have hcode : ((c.toNat / 4096 % 0x10 + 0xE0) % 0x10 * 0x40
            + (c.toNat / 64 % 0x40 + 0x80) % 0x40) * 0x40 + (c.toNat % 0x40 + 0x80) % 0x40
            = c.toNat := by omega
        rw [List.cons_append, run_cons (toNat_byte (by omega)), step, if_pos rfl, firstByte,
          if_neg (by omega), if_neg (by omega), if_pos (by omega)]
        -- the second byte is in the range that the first one sets
        rw [List.cons_append, List.cons_append, List.nil_append, List.nil_append,
          run_continue (toNat_byte (by omega)) (by constructor <;> split <;> omega) (by omega),
          run_last (toNat_byte (by omega)) (by omega) (by omega), hcode, Char.ofNat_toNat]
      · have hcode : (((c.toNat / 262144 % 0x08 + 0xF0) % 0x08 * 0x40
            + (c.toNat / 4096 % 0x40 + 0x80) % 0x40) * 0x40
            + (c.toNat / 64 % 0x40 + 0x80) % 0x40) * 0x40 + (c.toNat % 0x40 + 0x80) % 0x40
            = c.toNat := by omega
        rw [List.cons_append, run_cons (toNat_byte (by omega)), step, if_pos rfl, firstByte,
          if_neg (by omega), if_neg (by omega), if_neg (by omega), if_pos (by omega)]
        rw [List.cons_append, List.cons_append, List.cons_append, List.nil_append, List.nil_append,
          run_continue (toNat_byte (by omega)) (by constructor <;> split <;> omega) (by omega),
          run_continue (toNat_byte (by omega)) (by omega) (by omega),
          run_last (toNat_byte (by omega)) (by omega) (by omega), hcode, Char.ofNat_toNat]

lemma run_flatMap (cs : List Char) : run {} (cs.flatMap String.utf8EncodeChar) = cs := by
  induction cs with
  | nil => rfl
  | cons c cs ih => rw [List.flatMap_cons, run_utf8EncodeChar, ih]

end TextDecoder

/-- A string without lone surrogates comes back, if no byte order mark is in front. -/
lemma decode_encode {s : JsString} (hs : IsWellFormed s) (hmark : s.head? ≠ some 0xFEFF) :
    decode (encode s) = s := by
  obtain ⟨cs, rfl⟩ := hs
  rw [decode, encode_units, TextDecoder.run_flatMap]
  cases cs with
  | nil => rfl
  | cons c cs =>
      have hfirst : charUnits TextDecoder.byteOrderMark = [0xFEFF] := by decide
      have hc : c ≠ TextDecoder.byteOrderMark := by
        rintro rfl
        apply hmark
        rw [units, List.flatMap_cons, hfirst]
        rfl
      rw [TextDecoder.dropMark, if_neg hc]

end HashHush.Web
