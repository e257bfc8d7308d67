import HashHush.Util.Codec
import Mathlib.Algebra.Order.Floor.Div

/-!
# Base64 there and back

`util::base64Decode` reads a text character by character through a 32-bit shift register, of which
it only ever looks at the bits that have not been taken out yet.  `toNat_push` is what the register
holds after a character, modulo what has been shifted out of it, and `decodeFrom_group` concludes
that four characters of an encoding give their three bytes back whatever the register held before.

`base64_spec` has the round trip, the blanks that may be inserted, and exactly which texts are
refused.
-/

namespace HashHush

/-! ## The decoder -/

/-- The blanks that the decoder skips. -/
def isBlank (c : UInt8) : Bool :=
  c = '\n'.toNat.toUInt8 || c = '\r'.toNat.toUInt8 || c = ' '.toNat.toUInt8 ||
    c = '\t'.toNat.toUInt8

/-- The entry of `table` for a character, where it is not negative. -/
def b64Value (c : UInt8) : Option UInt32 := (kB64.idxOf? c).map Nat.toUInt32

/-- Shift six bits into the register. -/
def push (buf v : UInt32) : UInt32 := (buf <<< 6) ||| v

/-- Take a byte out of the register, above the bits that stay. -/
def taken (buf : UInt32) (bits : ℕ) : UInt8 := ((buf >>> bits.toUInt32) &&& 0xFF).toUInt8

/-- The loop of `base64Decode`, with the register and the number of its bits still to be taken. -/
def decodeFrom (buf : UInt32) (bits : ℕ) : Str → Option (List UInt8)
  | [] => some []
  | c :: s =>
      if c = '='.toNat.toUInt8 then some []
      else if isBlank c then decodeFrom buf bits s
      else
        match b64Value c with
        | none => none
        | some v =>
            if 8 ≤ bits + 6 then
              (decodeFrom (push buf v) (bits + 6 - 8) s).map (taken (push buf v) (bits + 6 - 8) :: ·)
            else decodeFrom (push buf v) (bits + 6) s

/-- `util::base64Decode`. -/
def base64Decode (s : Str) : Option (List UInt8) := decodeFrom 0 0 s

/-! ## Characters -/

lemma b64Value_eq_none {c : UInt8} : b64Value c = none ↔ c ∉ kB64 := by
  rw [b64Value, Option.map_eq_none_iff, List.idxOf?_eq_none_iff]

/-- A character of the alphabet is read as its number, and is neither padding nor a blank. -/
lemma kB64_getD {i : ℕ} (hi : i < 64) : b64Value (kB64.getD i 0) = some i.toUInt32 ∧
    kB64.getD i 0 ≠ '='.toNat.toUInt8 ∧ isBlank (kB64.getD i 0) = false := by
  have key : ∀ i < 64, b64Value (kB64.getD i 0) = some i.toUInt32 ∧
      kB64.getD i 0 ≠ '='.toNat.toUInt8 ∧ isBlank (kB64.getD i 0) = false := by decide +kernel
  exact key i hi

lemma b64Char_lt (v : UInt32) : (v &&& 0x3F).toNat < 64 := by
  rw [UInt32.toNat_and]
  exact Nat.lt_succ_of_le Nat.and_le_right

lemma b64Value_b64Char (v : UInt32) : b64Value (b64Char v) = some (v &&& 0x3F) := by
  rw [b64Char, (kB64_getD (b64Char_lt v)).1]
  simp

lemma b64Char_ne_pad (v : UInt32) : b64Char v ≠ '='.toNat.toUInt8 := (kB64_getD (b64Char_lt v)).2.1

lemma isBlank_b64Char (v : UInt32) : isBlank (b64Char v) = false := (kB64_getD (b64Char_lt v)).2.2

/-! ## The register -/

/-- What the register holds after six more bits. -/
lemma toNat_push {buf v : UInt32} (hv : v.toNat < 64) :
    (push buf v).toNat = (64 * buf.toNat + v.toNat) % 2 ^ 32 := by
  have hshift : (buf <<< 6).toNat = (buf.toNat % 2 ^ 26) <<< 6 := by
    have hsix : (6 : UInt32).toNat % 32 = 6 := rfl
    rw [UInt32.toNat_shiftLeft, hsix, Nat.shiftLeft_eq, Nat.shiftLeft_eq]
    omega
  rw [push, UInt32.toNat_or, hshift, ← Nat.shiftLeft_add_eq_or_of_lt hv, Nat.shiftLeft_eq]
  omega

/-- The byte that is taken out of the register above `k` bits. -/
lemma toNat_taken (buf : UInt32) {k : ℕ} (hk : k < 32) :
    (taken buf k).toNat = buf.toNat / 2 ^ k % 256 := by
  have hshift : k.toUInt32.toNat % 32 = k := by
    rw [UInt32.toNat_ofNat']
    omega
  have hlow : ((buf >>> k.toUInt32) &&& 0xFF).toNat = buf.toNat / 2 ^ k % 256 := by
    rw [UInt32.toNat_and, UInt32.toNat_shiftRight, hshift, Nat.shiftRight_eq_div_pow]
    exact Nat.and_two_pow_sub_one_eq_mod _ 8
  rw [taken, UInt32.toNat_toUInt8, hlow]
  omega

/-- Six bits of a 24-bit group. -/
lemma toNat_sixBits (v : UInt32) {k : ℕ} (hk : k < 32) :
    ((v >>> k.toUInt32) &&& 0x3F).toNat = v.toNat / 2 ^ k % 64 := by
  have hshift : k.toUInt32.toNat % 32 = k := by
    rw [UInt32.toNat_ofNat']
    omega
  rw [UInt32.toNat_and, UInt32.toNat_shiftRight, hshift, Nat.shiftRight_eq_div_pow]
  exact Nat.and_two_pow_sub_one_eq_mod _ 6

/-- The group of three bytes. -/
lemma toNat_group (a b c : UInt8) :
    ((a.toUInt32 <<< 16) ||| (b.toUInt32 <<< 8) ||| c.toUInt32).toNat
      = 65536 * a.toNat + 256 * b.toNat + c.toNat := by
  have ha := a.toNat_lt
  have hb := b.toNat_lt
  have hc := c.toNat_lt
  have hshift16 : (a.toUInt32 <<< 16).toNat = a.toNat <<< 16 := by
    have hplaces : (16 : UInt32).toNat % 32 = 16 := rfl
    rw [UInt32.toNat_shiftLeft, hplaces, UInt8.toNat_toUInt32, Nat.shiftLeft_eq]
    omega
  have hshift8 : (b.toUInt32 <<< 8).toNat = b.toNat <<< 8 := by
    have hplaces : (8 : UInt32).toNat % 32 = 8 := rfl
    rw [UInt32.toNat_shiftLeft, hplaces, UInt8.toNat_toUInt32, Nat.shiftLeft_eq]
    omega
  have hlow : b.toNat <<< 8 ||| c.toNat = b.toNat <<< 8 + c.toNat :=
    (Nat.shiftLeft_add_eq_or_of_lt (by omega) _).symm
  have hlt : b.toNat <<< 8 + c.toNat < 2 ^ 16 := by
    rw [Nat.shiftLeft_eq]
    omega
  rw [UInt32.toNat_or, UInt32.toNat_or, hshift16, hshift8, UInt8.toNat_toUInt32, Nat.or_assoc, hlow,
    ← Nat.shiftLeft_add_eq_or_of_lt hlt, Nat.shiftLeft_eq, Nat.shiftLeft_eq]
  omega

/-! ## The round trip -/

/-- The first character of a group is kept in the register. -/
lemma decodeFrom_first (buf v : UInt32) (s : Str) :
    decodeFrom buf 0 (b64Char v :: s) = decodeFrom (push buf (v &&& 0x3F)) 6 s := by
  rw [decodeFrom, if_neg (b64Char_ne_pad v), isBlank_b64Char, b64Value_b64Char]
  rfl

/-- Every other character completes a byte. -/
lemma decodeFrom_next (buf v : UInt32) (bits : ℕ) (s : Str) {b : UInt8}
    (hb : taken (push buf (v &&& 0x3F)) bits = b) :
    decodeFrom buf (bits + 2) (b64Char v :: s)
      = (decodeFrom (push buf (v &&& 0x3F)) bits s).map (b :: ·) := by
  rw [decodeFrom, if_neg (b64Char_ne_pad v), isBlank_b64Char, b64Value_b64Char, ← hb]
  dsimp only
  rw [if_neg Bool.false_ne_true, if_pos (by omega), Nat.add_sub_cancel (m := 8) (n := bits)]

lemma decodeFrom_pad (buf : UInt32) (bits : ℕ) (s : Str) :
    decodeFrom buf bits ('='.toNat.toUInt8 :: s) = some [] := by
  rw [decodeFrom, if_pos rfl]

section Group

variable {v : UInt32} {a b c : UInt8} (buf : UInt32)
variable (hv : v.toNat = 65536 * a.toNat + 256 * b.toNat + c.toNat)

include hv

lemma toNat_first : ((v >>> 18) &&& 0x3F).toNat = a.toNat / 4 := by
  have hsix : ((v >>> 18) &&& 0x3F).toNat = v.toNat / 2 ^ 18 % 64 :=
    toNat_sixBits v (k := 18) (by norm_num)
  have := a.toNat_lt
  have := b.toNat_lt
  have := c.toNat_lt
  omega

lemma toNat_second : ((v >>> 12) &&& 0x3F).toNat = a.toNat % 4 * 16 + b.toNat / 16 := by
  have hsix : ((v >>> 12) &&& 0x3F).toNat = v.toNat / 2 ^ 12 % 64 :=
    toNat_sixBits v (k := 12) (by norm_num)
  have := b.toNat_lt
  have := c.toNat_lt
  omega

lemma toNat_third : ((v >>> 6) &&& 0x3F).toNat = b.toNat % 16 * 4 + c.toNat / 64 := by
  have hsix : ((v >>> 6) &&& 0x3F).toNat = v.toNat / 2 ^ 6 % 64 :=
    toNat_sixBits v (k := 6) (by norm_num)
  have := c.toNat_lt
  omega

lemma toNat_fourth : (v &&& 0x3F).toNat = c.toNat % 64 := by
  have hsix : (v &&& 0x3F).toNat = v.toNat % 64 := by
    rw [UInt32.toNat_and]
    exact Nat.and_two_pow_sub_one_eq_mod _ 6
  omega

/-- The second character completes the first byte. -/
lemma taken_second :
    taken (push (push buf ((v >>> 18) &&& 0x3F)) ((v >>> 12) &&& 0x3F)) 4 = a := by
  have := a.toNat_lt
  have := b.toNat_lt
  apply UInt8.toNat_inj.mp
  rw [toNat_taken _ (by norm_num), toNat_push (b64Char_lt _), toNat_push (b64Char_lt _),
    toNat_first hv, toNat_second hv]
  omega

/-- The third character completes the second byte. -/
lemma taken_third :
    taken (push (push buf ((v >>> 12) &&& 0x3F)) ((v >>> 6) &&& 0x3F)) 2 = b := by
  have := b.toNat_lt
  have := c.toNat_lt
  apply UInt8.toNat_inj.mp
  rw [toNat_taken _ (by norm_num), toNat_push (b64Char_lt _), toNat_push (b64Char_lt _),
    toNat_second hv, toNat_third hv]
  omega

/-- The fourth character completes the third byte. -/
lemma taken_fourth : taken (push (push buf ((v >>> 6) &&& 0x3F)) (v &&& 0x3F)) 0 = c := by
  have := c.toNat_lt
  apply UInt8.toNat_inj.mp
  rw [toNat_taken _ (by norm_num), toNat_push (b64Char_lt _), toNat_push (b64Char_lt _),
    toNat_third hv, toNat_fourth hv]
  omega

end Group

/-- Every text is decoded to the bytes that were encoded, whatever the register holds. -/
lemma decodeFrom_base64Encode (bytes : List UInt8) :
    ∀ buf, decodeFrom buf 0 (base64Encode bytes) = some bytes := by
  fun_induction base64Encode bytes with
  | case1 a b c rest v ih =>
      intro buf
      have hv : v.toNat = 65536 * a.toNat + 256 * b.toNat + c.toNat := toNat_group a b c
      rw [decodeFrom_first, decodeFrom_next _ _ 4 _ (taken_second buf hv),
        decodeFrom_next _ _ 2 _ (taken_third _ hv), decodeFrom_next _ _ 0 _ (taken_fourth _ hv), ih]
      rfl
  | case2 a b v =>
      intro buf
      have hgroup : (a.toUInt32 <<< 16) ||| (b.toUInt32 <<< 8) ||| (0 : UInt8).toUInt32 = v :=
        UInt32.or_zero
      have hv : v.toNat = 65536 * a.toNat + 256 * b.toNat + (0 : UInt8).toNat := by
        rw [← hgroup]
        exact toNat_group a b 0
      rw [decodeFrom_first, decodeFrom_next _ _ 4 _ (taken_second buf hv),
        decodeFrom_next _ _ 2 _ (taken_third _ hv), decodeFrom_pad]
      rfl
  | case3 a v =>
      intro buf
      have hgroup : (a.toUInt32 <<< 16) ||| ((0 : UInt8).toUInt32 <<< 8) ||| (0 : UInt8).toUInt32
          = v := by
        simp [v]
      have hv : v.toNat = 65536 * a.toNat + 256 * (0 : UInt8).toNat + (0 : UInt8).toNat := by
        rw [← hgroup]
        exact toNat_group a 0 0
      rw [decodeFrom_first, decodeFrom_next _ _ 4 _ (taken_second buf hv), decodeFrom_pad]
      rfl
  | case4 => exact fun _ => rfl

/-! ## Blanks, and what is refused -/

/-- `Inserts t s`: inserting blanks into `t` gives `s`. -/
inductive Inserts : Str → Str → Prop
  | nil : Inserts [] []
  | char (c : UInt8) {t s : Str} : Inserts t s → Inserts (c :: t) (c :: s)
  | blank {c : UInt8} (hc : isBlank c = true) {t s : Str} : Inserts t s → Inserts t (c :: s)

lemma decodeFrom_blank {c : UInt8} (hc : isBlank c = true) (buf : UInt32) (bits : ℕ) (s : Str) :
    decodeFrom buf bits (c :: s) = decodeFrom buf bits s := by
  have hpad : c ≠ '='.toNat.toUInt8 := by
    rintro rfl
    exact absurd hc (by decide)
  rw [decodeFrom, if_neg hpad, if_pos hc]

/-- Blanks make no difference. -/
lemma decodeFrom_of_inserts {t s : Str} (h : Inserts t s) : ∀ buf bits,
    decodeFrom buf bits s = decodeFrom buf bits t := by
  induction h with
  | nil => exact fun _ _ => rfl
  | char c h ih =>
      intro buf bits
      rw [decodeFrom, decodeFrom]
      simp only [ih]
  | blank hc h ih =>
      intro buf bits
      rw [decodeFrom_blank hc, ih]

/-- The decoder refuses a text for a character before the first `=` that is neither in the alphabet
nor a blank, and for nothing else. -/
lemma decodeFrom_eq_none_iff (s : Str) : ∀ buf bits, decodeFrom buf bits s = none ↔
    ∃ c ∈ s.takeWhile (· ≠ '='.toNat.toUInt8), c ∉ kB64 ∧ isBlank c = false := by
  induction s with
  | nil => simp [decodeFrom]
  | cons c s ih =>
      intro buf bits
      rw [decodeFrom]
      by_cases hpad : c = '='.toNat.toUInt8
      · rw [if_pos hpad, List.takeWhile_cons_of_neg (by simpa using hpad)]
        simp
      · rw [if_neg hpad, List.takeWhile_cons_of_pos (by simpa using hpad), List.exists_mem_cons_iff]
        cases hblank : isBlank c with
        | true => simp [ih]
        | false =>
            cases hvalue : b64Value c with
            | none => simp [b64Value_eq_none.mp hvalue]
            | some v =>
                have hmem : c ∈ kB64 := by
                  by_contra hout
                  rw [b64Value_eq_none.mpr hout] at hvalue
                  cases hvalue
                rw [if_neg Bool.false_ne_true, or_iff_right fun h => h.1 hmem]
                dsimp only
                split
                · rw [Option.map_eq_none_iff, ih]
                · rw [ih]

/-- **Base64 there and back.**  An encoding has four characters for every three bytes begun, it is
decoded to the bytes it stands for, also with blanks inserted anywhere, and a text is refused exactly
if some character before its first `=` is neither in the alphabet nor a blank. -/
theorem base64_spec :
    (∀ b : List UInt8, (base64Encode b).length = 4 * (b.length ⌈/⌉ 3) ∧
      base64Decode (base64Encode b) = some b) ∧
    (∀ (b : List UInt8) (s : Str), Inserts (base64Encode b) s → base64Decode s = some b) ∧
    ∀ s : Str, base64Decode s = none ↔
      ∃ c ∈ s.takeWhile (· ≠ '='.toNat.toUInt8), c ∉ kB64 ∧ isBlank c = false := by
  refine ⟨fun b => ⟨?_, decodeFrom_base64Encode b 0⟩, fun b s h => ?_, fun s => ?_⟩
  · rw [length_base64Encode, Nat.ceilDiv_eq_add_pred_div]
    rfl
  · rw [base64Decode, decodeFrom_of_inserts h]
    exact decodeFrom_base64Encode b 0
  · exact decodeFrom_eq_none_iff s 0 0

/-- Two bytes, with a blank inserted. -/
theorem base64_spec_sample : base64Decode (ascii "aG k=") = some [104, 105] := by
  have hencode : base64Encode [104, 105] = [97, 71, 107, 61] := by decide +kernel
  have htext : ascii "aG k=" = [97, 71, 32, 107, 61] := by simp [ascii]
  refine base64_spec.2.1 [104, 105] (ascii "aG k=") ?_
  rw [hencode, htext]
  exact .char _ (.char _ (.blank (by decide) (.char _ (.char _ .nil))))

end HashHush
