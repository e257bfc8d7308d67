import HashHush.Util.Sha256

/-!
# Text encodings of byte strings

The codecs of `util.cpp` that turn drawn or hashed bytes into identifiers and blobs: lowercase
hex for tokens, peer ids and nonces, the URL-safe alphabet for room ids, and padded base64 for
the parts of a challenge.

What the rest of the development uses of them is that hex loses nothing (`toHex_injective`),
that the length of a base64 text depends on the number of bytes only (`length_base64Encode`),
and that neither it nor a room id contains a NUL (`zero_notMem_base64Encode`,
`zero_notMem_roomIdOfBytes`).
-/

namespace HashHush

/-! ## Hexadecimal -/

def kHex : Str := ascii "0123456789abcdef"

/-- The character of a number below sixteen. -/
def hexChar (n : UInt8) : UInt8 := kHex.getD n.toNat 0

/-- Two lowercase hex characters a byte, high half first. -/
def toHex (data : List UInt8) : Str :=
  data.flatMap fun b : UInt8 => [hexChar (b >>> 4), hexChar (b &&& 0x0F)]

@[simp] lemma length_toHex (data : List UInt8) : (toHex data).length = 2 * data.length := by
  simp [toHex, List.length_flatMap, mul_comm]

lemma hexChar_inj {m n : UInt8} (hm : m.toNat < 16) (hn : n.toNat < 16)
    (h : hexChar m = hexChar n) : m = n := by
  have key : ∀ i < 16, ∀ j < 16, kHex.getD i 0 = kHex.getD j 0 → i = j := by
    decide +kernel
  exact UInt8.toNat_inj.mp (key _ hm _ hn h)

lemma high_low_inj {a b : UInt8} (h₁ : a >>> 4 = b >>> 4) (h₂ : a &&& 0x0F = b &&& 0x0F) :
    a = b := by
  have high : ∀ x : UInt8, (x >>> 4).toNat = x.toNat / 16 := by
    intro x
    simp [UInt8.toNat_shiftRight, Nat.shiftRight_eq_div_pow]
  have low : ∀ x : UInt8, (x &&& 0x0F).toNat = x.toNat % 16 := by
    intro x
    rw [UInt8.toNat_and]
    exact Nat.and_two_pow_sub_one_eq_mod x.toNat 4
  have h₁' : a.toNat / 16 = b.toNat / 16 := by rw [← high, ← high, h₁]
  have h₂' : a.toNat % 16 = b.toNat % 16 := by rw [← low, ← low, h₂]
  exact UInt8.toNat_inj.mp (by omega)

lemma toNat_shiftRight_four_lt (x : UInt8) : (x >>> 4).toNat < 16 := by
  have := x.toNat_lt
  simp only [UInt8.toNat_shiftRight, UInt8.reduceToNat, Nat.reduceMod,
    Nat.shiftRight_eq_div_pow]
  omega

lemma toNat_and_fifteen_lt (x : UInt8) : (x &&& 0x0F).toNat < 16 := by
  rw [UInt8.toNat_and]
  exact Nat.lt_succ_of_le Nat.and_le_right

/-- The digest of a short text, as it is published with the algorithm. -/
example : toHex (Sha256.sha256 (ascii "abc"))
    = ascii "ba7816bf8f01cfea414140de5dae2223b00361a396177a9cb410ff61f20015ad" := by
  decide +kernel

/-- Hex loses nothing. -/
lemma toHex_injective : Function.Injective toHex := by
  intro a
  induction a with
  | nil =>
      intro b h
      cases b with
      | nil => rfl
      | cons y b => simp [toHex] at h
  | cons x a ih =>
      intro b h
      cases b with
      | nil => simp [toHex] at h
      | cons y b =>
          simp only [toHex, List.flatMap_cons, List.cons_append, List.nil_append,
            List.cons.injEq] at h
          obtain ⟨hhigh, hlow, hrest⟩ := h
          have hx : x = y := high_low_inj
            (hexChar_inj (toNat_shiftRight_four_lt x) (toNat_shiftRight_four_lt y) hhigh)
            (hexChar_inj (toNat_and_fifteen_lt x) (toNat_and_fifteen_lt y) hlow)
          rw [hx, ih hrest]

/-- `util::peerIdFromToken`: the first sixteen hex characters of the token's SHA-256. -/
def peerIdFromToken (token : Str) : Str := toHex ((Sha256.sha256 token).take 8)

/-! ## Room ids -/

def kRoomAlphabet : Str :=
  ascii "ABCDEFGHIJKLMNOPQRSTUVWXYZabcdefghijklmnopqrstuvwxyz0123456789_-"

/-- `util::randomRoomId` on the bytes it drew. -/
def roomIdOfBytes (bytes : List UInt8) : Str :=
  bytes.map fun b => kRoomAlphabet.getD (b &&& 0x3F).toNat 0

lemma zero_notMem_roomIdOfBytes (bytes : List UInt8) : 0 ∉ roomIdOfBytes bytes := by
  have key : ∀ i < 64, kRoomAlphabet.getD i 0 ≠ 0 := by decide +kernel
  intro h
  obtain ⟨b, -, hb⟩ := List.mem_map.mp h
  refine key _ ?_ hb
  rw [UInt8.toNat_and]
  exact Nat.lt_succ_of_le Nat.and_le_right

/-! ## Base64 -/

def kB64 : Str := ascii "ABCDEFGHIJKLMNOPQRSTUVWXYZabcdefghijklmnopqrstuvwxyz0123456789+/"

/-- The character of a number below 64. -/
def b64Char (v : UInt32) : UInt8 := kB64.getD (v &&& 0x3F).toNat 0

/-- `util::base64Encode`: four characters for three bytes, padded at the end. -/
def base64Encode : List UInt8 → Str
  | a :: b :: c :: rest =>
      let v := (a.toUInt32 <<< 16) ||| (b.toUInt32 <<< 8) ||| c.toUInt32
      b64Char (v >>> 18) :: b64Char (v >>> 12) :: b64Char (v >>> 6) :: b64Char v
        :: base64Encode rest
  | [a, b] =>
      let v := (a.toUInt32 <<< 16) ||| (b.toUInt32 <<< 8)
      [b64Char (v >>> 18), b64Char (v >>> 12), b64Char (v >>> 6), '='.toNat.toUInt8]
  | [a] =>
      let v := a.toUInt32 <<< 16
      [b64Char (v >>> 18), b64Char (v >>> 12), '='.toNat.toUInt8, '='.toNat.toUInt8]
  | [] => []

lemma length_base64Encode (bytes : List UInt8) :
    (base64Encode bytes).length = 4 * ((bytes.length + 2) / 3) := by
  fun_induction base64Encode bytes with
  | case1 a b c rest v ih =>
      simp only [List.length_cons, ih]
      omega
  | case2 a b v => simp
  | case3 a v => simp
  | case4 => rfl

lemma b64Char_ne_zero (v : UInt32) : b64Char v ≠ 0 := by
  have key : ∀ i < 64, kB64.getD i 0 ≠ 0 := by decide +kernel
  refine key _ ?_
  rw [UInt32.toNat_and]
  exact Nat.lt_succ_of_le Nat.and_le_right

/-- A base64 text survives a NUL-terminated pointer. -/
lemma zero_notMem_base64Encode (bytes : List UInt8) : 0 ∉ base64Encode bytes := by
  fun_induction base64Encode bytes with
  | case1 a b c rest v ih =>
      simp only [List.mem_cons, not_or]
      exact ⟨(b64Char_ne_zero _).symm, (b64Char_ne_zero _).symm, (b64Char_ne_zero _).symm,
        (b64Char_ne_zero _).symm, ih⟩
  | case2 a b v =>
      simp [(b64Char_ne_zero _).symm]
  | case3 a v =>
      simp [(b64Char_ne_zero _).symm]
  | case4 => simp

example : base64Encode (ascii "hush") = ascii "aHVzaA==" := by decide +kernel

end HashHush
