import HashHush.Properties.Verification
import HashHush.Util.MerkleDamgard

/-!
# What the bundled SHA-256 computes, and what its digests bind

The hasher of `sha256.cpp` collects bytes as they come and pads what is left in place.
`digest_of_chunks` says that what comes out is the digest of the standard: however the message is
handed over, it is followed by a set bit, zeros and its length in bits, cut into blocks of 64 bytes
and chained.

The rest is about forgeries.  Two messages with one digest, or with one authentication code, make
the compression function collide at a place of their own chains (`sha256_binds`, `hmac_binds`); so
the tag of an issued captcha token is good for that token alone (`tag_binds`).
-/

namespace HashHush.Sha256

open MerkleDamgard

/-! ## The digest of a padded message -/

/-- A number in eight bytes, most significant first. -/
def lengthField (n : ℕ) : List UInt8 := (List.range 8).map fun i => UInt8.ofNat (n / 256 ^ (7 - i))

/-- As few zeros as bring a message of `n` bytes and a set bit to eight bytes below a multiple of
the block length. -/
def zeros (n : ℕ) : ℕ := (119 - n % 64) % 64

/-- What is put behind a message of `n` bytes. -/
def padding (n : ℕ) : List UInt8 := 0x80 :: List.replicate (zeros n) 0 ++ lengthField (8 * n)

/-- The blocks of a message with its padding. -/
structure Padded (m : List UInt8) (blocks : List (List UInt8)) : Prop where
  full : ∀ b ∈ blocks, b.length = 64
  flatten_eq : blocks.flatten = m ++ padding m.length

/-- The chaining value before the first block. -/
def initial : Words := ({} : Hasher).state

/-- The chaining value as bytes. -/
def output (s : Words) : List UInt8 := [s.a, s.b, s.c, s.d, s.e, s.f, s.g, s.h].flatMap wordBytes

lemma digest_eq (h : Hasher) : digest h = output (pad h) := rfl

/-- No fewer zeros do. -/
lemma isLeast_zeros (n : ℕ) : IsLeast {z | (n + 1 + z) % 64 = 56} (zeros n) := by
  unfold zeros
  refine ⟨?_, fun z hz => ?_⟩
  · change (n + 1 + (119 - n % 64) % 64) % 64 = 56
    omega
  · have hz : (n + 1 + z) % 64 = 56 := hz
    omega

lemma Padded.unique {m : List UInt8} {blocks blocks' : List (List UInt8)} (h : Padded m blocks)
    (h' : Padded m blocks') : blocks = blocks' :=
  eq_of_flatten_eq (by norm_num) h.full h'.full (h.flatten_eq.trans h'.flatten_eq.symm)

/-! ## The hasher computes it -/

/-- The hasher has taken up this message. -/
structure Absorbed (h : Hasher) (m : List UInt8) (blocks : List (List UInt8)) : Prop where
  cut : IsCut 64 m blocks h.data
  state_eq : h.state = blocks.foldl transform initial
  bitlen_eq : h.bitlen = UInt64.ofNat (512 * blocks.length)

lemma absorbed_empty : Absorbed {} [] [] := ⟨.nil (by norm_num), rfl, rfl⟩

/-- Taking up one byte. -/
lemma Absorbed.push {h : Hasher} {m : List UInt8} {blocks : List (List UInt8)}
    (ha : Absorbed h m blocks) (b : UInt8) : ∃ blocks', Absorbed (push h b) (m ++ [b]) blocks' := by
  by_cases hfull : h.data.length + 1 = 64
  · refine ⟨blocks ++ [h.data ++ [b]], ?_⟩
    have hpush : Sha256.push h b = ⟨transform h.state (h.data ++ [b]), [], h.bitlen + 512⟩ := by
      simp [Sha256.push, hfull]
    rw [hpush]
    refine ⟨ha.cut.complete b hfull, ?_, ?_⟩
    · rw [List.foldl_append, ← ha.state_eq]
      rfl
    · show h.bitlen + 512 = _
      rw [ha.bitlen_eq, List.length_append, List.length_singleton, Nat.mul_add, UInt64.ofNat_add]
      rfl
  · refine ⟨blocks, ?_⟩
    have hpush : Sha256.push h b = { h with data := h.data ++ [b] } := by
      simp [Sha256.push, hfull]
    rw [hpush]
    exact ⟨ha.cut.grow b hfull, ha.state_eq, ha.bitlen_eq⟩

/-- Taking up a whole message. -/
lemma exists_absorbed (m : List UInt8) : ∃ blocks, Absorbed (update {} m) m blocks := by
  induction m using List.reverseRecOn with
  | nil => exact ⟨[], absorbed_empty⟩
  | append_singleton m b ih =>
      obtain ⟨blocks, ha⟩ := ih
      rw [update, List.foldl_append]
      exact ha.push b

lemma lengthBytes_ofNat (n : ℕ) : lengthBytes (UInt64.ofNat n) = lengthField n := by
  have hbyte : ∀ k ∈ [56, 48, 40, 32, 24, 16, 8],
      (UInt64.ofNat n >>> UInt64.ofNat k).toUInt8 = UInt8.ofNat (n / 2 ^ k) := by
    intro k hk
    apply UInt8.toNat_inj.mp
    simp only [List.mem_cons, List.not_mem_nil, or_false] at hk
    rcases hk with rfl | rfl | rfl | rfl | rfl | rfl | rfl <;>
      simp [UInt64.toNat_shiftRight, Nat.shiftRight_eq_div_pow] <;> omega
  have hlast : (UInt64.ofNat n).toUInt8 = UInt8.ofNat n := by
    apply UInt8.toNat_inj.mp
    simp
  simp only [List.forall_mem_cons] at hbyte
  obtain ⟨h₇, h₆, h₅, h₄, h₃, h₂, h₁, -⟩ := hbyte
  have hfield : lengthField n = [UInt8.ofNat (n / 2 ^ 56), UInt8.ofNat (n / 2 ^ 48),
      UInt8.ofNat (n / 2 ^ 40), UInt8.ofNat (n / 2 ^ 32), UInt8.ofNat (n / 2 ^ 24),
      UInt8.ofNat (n / 2 ^ 16), UInt8.ofNat (n / 2 ^ 8), UInt8.ofNat n] := by
    simp [lengthField, List.range_succ]
  rw [hfield, ← h₇, ← h₆, ← h₅, ← h₄, ← h₃, ← h₂, ← h₁, ← hlast]
  rfl

/-- The length field counts the blocks and the rest. -/
lemma Absorbed.lengthBytes_eq {h : Hasher} {m : List UInt8} {blocks : List (List UInt8)}
    (ha : Absorbed h m blocks) :
    lengthBytes (h.bitlen + h.data.length.toUInt64 * 8) = lengthField (8 * m.length) := by
  have hbits : h.bitlen + h.data.length.toUInt64 * 8 = UInt64.ofNat (8 * m.length) := by
    have hlen : 8 * m.length = 512 * blocks.length + h.data.length * 8 := by
      rw [ha.cut.length_eq]
      ring
    rw [ha.bitlen_eq, hlen, UInt64.ofNat_add, UInt64.ofNat_mul h.data.length]
    rfl
  rw [hbits, lengthBytes_ofNat]

/-- Padding in place completes the chain of the padded message. -/
lemma Absorbed.pad_eq {h : Hasher} {m : List UInt8} {blocks : List (List UInt8)}
    (ha : Absorbed h m blocks) :
    ∃ blocks', Padded m blocks' ∧ pad h = blocks'.foldl transform initial := by
  have hrest := ha.cut.short
  have hmod := ha.cut.length_mod
  have hfield := ha.lengthBytes_eq
  have hlen : (lengthField (8 * m.length)).length = 8 := by simp [lengthField]
  have hmessage : ∀ t, m ++ t = blocks.flatten ++ h.data ++ t := fun t => by
    rw [ha.cut.flatten_append]
  by_cases hshort : h.data.length < 56
  · -- the length fits behind the rest
    have hzeros : zeros m.length = 56 - (h.data ++ [0x80]).length := by
      rw [zeros, hmod, List.length_append, List.length_singleton]
      omega
    let last := h.data ++ [0x80] ++ List.replicate (zeros m.length) 0 ++ lengthField (8 * m.length)
    have hlast : last.length = 64 := by
      simp only [last, List.length_append, List.length_singleton, List.length_replicate, hlen, hzeros]
      omega
    refine ⟨blocks ++ [last], ⟨fun b hb => ?_, ?_⟩, ?_⟩
    · rcases List.mem_append.mp hb with hb | hb
      · exact ha.cut.full b hb
      · rw [List.mem_singleton.mp hb, hlast]
    · rw [List.flatten_append, List.flatten_singleton, padding]
      rw [hmessage]
      simp [last]
    · rw [pad, if_pos hshort, hfield, ha.state_eq, List.foldl_append, ← hzeros]
      rfl
  · -- the rest fills a block of its own
    have hzeros : zeros m.length = (64 - (h.data ++ [0x80]).length) + 56 := by
      rw [zeros, hmod, List.length_append, List.length_singleton]
      omega
    let full := h.data ++ [0x80] ++ List.replicate (64 - (h.data ++ [0x80]).length) 0
    let last := List.replicate 56 0 ++ lengthField (8 * m.length)
    have hfull : full.length = 64 := by
      simp only [full, List.length_append, List.length_singleton, List.length_replicate]
      omega
    have hlast : last.length = 64 := by
      simp only [last, List.length_append, List.length_replicate, hlen]
    refine ⟨blocks ++ [full, last], ⟨fun b hb => ?_, ?_⟩, ?_⟩
    · rcases List.mem_append.mp hb with hb | hb
      · exact ha.cut.full b hb
      · rcases List.mem_pair.mp hb with rfl | rfl
        · exact hfull
        · exact hlast
    · rw [List.flatten_append, padding, hzeros, List.replicate_add]
      rw [hmessage]
      simp [full, last]
    · rw [pad, if_neg hshort, hfield, ha.state_eq, List.foldl_append]
      rfl

/-- The digest of a message in one piece. -/
lemma sha256_eq (m : List UInt8) :
    ∃ blocks, Padded m blocks ∧ sha256 m = output (blocks.foldl transform initial) := by
  obtain ⟨blocks, ha⟩ := exists_absorbed m
  obtain ⟨blocks', hpadded, hpad⟩ := ha.pad_eq
  exact ⟨blocks', hpadded, by rw [sha256, digest_eq, hpad]⟩

/-- **The hasher computes the standard's digest.**  The digest of a message handed over in pieces
is what chaining the blocks of the padded message gives, and the padding has as few zeros as
possible. -/
theorem digest_of_chunks (chunks : List (List UInt8)) :
    (∃! blocks, Padded chunks.flatten blocks ∧
      digest (chunks.foldl update {}) = output (blocks.foldl transform initial)) ∧
    IsLeast {z | (chunks.flatten.length + 1 + z) % 64 = 56} (zeros chunks.flatten.length) := by
  refine ⟨?_, isLeast_zeros _⟩
  have hupdate : chunks.foldl update {} = update {} chunks.flatten := List.foldl_flatten.symm
  obtain ⟨blocks, hpadded, hdigest⟩ := sha256_eq chunks.flatten
  refine ⟨blocks, ⟨hpadded, ?_⟩, fun other hother => hother.1.unique hpadded⟩
  rw [hupdate]
  exact hdigest

/-! ## Two messages with one digest -/

lemma wordBytes_inj {v w : UInt32} (h : wordBytes v = wordBytes w) : v = w := by
  simp only [wordBytes, List.cons.injEq, and_true, ← UInt8.toNat_inj, UInt32.toNat_toUInt8,
    UInt32.toNat_shiftRight, UInt32.reduceToNat, Nat.reduceMod, Nat.shiftRight_eq_div_pow] at h
  have hv := v.toNat_lt
  have hw := w.toNat_lt
  exact UInt32.toNat_inj.mp (by omega)

/-- The bytes of the chaining value determine it. -/
lemma output_injective : Function.Injective output := by
  rintro ⟨a, b, c, d, e, f, g, i⟩ ⟨a', b', c', d', e', f', g', i'⟩ h
  simp only [output, List.flatMap_cons, List.flatMap_nil, List.append_nil] at h
  obtain ⟨ha, h⟩ := List.append_inj h rfl
  obtain ⟨hb, h⟩ := List.append_inj h rfl
  obtain ⟨hc, h⟩ := List.append_inj h rfl
  obtain ⟨hd, h⟩ := List.append_inj h rfl
  obtain ⟨he, h⟩ := List.append_inj h rfl
  obtain ⟨hf, h⟩ := List.append_inj h rfl
  obtain ⟨hg, hi⟩ := List.append_inj h rfl
  rw [wordBytes_inj ha, wordBytes_inj hb, wordBytes_inj hc, wordBytes_inj hd, wordBytes_inj he,
    wordBytes_inj hf, wordBytes_inj hg, wordBytes_inj hi]

lemma length_lengthField (n : ℕ) : (lengthField n).length = 8 := by simp [lengthField]

/-- The length field tells the number. -/
lemma lengthField_inj {n n' : ℕ} (hn : n < 2 ^ 64) (hn' : n' < 2 ^ 64)
    (h : lengthField n = lengthField n') : n = n' := by
  simp only [lengthField, List.range_succ, List.range_zero, List.nil_append, List.map_cons,
    List.map_nil, List.cons_append, List.cons.injEq, and_true,
    ← UInt8.toNat_inj, UInt8.toNat_ofNat'] at h
  norm_num at h
  omega

/-- The padding tells where the message begins: none is an ending of another. -/
lemma eq_of_suffix {m m' : List UInt8} {blocks blocks' : List (List UInt8)} (h : Padded m blocks)
    (h' : Padded m' blocks') (hm : m.length < 2 ^ 61) (hm' : m'.length < 2 ^ 61)
    (hsuffix : blocks <:+ blocks') : m = m' := by
  obtain ⟨front, rfl⟩ := hsuffix
  have heq : front.flatten ++ (m ++ padding m.length) = m' ++ padding m'.length := by
    rw [← h.flatten_eq, ← h'.flatten_eq, List.flatten_append]
  have hlength : m.length = m'.length := by
    have hend : (front.flatten ++ (m ++ 0x80 :: List.replicate (zeros m.length) 0))
        ++ lengthField (8 * m.length)
        = (m' ++ 0x80 :: List.replicate (zeros m'.length) 0) ++ lengthField (8 * m'.length) := by
      simpa [padding] using heq
    have hfield := (List.append_inj' hend
      ((length_lengthField _).trans (length_lengthField _).symm)).2
    have := lengthField_inj (by omega) (by omega) hfield
    omega
  have hpad : padding m.length = padding m'.length := by rw [hlength]
  rw [← List.append_assoc, hpad] at heq
  have hfront := congrArg List.length (List.append_cancel_right heq)
  rw [List.length_append] at hfront
  have hnil : front.flatten = [] := List.length_eq_zero_iff.mp (by omega)
  simpa [hnil] using List.append_cancel_right heq

/-- The compression function maps two different pairs to one value, at a place of the chain of
each message. -/
def ChainsCollide (m m' : List UInt8) : Prop :=
  ∃ blocks blocks', Padded m blocks ∧ Padded m' blocks' ∧
    Collides transform initial blocks blocks'

/-- **Digests bind.**  Two messages with one digest are equal, or the compression function
collides on the way. -/
theorem sha256_binds {m m' : List UInt8} (hm : m.length < 2 ^ 61) (hm' : m'.length < 2 ^ 61)
    (h : sha256 m = sha256 m') : m = m' ∨ ChainsCollide m m' := by
  obtain ⟨blocks, hp, hdigest⟩ := sha256_eq m
  obtain ⟨blocks', hp', hdigest'⟩ := sha256_eq m'
  have hchain : blocks.foldl transform initial = blocks'.foldl transform initial := by
    apply output_injective
    rw [← hdigest, ← hdigest', h]
  rcases collides_of_foldl_eq hchain with (hsuffix | hsuffix) | hcol
  · exact .inl (eq_of_suffix hp hp' hm hm' hsuffix)
  · exact .inl (eq_of_suffix hp' hp hm' hm hsuffix).symm
  · exact .inr ⟨blocks, blocks', hp, hp', hcol⟩

end HashHush.Sha256

namespace HashHush.Captcha

open Sha256

/-! ## Two messages with one authentication code -/

/-- The key as a block. -/
def keyBlock (key : List UInt8) : List UInt8 :=
  let short := if key.length > kBlockBytes then sha256 key else key
  short ++ List.replicate (kBlockBytes - short.length) 0

lemma length_keyBlock (key : List UInt8) : (keyBlock key).length = 64 := by
  have hshort : (if key.length > kBlockBytes then sha256 key else key).length ≤ kBlockBytes := by
    split
    · rw [sha256, length_digest]
      decide
    · omega
  rw [keyBlock, List.length_append, List.length_replicate]
  exact Nat.add_sub_cancel' hshort

/-- What the inner hash is applied to. -/
def innerMessage (key m : List UInt8) : List UInt8 := (keyBlock key).map (· ^^^ 0x36) ++ m

/-- What the outer hash is applied to. -/
def outerMessage (key m : List UInt8) : List UInt8 :=
  (keyBlock key).map (· ^^^ 0x5C) ++ sha256 (innerMessage key m)

lemma hmacSha256_eq_outer (key m : List UInt8) :
    hmacSha256 key m = sha256 (outerMessage key m) := hmacSha256_eq key m

/-- The compression function collides in the chains of the inner or of the outer hash. -/
def CodesCollide (key m m' : List UInt8) : Prop :=
  ChainsCollide (innerMessage key m) (innerMessage key m') ∨
    ChainsCollide (outerMessage key m) (outerMessage key m')

/-- **Authentication codes bind.**  Two messages with one code under a key are equal, or the
compression function collides on the way. -/
theorem hmac_binds {key m m' : List UInt8} (hm : m.length + 64 < 2 ^ 61)
    (hm' : m'.length + 64 < 2 ^ 61) (h : hmacSha256 key m = hmacSha256 key m') :
    m = m' ∨ CodesCollide key m m' := by
  have hinner : ∀ m : List UInt8, (innerMessage key m).length = m.length + 64 := fun m => by
    rw [innerMessage, List.length_append, List.length_map, length_keyBlock, Nat.add_comm]
  have houter : ∀ m : List UInt8, (outerMessage key m).length < 2 ^ 61 := fun m => by
    rw [outerMessage, List.length_append, List.length_map, length_keyBlock, sha256, length_digest]
    norm_num
  rw [hmacSha256_eq_outer, hmacSha256_eq_outer] at h
  rcases sha256_binds (houter m) (houter m') h with hmessage | hcol
  · have hdigest : sha256 (innerMessage key m) = sha256 (innerMessage key m') :=
      List.append_cancel_left hmessage
    refine (sha256_binds ?_ ?_ hdigest).imp (fun heq => List.append_cancel_left heq) .inl
    · rwa [hinner]
    · rwa [hinner]
  · exact .inr (.inr hcol)

/-- What is authenticated in a token. -/
def payload (nonceHex expStr : Str) : Str := nonceHex ++ [colon] ++ expStr

lemma length_payload_lt {challenge n e tag : Str} (h : split3 challenge = some (n, e, tag)) :
    (payload n e).length < challenge.length := by
  rw [(split3_iff.mp h).1, payload]
  simp only [List.length_append, List.length_cons, List.length_nil]
  omega

/-- **A tag is good for one token.**  Two tokens that this process takes for its own and that end in
the same tag are the same token, or the compression function collides in the chains of the tags. -/
theorem tag_binds {secret : List UInt8} {challenge challenge' n n' e e' tag : Str} {exp exp' : ℤ}
    (hlen : challenge.length + 64 < 2 ^ 61) (hlen' : challenge'.length + 64 < 2 ^ 61)
    (hsplit : split3 challenge = some (n, e, tag)) (hsplit' : split3 challenge' = some (n', e', tag))
    (htoken : IsToken secret challenge n exp) (htoken' : IsToken secret challenge' n' exp') :
    challenge = challenge' ∨ CodesCollide secret (payload n e) (payload n' e') := by
  obtain ⟨-, -, hmac, -⟩ := isToken_of_split hsplit htoken
  obtain ⟨-, -, hmac', -⟩ := isToken_of_split hsplit' htoken'
  have hcode : hmacSha256 secret (payload n e) = hmacSha256 secret (payload n' e') :=
    toHex_injective ((ctEqualStr_iff.mp hmac).trans (ctEqualStr_iff.mp hmac').symm)
  have hlt := length_payload_lt hsplit
  have hlt' := length_payload_lt hsplit'
  refine (hmac_binds (by omega) (by omega) hcode).imp_left fun hpayload => ?_
  rw [(split3_iff.mp hsplit).1, (split3_iff.mp hsplit').1]
  simpa [payload] using congrArg (· ++ colon :: tag) hpayload

/-- A genuine token. -/
def Sample.genuine : Str := ascii "00ff:60:" ++ hmacHex Sample.secret (ascii "00ff:60")

/-- A genuine token, and the same token. -/
theorem tag_binds_sample : Sample.genuine = Sample.genuine ∨
    CodesCollide Sample.secret (payload (ascii "00ff") (ascii "60"))
      (payload (ascii "00ff") (ascii "60")) := by
  have hsplit : split3 Sample.genuine = some (ascii "00ff", ascii "60",
      hmacHex Sample.secret (ascii "00ff:60")) := by decide +kernel
  have htoken : IsToken Sample.secret Sample.genuine (ascii "00ff") 60 :=
    isToken_iff.mpr ⟨_, _, hsplit, by decide +kernel, by decide +kernel, by decide +kernel⟩
  have hlen : Sample.genuine.length + 64 < 2 ^ 61 := by decide +kernel
  exact tag_binds hlen hlen hsplit hsplit htoken htoken

end HashHush.Captcha
