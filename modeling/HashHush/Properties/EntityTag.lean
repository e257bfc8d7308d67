import HashHush.Util.Codec
import HashHush.Util.Fnv

/-!
# The entity tags of the cached bodies

`etagFor` and the two routes that answer 304 to a browser whose copy has the tag of the body.  The
tag is the FNV-1a hash of the body in sixteen hex digits (`etagFor_eq`) and loses nothing of it
(`etagFor_inj`), so `etag_flips` can conclude that one changed byte changes the tag and that the
routes then send the body.
-/

namespace HashHush

/-- The `i`-th hex digit of a 64-bit number, from the lowest. -/
def nibble (v : UInt64) (i : ℕ) : UInt8 := ((v >>> (4 * i).toUInt64) &&& 0x0F).toUInt8

/-- `%016llx`. -/
def hex16 (v : UInt64) : Str := (List.range 16).map fun i => hexChar (nibble v (15 - i))

def quote : UInt8 := '"'.toNat.toUInt8

/-- `etagFor`. -/
def etagFor (body : Str) : Str := quote :: hex16 (Fnv.fnv1a body) ++ [quote]

/-- The answer of a route with a cached body. -/
inductive CachedResponse
  /-- Status 304. -/
  | notModified (etag : Str)
  /-- Status 200. -/
  | full (contentType body etag : Str)
  deriving DecidableEq

/-- The answer to a request with this `If-None-Match`, which is empty where the header is missing. -/
def serveCached (contentType body etag inm : Str) : CachedResponse :=
  if inm ≠ [] ∧ inm = etag then .notModified etag else .full contentType body etag

/-- `serveBundle`. -/
def serveBundle (bundleHtml inm : Str) : CachedResponse :=
  serveCached (ascii "text/html; charset=utf-8") bundleHtml (etagFor bundleHtml) inm

/-- `GET /api/info`. -/
def serveInfo (infoBody inm : Str) : CachedResponse :=
  serveCached (ascii "application/json") infoBody (etagFor infoBody) inm

/-! ## The digits -/

lemma toNat_nibble (v : UInt64) {i : ℕ} (hi : i < 16) :
    (nibble v i).toNat = v.toNat / 16 ^ i % 16 := by
  have hshift : (4 * i).toUInt64.toNat % 64 = 4 * i := by
    rw [UInt64.toNat_ofNat']
    omega
  have hpow : 2 ^ (4 * i) = 16 ^ i := by
    rw [pow_mul]
    norm_num
  have hlow : (v >>> (4 * i).toUInt64 &&& 0x0F).toNat = v.toNat / 16 ^ i % 16 := by
    rw [UInt64.toNat_and, UInt64.toNat_shiftRight, hshift, Nat.shiftRight_eq_div_pow, hpow]
    exact Nat.and_two_pow_sub_one_eq_mod _ 4
  rw [nibble, UInt64.toNat_toUInt8, hlow]
  omega

/-- The digits below a place determine a number up to that place. -/
lemma mod_eq_of_digits {a b : ℕ} : ∀ n : ℕ, (∀ i < n, a / 16 ^ i % 16 = b / 16 ^ i % 16) →
    a % 16 ^ n = b % 16 ^ n
  | 0, _ => by simp [Nat.mod_one]
  | n + 1, h => by
      have hrest : a % 16 ^ n = b % 16 ^ n := mod_eq_of_digits n fun i hi => h i (by omega)
      rw [Nat.mod_pow_succ, Nat.mod_pow_succ, hrest, h n (by omega)]

/-- Sixteen digits make the number. -/
lemma hex16_injective : Function.Injective hex16 := by
  intro v w h
  have hdigit : ∀ i < 16, v.toNat / 16 ^ i % 16 = w.toNat / 16 ^ i % 16 := by
    intro i hi
    have hchar : hexChar (nibble v (15 - (15 - i))) = hexChar (nibble w (15 - (15 - i))) :=
      List.map_eq_map_iff.mp h (15 - i) (List.mem_range.mpr (by omega))
    have hplace : 15 - (15 - i) = i := by omega
    rw [hplace] at hchar
    have hlt : ∀ u : UInt64, (nibble u i).toNat < 16 := fun u => by
      rw [toNat_nibble u hi]
      omega
    rw [← toNat_nibble v hi, ← toNat_nibble w hi, hexChar_inj (hlt v) (hlt w) hchar]
  have hmod : v.toNat % 16 ^ 16 = w.toNat % 16 ^ 16 := mod_eq_of_digits 16 hdigit
  have hv := v.toNat_lt
  have hw := w.toNat_lt
  exact UInt64.toNat_inj.mp (by omega)

lemma length_hex16 (v : UInt64) : (hex16 v).length = 16 := by
  simp [hex16]

lemma mem_hex16 {v : UInt64} {c : UInt8} (h : c ∈ hex16 v) : c ∈ kHex := by
  obtain ⟨i, hi, rfl⟩ := List.mem_map.mp h
  have hlt : (nibble v (15 - i)).toNat < 16 := by
    rw [toNat_nibble v (by omega)]
    omega
  have key : ∀ n < 16, kHex.getD n 0 ∈ kHex := by decide +kernel
  exact key _ hlt

/-! ## The tags -/

lemma etagFor_inj {body body' : Str} (h : etagFor body = etagFor body') :
    Fnv.fnv1a body = Fnv.fnv1a body' := by
  have hdigits : hex16 (Fnv.fnv1a body) ++ [quote] = hex16 (Fnv.fnv1a body') ++ [quote] :=
    (List.cons.inj h).2
  exact hex16_injective (List.append_cancel_right hdigits)

/-- The bodies have the same length and differ at one position and no other. -/
def DifferInOne (body body' : Str) : Prop :=
  body.length = body'.length ∧
    ∃ i : ℕ, body[i]? ≠ body'[i]? ∧ ∀ j : ℕ, j ≠ i → body[j]? = body'[j]?

/-- Two such bodies share what is before and what is behind the position. -/
lemma DifferInOne.split {body body' : Str} (h : DifferInOne body body') :
    ∃ s c d t, c ≠ d ∧ body = s ++ c :: t ∧ body' = s ++ d :: t := by
  obtain ⟨hlen, i, hne, hsame⟩ := h
  have hi : i < body.length := by
    by_contra hge
    apply hne
    rw [List.getElem?_eq_none (by omega), List.getElem?_eq_none (by omega)]
  have hi' : i < body'.length := hlen ▸ hi
  have hbefore : body'.take i = body.take i := by
    refine List.ext_getElem? fun j => ?_
    rcases Nat.lt_or_ge j i with hj | hj
    · rw [List.getElem?_take_of_lt hj, List.getElem?_take_of_lt hj, hsame j hj.ne]
    · rw [List.getElem?_take_eq_none hj, List.getElem?_take_eq_none hj]
  have hbehind : body'.drop (i + 1) = body.drop (i + 1) := by
    refine List.ext_getElem? fun j => ?_
    rw [List.getElem?_drop, List.getElem?_drop, hsame (i + 1 + j) (by omega)]
  refine ⟨body.take i, body[i], body'[i], body.drop (i + 1), ?_, ?_, ?_⟩
  · rw [List.getElem?_eq_getElem hi, List.getElem?_eq_getElem hi'] at hne
    exact fun heq => hne (congrArg some heq)
  · rw [List.getElem_cons_drop, List.take_append_drop]
  · rw [← hbefore, ← hbehind, List.getElem_cons_drop, List.take_append_drop]

lemma DifferInOne.etagFor_ne {body body' : Str} (h : DifferInOne body body') :
    etagFor body ≠ etagFor body' := by
  obtain ⟨s, c, d, t, hne, rfl, rfl⟩ := h.split
  exact fun heq => Fnv.fnv1a_ne_of_ne hne s t (etagFor_inj heq)

lemma serveCached_of_ne {contentType body etag inm : Str} (h : inm ≠ etag) :
    serveCached contentType body etag inm = .full contentType body etag :=
  if_neg fun hmatch => h hmatch.2

/-- **One changed byte changes the tag.**  Every tag is sixteen lowercase hex digits in quotes, two
bodies that differ in one byte have different tags, and a browser whose copy differs from the body
in one byte is sent the body. -/
theorem etag_flips :
    (∀ body : Str, ∃ digits, etagFor body = quote :: digits ++ [quote] ∧ digits.length = 16 ∧
      ∀ c ∈ digits, c ∈ ascii "0123456789abcdef") ∧
    ∀ body copy : Str, DifferInOne body copy → etagFor body ≠ etagFor copy ∧
      serveBundle body (etagFor copy)
        = .full (ascii "text/html; charset=utf-8") body (etagFor body) ∧
      serveInfo body (etagFor copy) = .full (ascii "application/json") body (etagFor body) := by
  constructor
  · intro body
    exact ⟨hex16 (Fnv.fnv1a body), rfl, length_hex16 _, fun _ hc => mem_hex16 hc⟩
  · intro body copy h
    have hne : etagFor body ≠ etagFor copy := h.etagFor_ne
    exact ⟨hne, serveCached_of_ne hne.symm, serveCached_of_ne hne.symm⟩

/-- The tags of two bodies of one byte. -/
theorem etag_flips_sample : etagFor [97] ≠ etagFor [98] :=
  (etag_flips.2 [97] [98] ⟨rfl, 0, by decide, fun j hj => by
    cases j with
    | zero => exact absurd rfl hj
    | succ j => rfl⟩).1

end HashHush
