import HashHush.Web.Crypto

/-!
# The fragment of an invite link

`lib/urlfrag.js`.  The room id and the seed are behind the `#` of an invite link, which the page
decodes with `decodeURIComponent` and matches against a pattern.  `PercentDecodes` says what a
decoded fragment is, and `decodeURIComponent_eq_some_iff` that the decoder throws on all others.
-/

namespace HashHush.Web

/-! ## Percent decoding -/

/-- The byte of an escape `%XY` in front, and what is behind the escape. -/
def parseOctet : JsString → Option (UInt8 × JsString)
  | u :: x :: y :: rest =>
      if u = '%'.toNat.toUInt16 then do
        let high ← hexDigit x
        let low ← hexDigit y
        return ((16 * high + low).toUInt8, rest)
      else none
  | _ => none

/-- The bytes of so many escapes. -/
def parseOctets : ℕ → JsString → Option (List UInt8 × JsString)
  | 0, s => some ([], s)
  | n + 1, s => do
      let (b, rest) ← parseOctet s
      let (octets, rest) ← parseOctets n rest
      return (b :: octets, rest)

/-- The number of leading one bits; five stands for more than four. -/
def leadingOnes (b : UInt8) : ℕ :=
  if b < 0x80 then 0
  else if b < 0xC0 then 1
  else if b < 0xE0 then 2
  else if b < 0xF0 then 3
  else if b < 0xF8 then 4
  else 5

/-- The character that is encoded by the bytes. -/
def codePoint (octets : List UInt8) : Option Char :=
  (octets.toByteArray.utf8DecodeChar? 0).filter fun c => String.utf8EncodeChar c = octets

/-- The character of the escapes in front, and what is behind them. -/
def decodeEscape (s : JsString) : Option (JsString × JsString) := do
  let (b, rest) ← parseOctet s
  if leadingOnes b = 0 then
    return ([b.toUInt16], rest)
  else if leadingOnes b = 1 ∨ 4 < leadingOnes b then
    none
  else
    let (octets, rest) ← parseOctets (leadingOnes b - 1) rest
    let c ← codePoint (b :: octets)
    return (charUnits c, rest)

/-- The loop of `decodeURIComponent`, with a bound on its rounds. -/
def decodeUnits : ℕ → JsString → Option JsString
  | _, [] => some []
  | 0, _ :: _ => none
  | fuel + 1, u :: s =>
      if u = '%'.toNat.toUInt16 then do
        let (char, rest) ← decodeEscape (u :: s)
        let decoded ← decodeUnits fuel rest
        return char ++ decoded
      else do
        let decoded ← decodeUnits fuel s
        return u :: decoded

/-- `none` where a URIError is thrown.  No string has more characters than code units. -/
def decodeURIComponent (s : JsString) : Option JsString := decodeUnits s.length s

/-! ## Links -/

/-- The class `[A-Za-z0-9_-]`. -/
def isSlug (u : UInt16) : Bool :=
  'A'.toNat ≤ u.toNat && u.toNat ≤ 'Z'.toNat || 'a'.toNat ≤ u.toNat && u.toNat ≤ 'z'.toNat ||
    '0'.toNat ≤ u.toNat && u.toNat ≤ '9'.toNat || u = '_'.toNat.toUInt16 || u = '-'.toNat.toUInt16

/-- The two groups of `/^([A-Za-z0-9_-]{8}):([A-Za-z0-9_-]+)$/`. -/
def FRAGMENT_RE (raw : JsString) : Option (JsString × JsString) :=
  match raw.drop 8 with
  | [] => none
  | u :: seed =>
      if (raw.take 8).all isSlug ∧ u = ':'.toNat.toUInt16 ∧ seed ≠ [] ∧ seed.all isSlug then
        some (raw.take 8, seed)
      else none

/-- What a link names. -/
structure Location where
  roomId : Option JsString
  seed : Option JsString
deriving DecidableEq, Repr

def buildJoinUrl (origin roomId seed : JsString) : JsString :=
  origin ++ text (ascii "/#") ++ roomId ++ text (ascii ":") ++ seed

/-- `location.hash` at an url whose fragment needs no escapes. -/
def hashOf (url : JsString) : JsString :=
  let hash := url.dropWhile (· ≠ '#'.toNat.toUInt16)
  if hash.length < 2 then [] else hash

/-- Of the value of `location.hash`; `none` where it throws. -/
def parseLocation (hash : JsString) : Option Location :=
  if hash.length < 2 then some ⟨none, none⟩
  else do
    let raw ← decodeURIComponent (hash.drop 1)
    match FRAGMENT_RE raw with
    | none => return ⟨none, none⟩
    | some (roomId, seed) => return ⟨some roomId, some seed⟩

/-! ## What is decoded -/

/-- The escapes of some bytes. -/
inductive Escaped : List UInt8 → JsString → Prop
  | nil : Escaped [] []
  | cons {x y : UInt16} {high low : ℕ} {octets : List UInt8} {s : JsString}
      (hx : hexDigit x = some high) (hy : hexDigit y = some low) (rest : Escaped octets s) :
      Escaped ((16 * high + low).toUInt8 :: octets) ('%'.toNat.toUInt16 :: x :: y :: s)

/-- The string percent-decodes to another: its escapes encode characters in UTF-8, and all else
stands for itself. -/
inductive PercentDecodes : JsString → JsString → Prop
  | nil : PercentDecodes [] []
  | unit {u : UInt16} {s t : JsString} (hu : u ≠ '%'.toNat.toUInt16)
      (rest : PercentDecodes s t) : PercentDecodes (u :: s) (u :: t)
  | char {c : Char} {escapes s t : JsString} (hc : Escaped (String.utf8EncodeChar c) escapes)
      (rest : PercentDecodes s t) : PercentDecodes (escapes ++ s) (charUnits c ++ t)

lemma parseOctet_eq_some_iff {s rest : JsString} {b : UInt8} :
    parseOctet s = some (b, rest) ↔ ∃ escape, Escaped [b] escape ∧ s = escape ++ rest := by
  constructor
  · intro h
    rcases s with _ | ⟨u, _ | ⟨x, _ | ⟨y, s⟩⟩⟩
    · cases h
    · cases h
    · cases h
    · rw [parseOctet] at h
      split at h
      · rename_i hu
        cases hx : hexDigit x with
        | none => simp [hx] at h
        | some high =>
            cases hy : hexDigit y with
            | none => simp [hx, hy] at h
            | some low =>
                simp only [hx, hy] at h
                cases h
                exact ⟨[u, x, y], hu ▸ .cons hx hy .nil, rfl⟩
      · cases h
  · rintro ⟨escape, hescape, rfl⟩
    cases hescape with
    | cons hx hy hnil =>
        cases hnil
        simp [parseOctet, hx, hy]

lemma escaped_append {b : UInt8} {octets : List UInt8} {e e' : JsString} (hb : Escaped [b] e)
    (h : Escaped octets e') : Escaped (b :: octets) (e ++ e') := by
  cases hb with
  | cons hx hy hnil =>
      cases hnil
      exact .cons hx hy h

lemma escaped_cons {b : UInt8} {octets : List UInt8} {s : JsString} (h : Escaped (b :: octets) s) :
    ∃ e e', Escaped [b] e ∧ Escaped octets e' ∧ s = e ++ e' := by
  cases h with
  | cons hx hy hrest => exact ⟨_, _, .cons hx hy .nil, hrest, rfl⟩

lemma parseOctets_succ {n : ℕ} {s rest : JsString} {octets : List UInt8} :
    parseOctets (n + 1) s = some (octets, rest) ↔
      ∃ b s' bs, parseOctet s = some (b, s') ∧ parseOctets n s' = some (bs, rest) ∧
        octets = b :: bs := by
  constructor
  · intro h
    obtain ⟨⟨b, s'⟩, hb, h⟩ := Option.bind_eq_some_iff.mp h
    obtain ⟨⟨bs, s''⟩, hbs, h⟩ := Option.bind_eq_some_iff.mp h
    cases h
    exact ⟨b, s', bs, hb, hbs, rfl⟩
  · rintro ⟨b, s', bs, hb, hbs, rfl⟩
    rw [parseOctets, hb, Option.bind_eq_bind, Option.bind_some]
    dsimp only
    rw [hbs]
    rfl

lemma parseOctets_eq_some_iff {n : ℕ} {s rest : JsString} {octets : List UInt8} :
    parseOctets n s = some (octets, rest) ↔
      octets.length = n ∧ ∃ escapes, Escaped octets escapes ∧ s = escapes ++ rest := by
  induction n generalizing s octets with
  | zero =>
      constructor
      · intro h
        cases h
        exact ⟨rfl, [], .nil, rfl⟩
      · rintro ⟨hlen, escapes, hescapes, rfl⟩
        obtain rfl := List.eq_nil_of_length_eq_zero hlen
        cases hescapes
        rfl
  | succ n ih =>
      rw [parseOctets_succ]
      constructor
      · rintro ⟨b, s', bs, hb, hbs, rfl⟩
        obtain ⟨e, he, rfl⟩ := parseOctet_eq_some_iff.mp hb
        obtain ⟨hlen, e', he', rfl⟩ := ih.mp hbs
        refine ⟨congrArg Nat.succ hlen, e ++ e', escaped_append he he', ?_⟩
        rw [List.append_assoc]
      · rintro ⟨hlen, escapes, hescapes, rfl⟩
        rcases octets with _ | ⟨b, octets⟩
        · cases hlen
        · obtain ⟨e, e', he, he', rfl⟩ := escaped_cons hescapes
          refine ⟨b, e' ++ rest, octets, ?_, ih.mpr ⟨Nat.succ.inj hlen, e', he', rfl⟩, rfl⟩
          exact parseOctet_eq_some_iff.mpr ⟨e, he, List.append_assoc ..⟩

lemma codePoint_eq_some_iff {octets : List UInt8} {c : Char} :
    codePoint octets = some c ↔ String.utf8EncodeChar c = octets := by
  constructor
  · intro h
    exact of_decide_eq_true (Option.filter_eq_some_iff.mp h).2
  · rintro rfl
    have hdecode : (String.utf8EncodeChar c).toByteArray.utf8DecodeChar? 0 = some c := by
      simpa using ByteArray.utf8DecodeChar?_utf8EncodeChar_append (b := ByteArray.empty) (c := c)
    exact Option.filter_eq_some_iff.mpr ⟨hdecode, decide_eq_true rfl⟩

/-- The first byte of a character tells how many follow. -/
lemma utf8EncodeChar_eq_cons (c : Char) : ∃ b octets, String.utf8EncodeChar c = b :: octets ∧
    (leadingOnes b = 0 ∧ octets = [] ∧ charUnits c = [b.toUInt16] ∨
      leadingOnes b ≠ 0 ∧ leadingOnes b ≠ 1 ∧ leadingOnes b ≤ 4 ∧
        octets.length = leadingOnes b - 1) := by
  have hones : ∀ n < 0x100, leadingOnes (UInt8.ofNat n) =
      if n < 0x80 then 0 else if n < 0xC0 then 1 else if n < 0xE0 then 2
      else if n < 0xF0 then 3 else if n < 0xF8 then 4 else 5 := by decide +kernel
  have hval : c.val.toNat = c.toNat := rfl
  simp only [String.utf8EncodeChar, hval]
  split
  · rename_i h
    refine ⟨_, _, rfl, .inl ⟨?_, rfl, ?_⟩⟩
    · rw [hones _ (by omega), if_pos (by omega)]
    · rw [charUnits, if_pos (by omega)]
      have hunit : ∀ n ≤ 0x7F, n.toUInt16 = (UInt8.ofNat n).toUInt16 := by decide +kernel
      rw [hunit _ h]
  · rename_i h
    split
    · have hlead := hones (c.toNat / 64 % 0x20 + 0xC0) (by omega)
      rw [if_neg (by omega), if_neg (by omega), if_pos (by omega)] at hlead
      exact ⟨_, _, rfl, .inr (by rw [hlead]; simp)⟩
    · split
      · have hlead := hones (c.toNat / 4096 % 0x10 + 0xE0) (by omega)
        rw [if_neg (by omega), if_neg (by omega), if_neg (by omega), if_pos (by omega)] at hlead
        exact ⟨_, _, rfl, .inr (by rw [hlead]; simp)⟩
      · have hlead := hones (c.toNat / 262144 % 0x08 + 0xF0) (by omega)
        rw [if_neg (by omega), if_neg (by omega), if_neg (by omega), if_neg (by omega),
          if_pos (by omega)] at hlead
        exact ⟨_, _, rfl, .inr (by rw [hlead]; simp)⟩

lemma decodeEscape_of_ascii {s rest : JsString} {b : UInt8} (hb : parseOctet s = some (b, rest))
    (hones : leadingOnes b = 0) : decodeEscape s = some ([b.toUInt16], rest) := by
  rw [decodeEscape, hb, Option.bind_eq_bind, Option.bind_some]
  dsimp only
  rw [if_pos hones]
  rfl

lemma decodeEscape_of_octets {s s' rest : JsString} {b : UInt8} {octets : List UInt8} {c : Char}
    (hb : parseOctet s = some (b, s')) (hzero : leadingOnes b ≠ 0)
    (hlead : ¬ (leadingOnes b = 1 ∨ 4 < leadingOnes b))
    (hoctets : parseOctets (leadingOnes b - 1) s' = some (octets, rest))
    (hc : String.utf8EncodeChar c = b :: octets) : decodeEscape s = some (charUnits c, rest) := by
  have hpoint : codePoint (b :: octets) = some c := codePoint_eq_some_iff.mpr hc
  rw [decodeEscape, hb, Option.bind_eq_bind, Option.bind_some]
  dsimp only
  rw [if_neg hzero, if_neg hlead, hoctets, Option.bind_eq_bind, Option.bind_some]
  dsimp only
  rw [hpoint]
  rfl

/-- A byte below 128 encodes itself. -/
lemma exists_char_of_ascii {b : UInt8} (h : leadingOnes b = 0) :
    ∃ c, String.utf8EncodeChar c = [b] ∧ charUnits c = [b.toUInt16] := by
  have key : ∀ n < 0x100, leadingOnes (Nat.toUInt8 n) = 0 →
      String.utf8EncodeChar (Char.ofNat n) = [Nat.toUInt8 n] ∧
        charUnits (Char.ofNat n) = [(Nat.toUInt8 n).toUInt16] := by decide +kernel
  have hb := key b.toNat b.toNat_lt
  have hnat : b.toNat.toUInt8 = b := UInt8.ofNat_toNat
  rw [hnat] at hb
  exact ⟨Char.ofNat b.toNat, hb h⟩

/-- One round of the decoder reads the escapes of one character. -/
lemma decodeEscape_eq_some_iff {s char rest : JsString} :
    decodeEscape s = some (char, rest) ↔
      ∃ c escapes, Escaped (String.utf8EncodeChar c) escapes ∧ s = escapes ++ rest ∧
        char = charUnits c := by
  constructor
  · intro h
    obtain ⟨⟨b, s'⟩, hb, h⟩ := Option.bind_eq_some_iff.mp h
    obtain ⟨e, he, hs⟩ := parseOctet_eq_some_iff.mp hb
    dsimp only at h
    split at h
    · rename_i hones
      obtain ⟨c, hc, hunits⟩ := exists_char_of_ascii hones
      cases h
      exact ⟨c, e, hc ▸ he, hs, hunits.symm⟩
    · split at h
      · cases h
      · obtain ⟨⟨octets, s''⟩, hoctets, h⟩ := Option.bind_eq_some_iff.mp h
        obtain ⟨c, hc, h⟩ := Option.bind_eq_some_iff.mp h
        obtain ⟨-, e', he', hs'⟩ := parseOctets_eq_some_iff.mp hoctets
        have henc := codePoint_eq_some_iff.mp hc
        cases h
        refine ⟨c, e ++ e', henc ▸ escaped_append he he', ?_, rfl⟩
        rw [hs, hs', List.append_assoc]
  · rintro ⟨c, escapes, hescapes, rfl, rfl⟩
    obtain ⟨b, octets, hc, hcases⟩ := utf8EncodeChar_eq_cons c
    obtain ⟨e, e', he, he', rfl⟩ := escaped_cons (hc ▸ hescapes)
    have hb : parseOctet (e ++ e' ++ rest) = some (b, e' ++ rest) :=
      parseOctet_eq_some_iff.mpr ⟨e, he, List.append_assoc ..⟩
    rcases hcases with ⟨hones, rfl, hunits⟩ | ⟨hzero, hone, hfour, hlen⟩
    · cases he'
      rw [hunits]
      exact decodeEscape_of_ascii hb hones
    · have hlead : ¬ (leadingOnes b = 1 ∨ 4 < leadingOnes b) := by omega
      exact decodeEscape_of_octets hb hzero hlead
        (parseOctets_eq_some_iff.mpr ⟨hlen, e', he', rfl⟩) hc

/-- The escapes of a character begin with `%`. -/
lemma escaped_char {c : Char} {escapes : JsString}
    (h : Escaped (String.utf8EncodeChar c) escapes) :
    ∃ s, escapes = '%'.toNat.toUInt16 :: s := by
  obtain ⟨b, octets, hc, -⟩ := utf8EncodeChar_eq_cons c
  rw [hc] at h
  cases h with
  | cons hx hy hrest => exact ⟨_, rfl⟩

lemma percentDecodes_of_decodeUnits {fuel : ℕ} {s t : JsString} (h : decodeUnits fuel s = some t) :
    PercentDecodes s t := by
  induction fuel generalizing s t with
  | zero =>
      cases s with
      | nil =>
          cases h
          exact .nil
      | cons u s => cases h
  | succ fuel ih =>
      cases s with
      | nil =>
          cases h
          exact .nil
      | cons u s =>
          rw [decodeUnits] at h
          split at h
          · obtain ⟨⟨char, rest⟩, hchar, h⟩ := Option.bind_eq_some_iff.mp h
            obtain ⟨decoded, hdecoded, h⟩ := Option.bind_eq_some_iff.mp h
            obtain ⟨c, escapes, hescapes, hs, rfl⟩ := decodeEscape_eq_some_iff.mp hchar
            cases h
            rw [hs]
            exact .char hescapes (ih hdecoded)
          · rename_i hu
            obtain ⟨decoded, hdecoded, h⟩ := Option.bind_eq_some_iff.mp h
            cases h
            exact .unit hu (ih hdecoded)

lemma decodeUnits_of_percentDecodes {s t : JsString} (h : PercentDecodes s t) :
    ∀ {fuel : ℕ}, s.length ≤ fuel → decodeUnits fuel s = some t := by
  induction h with
  | nil =>
      intro fuel _
      cases fuel <;> rfl
  | unit hu _ ih =>
      intro fuel hfuel
      rw [List.length_cons] at hfuel
      obtain ⟨fuel, rfl⟩ : ∃ n, fuel = n + 1 := ⟨fuel - 1, by omega⟩
      rw [decodeUnits, if_neg hu, ih (by omega)]
      rfl
  | @char c escapes s t hc _ ih =>
      intro fuel hfuel
      obtain ⟨e, rfl⟩ := escaped_char hc
      have hchar : decodeEscape ('%'.toNat.toUInt16 :: e ++ s) = some (charUnits c, s) :=
        decodeEscape_eq_some_iff.mpr ⟨c, _, hc, rfl, rfl⟩
      rw [List.length_append, List.length_cons] at hfuel
      obtain ⟨fuel, rfl⟩ : ∃ n, fuel = n + 1 := ⟨fuel - 1, by omega⟩
      rw [List.cons_append] at hchar ⊢
      rw [decodeUnits, if_pos rfl, hchar, Option.bind_eq_bind, Option.bind_some]
      dsimp only
      rw [ih (by omega)]
      rfl

/-- The decoder is exact. -/
lemma decodeURIComponent_eq_some_iff {s t : JsString} :
    decodeURIComponent s = some t ↔ PercentDecodes s t :=
  ⟨percentDecodes_of_decodeUnits, fun h => decodeUnits_of_percentDecodes h le_rfl⟩

end HashHush.Web
