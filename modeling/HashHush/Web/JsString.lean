import HashHush.Util.Text

/-!
# Strings of JavaScript

A string of JavaScript is a sequence of UTF-16 code units, whose surrogates need not come in pairs.
`scalars` are its characters as `TextEncoder` sees them, with U+FFFD for a surrogate that is alone,
and `units` is the way back.  A string without such surrogates (`IsWellFormed`) is told by its
encoding (`encode_injOn`).
-/

namespace HashHush.Web

/-- A string of JavaScript. -/
abbrev JsString := List UInt16

/-- The string of a text in ASCII. -/
def text (s : Str) : JsString := s.map UInt8.toUInt16

def isLeading (u : UInt16) : Bool := 0xD800 ≤ u && u < 0xDC00

def isTrailing (u : UInt16) : Bool := 0xDC00 ≤ u && u < 0xE000

/-- A code unit that is no half of a pair; a surrogate becomes U+FFFD. -/
def scalar (u : UInt16) : Char :=
  if isLeading u || isTrailing u then Char.ofNat 0xFFFD else Char.ofNat u.toNat

/-- The characters of a string. -/
def scalars : JsString → List Char
  | [] => []
  | [u] => [scalar u]
  | u :: v :: rest =>
      if isLeading u && isTrailing v then
        Char.ofNat (0x10000 + (u.toNat - 0xD800) * 0x400 + (v.toNat - 0xDC00)) :: scalars rest
      else scalar u :: scalars (v :: rest)

/-- `ENCODER.encode`. -/
def encode (s : JsString) : List UInt8 := (scalars s).flatMap String.utf8EncodeChar

/-- Within ASCII the bytes are the code units. -/
lemma encode_text {s : Str} (hs : ∀ b ∈ s, b.toNat < 128) : encode (text s) = s := by
  have key : ∀ n < 128, isLeading n.toUInt8.toUInt16 = false ∧
      String.utf8EncodeChar (scalar n.toUInt8.toUInt16) = [n.toUInt8] := by decide +kernel
  have hbyte : ∀ b : UInt8, b.toNat < 128 → isLeading b.toUInt16 = false ∧
      String.utf8EncodeChar (scalar b.toUInt16) = [b] := fun b hb => by simpa using key _ hb
  induction s with
  | nil => rfl
  | cons b s ih =>
      obtain ⟨hlead, hone⟩ := hbyte b (hs b List.mem_cons_self)
      have hscalars : scalars (text (b :: s)) = scalar b.toUInt16 :: scalars (text s) := by
        cases s with
        | nil => rfl
        | cons b' s => simp [text, scalars, hlead]
      have hrest : encode (text s) = s := ih fun b' hb' => hs b' (List.mem_cons_of_mem _ hb')
      rw [encode, hscalars, List.flatMap_cons, hone]
      exact congrArg _ hrest

/-- A pair of surrogates is one character, and a surrogate that is alone is replaced. -/
example : encode [0xD83D, 0xDE00, 0xD83D] = [0xF0, 0x9F, 0x98, 0x80, 0xEF, 0xBF, 0xBD] := by
  decide +kernel

/-! ## Characters and code units -/

/-- The code units of a character. -/
def charUnits (c : Char) : JsString :=
  if c.toNat < 0x10000 then [c.toNat.toUInt16]
  else [(0xD800 + (c.toNat - 0x10000) / 0x400).toUInt16,
    (0xDC00 + (c.toNat - 0x10000) % 0x400).toUInt16]

/-- The string of some characters. -/
def units (cs : List Char) : JsString := cs.flatMap charUnits

/-- Every surrogate is one of a pair. -/
def IsWellFormed (s : JsString) : Prop := ∃ cs, units cs = s

lemma isLeading_iff {u : UInt16} : isLeading u = true ↔ 0xD800 ≤ u.toNat ∧ u.toNat < 0xDC00 := by
  simp [isLeading, UInt16.le_iff_toNat_le, UInt16.lt_iff_toNat_lt]

lemma isTrailing_iff {u : UInt16} : isTrailing u = true ↔ 0xDC00 ≤ u.toNat ∧ u.toNat < 0xE000 := by
  simp [isTrailing, UInt16.le_iff_toNat_le, UInt16.lt_iff_toNat_lt]

lemma toNat_toUInt16 {n : ℕ} (h : n < 0x10000) : n.toUInt16.toNat = n := by
  rw [UInt16.toNat_ofNat']
  omega

/-- A character is no surrogate. -/
lemma char_toNat (c : Char) : c.toNat < 0xD800 ∨ 0xE000 ≤ c.toNat ∧ c.toNat < 0x110000 := by
  rcases c.valid with h | ⟨h, h'⟩
  · exact .inl h
  · exact .inr ⟨h, h'⟩

/-- The characters begin with the first. -/
lemma scalars_charUnits_append (c : Char) (s : JsString) :
    scalars (charUnits c ++ s) = c :: scalars s := by
  have hc := char_toNat c
  by_cases hbmp : c.toNat < 0x10000
  · have hunit : c.toNat.toUInt16.toNat = c.toNat := toNat_toUInt16 hbmp
    have hlead : isLeading c.toNat.toUInt16 = false := by
      rw [← Bool.not_eq_true, isLeading_iff]
      omega
    have htrail : isTrailing c.toNat.toUInt16 = false := by
      rw [← Bool.not_eq_true, isTrailing_iff]
      omega
    have hscalar : scalar c.toNat.toUInt16 = c := by
      simp [scalar, hlead, htrail, hunit]
    rw [charUnits, if_pos hbmp]
    cases s with
    | nil => simp [scalars, hscalar]
    | cons v s => simp [scalars, hlead, hscalar]
  · have hhigh : (0xD800 + (c.toNat - 0x10000) / 0x400).toUInt16.toNat
        = 0xD800 + (c.toNat - 0x10000) / 0x400 := toNat_toUInt16 (by omega)
    have hlow : (0xDC00 + (c.toNat - 0x10000) % 0x400).toUInt16.toNat
        = 0xDC00 + (c.toNat - 0x10000) % 0x400 := toNat_toUInt16 (by omega)
    have hlead : isLeading (0xD800 + (c.toNat - 0x10000) / 0x400).toUInt16 = true := by
      rw [isLeading_iff]
      omega
    have htrail : isTrailing (0xDC00 + (c.toNat - 0x10000) % 0x400).toUInt16 = true := by
      rw [isTrailing_iff]
      omega
    have hnat : 0x10000 + (0xD800 + (c.toNat - 0x10000) / 0x400 - 0xD800) * 0x400
        + (0xDC00 + (c.toNat - 0x10000) % 0x400 - 0xDC00) = c.toNat := by omega
    rw [charUnits, if_neg hbmp, List.cons_append, List.cons_append, List.nil_append, scalars, hlead,
      htrail, hhigh, hlow, hnat, Char.ofNat_toNat]
    rfl

lemma scalars_units (cs : List Char) : scalars (units cs) = cs := by
  induction cs with
  | nil => rfl
  | cons c cs ih =>
      rw [units, List.flatMap_cons, scalars_charUnits_append]
      exact congrArg _ ih

lemma encode_units (cs : List Char) : encode (units cs) = cs.flatMap String.utf8EncodeChar := by
  rw [encode, scalars_units]

lemma isWellFormed_append {s t : JsString} (hs : IsWellFormed s) (ht : IsWellFormed t) :
    IsWellFormed (s ++ t) := by
  obtain ⟨cs, rfl⟩ := hs
  obtain ⟨ds, rfl⟩ := ht
  exact ⟨cs ++ ds, List.flatMap_append⟩

lemma char_ofNat_toNat {n : ℕ} (h : n < 0xD800 ∨ 0xE000 ≤ n ∧ n < 0x110000) :
    (Char.ofNat n).toNat = n := by
  have hvalid : n.isValidChar := by
    rcases h with h | h
    · exact .inl h
    · exact .inr ⟨by omega, h.2⟩
  rw [Char.ofNat, dif_pos hvalid]
  rfl

/-- A code unit that is no surrogate is a character. -/
lemma isWellFormed_unit {u : UInt16} (h : u.toNat < 0xD800 ∨ 0xE000 ≤ u.toNat) :
    IsWellFormed [u] := by
  have hlt := u.toNat_lt
  have hnat : (Char.ofNat u.toNat).toNat = u.toNat := char_ofNat_toNat (by omega)
  refine ⟨[Char.ofNat u.toNat], ?_⟩
  rw [units, List.flatMap_cons, List.flatMap_nil, List.append_nil, charUnits, hnat,
    if_pos (by omega)]
  exact congrArg (fun u => [u]) UInt16.ofNat_toNat

/-- A pair of surrogates is a character. -/
lemma isWellFormed_pair {u v : UInt16} (hlead : isLeading u = true) (htrail : isTrailing v = true) :
    IsWellFormed [u, v] := by
  rw [isLeading_iff] at hlead
  rw [isTrailing_iff] at htrail
  have hnat : (Char.ofNat (0x10000 + (u.toNat - 0xD800) * 0x400 + (v.toNat - 0xDC00))).toNat
      = 0x10000 + (u.toNat - 0xD800) * 0x400 + (v.toNat - 0xDC00) := char_ofNat_toNat (by omega)
  have hu : 0xD800 + (0x10000 + (u.toNat - 0xD800) * 0x400 + (v.toNat - 0xDC00) - 0x10000) / 0x400
      = u.toNat := by omega
  have hv : 0xDC00 + (0x10000 + (u.toNat - 0xD800) * 0x400 + (v.toNat - 0xDC00) - 0x10000) % 0x400
      = v.toNat := by omega
  refine ⟨[Char.ofNat (0x10000 + (u.toNat - 0xD800) * 0x400 + (v.toNat - 0xDC00))], ?_⟩
  rw [units, List.flatMap_cons, List.flatMap_nil, List.append_nil, charUnits, hnat,
    if_neg (by omega), hu, hv]
  exact congrArg₂ (fun u v => [u, v]) UInt16.ofNat_toNat UInt16.ofNat_toNat

/-- UTF-8 tells characters apart. -/
lemma flatMap_utf8EncodeChar_injective :
    Function.Injective fun cs : List Char => cs.flatMap String.utf8EncodeChar := by
  intro cs ds h
  have hbytes : (String.ofList cs).toByteArray = (String.ofList ds).toByteArray := by
    rw [String.toByteArray_ofList, String.toByteArray_ofList]
    exact congrArg List.toByteArray h
  rw [← String.toList_ofList (l := cs), ← String.toList_ofList (l := ds),
    String.toByteArray_inj.mp hbytes]

/-- The encoding of a string without lone surrogates tells it. -/
lemma encode_injOn {s t : JsString} (hs : IsWellFormed s) (ht : IsWellFormed t)
    (h : encode s = encode t) : s = t := by
  obtain ⟨cs, rfl⟩ := hs
  obtain ⟨ds, rfl⟩ := ht
  rw [encode_units, encode_units] at h
  rw [flatMap_utf8EncodeChar_injective h]

end HashHush.Web
