import HashHush.Web.Crypto

/-!
# JSON in the page

`JSON.stringify` of an object whose fields are strings, and `JSON.parse`, on code units.  Surrogates
that are alone are escaped (`isWellFormed_stringify`), and `parse_stringify` gives every such object
back.
-/

namespace HashHush.Web

/-- What `JSON.parse` makes of a text. -/
inductive JsValue
  | null
  | bool (b : Bool)
  | number (literal : JsString)
  | string (s : JsString)
  | array (items : List JsValue)
  | object (fields : List (JsString × JsValue))

/-- A property of a value; `none` is `undefined`.  Of several fields with the key the last one
counts. -/
def JsValue.get? : JsValue → JsString → Option JsValue
  | object fields, key => (fields.reverse.find? fun f => f.1 = key).map Prod.snd
  | _, _ => none

abbrev codeUnit (c : Char) : UInt16 := c.toNat.toUInt16

namespace JSON

/-! ## Writing -/

/-- The characters with an escape of their own, and its letter. -/
def escapes : List (UInt16 × UInt16) :=
  [(0x08, codeUnit 'b'), (0x09, codeUnit 't'), (0x0A, codeUnit 'n'), (0x0C, codeUnit 'f'),
    (0x0D, codeUnit 'r'), (codeUnit '"', codeUnit '"'), (codeUnit '\\', codeUnit '\\')]

def hexUnit (n : ℕ) : UInt16 := (hexChar n.toUInt8).toUInt16

/-- The escape `\uXXXX`. -/
def unicodeEscape (u : UInt16) : JsString :=
  [codeUnit '\\', codeUnit 'u', hexUnit (u.toNat / 0x1000), hexUnit (u.toNat / 0x100 % 0x10),
    hexUnit (u.toNat / 0x10 % 0x10), hexUnit (u.toNat % 0x10)]

/-- A code unit that is not part of a pair. -/
def quoteUnit (u : UInt16) : JsString :=
  match escapes.lookup u with
  | some letter => [codeUnit '\\', letter]
  | none => if u < 0x20 ∨ isLeading u ∨ isTrailing u then unicodeEscape u else [u]

def quoteUnits : JsString → JsString
  | [] => []
  | [u] => quoteUnit u
  | u :: v :: rest =>
      if isLeading u && isTrailing v then u :: v :: quoteUnits rest
      else quoteUnit u ++ quoteUnits (v :: rest)

def quote (s : JsString) : JsString := codeUnit '"' :: (quoteUnits s ++ [codeUnit '"'])

/-- The fields of an object, with the bracket behind them. -/
def stringifyFields : List (JsString × JsString) → JsString
  | [] => [codeUnit '}']
  | [(key, value)] => quote key ++ codeUnit ':' :: (quote value ++ [codeUnit '}'])
  | (key, value) :: fields =>
      quote key ++ codeUnit ':' :: (quote value ++ codeUnit ',' :: stringifyFields fields)

/-- `JSON.stringify` of an object of strings. -/
def stringify (fields : List (JsString × JsString)) : JsString :=
  codeUnit '{' :: stringifyFields fields

/-! ## Reading -/

def isBlank (u : UInt16) : Bool := u ∈ ([0x20, 0x09, 0x0A, 0x0D] : List UInt16)

def skipBlanks (s : JsString) : JsString := s.dropWhile isBlank

/-- The character that a letter behind a backslash stands for. -/
def unescape (letter : UInt16) : Option UInt16 :=
  if letter = codeUnit '/' then some letter
  else (escapes.find? fun p => p.2 = letter).map Prod.fst

def hexUnits (a b c d : UInt16) : Option UInt16 := do
  let a ← hexDigit a
  let b ← hexDigit b
  let c ← hexDigit c
  let d ← hexDigit d
  return (a * 0x1000 + b * 0x100 + c * 0x10 + d).toUInt16

/-- The rest of a string behind its first quote, and what follows the string. -/
def parseString : JsString → Option (JsString × JsString)
  | [] => none
  | u :: s =>
      if u = codeUnit '"' then some ([], s)
      else if u = codeUnit '\\' then
        match s with
        | [] => none
        | letter :: s =>
            if letter = codeUnit 'u' then
              match s with
              | a :: b :: c :: d :: s => do
                  let v ← hexUnits a b c d
                  (parseString s).map (Prod.map (v :: ·) id)
              | _ => none
            else do
              let v ← unescape letter
              (parseString s).map (Prod.map (v :: ·) id)
      else if u < 0x20 then none
      else (parseString s).map (Prod.map (u :: ·) id)

def isDigit (u : UInt16) : Bool := codeUnit '0' ≤ u && u ≤ codeUnit '9'

def parseDigits (s : JsString) : Option (JsString × JsString) :=
  match s.span isDigit with
  | ([], _) => none
  | (digits, rest) => some (digits, rest)

/-- The digits before the point; a zero stands alone. -/
def parseWhole : JsString → Option (JsString × JsString)
  | [] => none
  | u :: s => if u = codeUnit '0' then some ([u], s) else parseDigits (u :: s)

def parseFraction : JsString → Option (JsString × JsString)
  | [] => some ([], [])
  | u :: s =>
      if u = codeUnit '.' then (parseDigits s).map (Prod.map (u :: ·) id)
      else some ([], u :: s)

def parseExponent : JsString → Option (JsString × JsString)
  | [] => some ([], [])
  | u :: s =>
      if u = codeUnit 'e' ∨ u = codeUnit 'E' then
        match s with
        | [] => none
        | v :: s =>
            if v = codeUnit '+' ∨ v = codeUnit '-' then
              (parseDigits s).map (Prod.map (fun digits => u :: v :: digits) id)
            else (parseDigits (v :: s)).map (Prod.map (u :: ·) id)
      else some ([], u :: s)

def parseUnsigned (s : JsString) : Option (JsString × JsString) := do
  let (whole, s) ← parseWhole s
  let (fraction, s) ← parseFraction s
  let (exponent, s) ← parseExponent s
  return (whole ++ fraction ++ exponent, s)

def parseNumber : JsString → Option (JsString × JsString)
  | [] => none
  | u :: s =>
      if u = codeUnit '-' then (parseUnsigned s).map (Prod.map (u :: ·) id)
      else parseUnsigned (u :: s)

/-- A value that is no string and holds no others. -/
def parseScalar (s : JsString) : Option (JsValue × JsString) :=
  if (text (ascii "null")).isPrefixOf s then some (.null, s.drop 4)
  else if (text (ascii "true")).isPrefixOf s then some (.bool true, s.drop 4)
  else if (text (ascii "false")).isPrefixOf s then some (.bool false, s.drop 5)
  else (parseNumber s).map (Prod.map .number id)

/-- What is behind the expected character. -/
def expect (c : Char) : JsString → Option JsString
  | [] => none
  | u :: s => if u = codeUnit c then some s else none

mutual

/-- A value, with a bound on the depth and the length of the text. -/
def parseValue : ℕ → JsString → Option (JsValue × JsString)
  | 0, _ => none
  | fuel + 1, s =>
      match skipBlanks s with
      | [] => none
      | u :: rest =>
          if u = codeUnit '"' then (parseString rest).map (Prod.map .string id)
          else if u = codeUnit '{' then
            match expect '}' (skipBlanks rest) with
            | some rest => some (.object [], rest)
            | none => (parseFields fuel rest).map (Prod.map .object id)
          else if u = codeUnit '[' then
            match expect ']' (skipBlanks rest) with
            | some rest => some (.array [], rest)
            | none => (parseItems fuel rest).map (Prod.map .array id)
          else parseScalar (u :: rest)

/-- The fields of an object, up to its bracket. -/
def parseFields : ℕ → JsString → Option (List (JsString × JsValue) × JsString)
  | 0, _ => none
  | fuel + 1, s => do
      let s ← expect '"' (skipBlanks s)
      let (key, s) ← parseString s
      let s ← expect ':' (skipBlanks s)
      let (value, s) ← parseValue fuel s
      match expect ',' (skipBlanks s) with
      | some s => (parseFields fuel s).map (Prod.map ((key, value) :: ·) id)
      | none => (expect '}' (skipBlanks s)).map fun s => ([(key, value)], s)

/-- The items of an array, up to its bracket. -/
def parseItems : ℕ → JsString → Option (List JsValue × JsString)
  | 0, _ => none
  | fuel + 1, s => do
      let (value, s) ← parseValue fuel s
      match expect ',' (skipBlanks s) with
      | some s => (parseItems fuel s).map (Prod.map (value :: ·) id)
      | none => (expect ']' (skipBlanks s)).map fun s => ([value], s)

end

/-- `JSON.parse`; `none` where it throws. -/
def parse (s : JsString) : Option JsValue := do
  let (value, rest) ← parseValue (2 * s.length + 1) s
  if skipBlanks rest = [] then some value else none

/-! ## The bound -/

variable {α β : Type}

/-- Where something is read, some of the text is used up. -/
def Consumes (s : JsString) (r : Option (α × JsString)) : Prop :=
  ∀ found, r = some found → found.2.length < s.length

lemma Consumes.none {s : JsString} : Consumes s (none : Option (α × JsString)) := by
  intro found h
  cases h

lemma Consumes.some {s rest : JsString} {a : α} (h : rest.length < s.length) :
    Consumes s (some (a, rest)) := by
  intro found hfound
  cases hfound
  exact h

lemma Consumes.mono {s s' : JsString} {r : Option (α × JsString)} (h : Consumes s r)
    (hle : s.length ≤ s'.length) : Consumes s' r := fun found hfound =>
  (h found hfound).trans_le hle

lemma Consumes.cons {s : JsString} {r : Option (α × JsString)} (h : Consumes s r) (u : UInt16) :
    Consumes (u :: s) r := h.mono (Nat.le_succ _)

lemma Consumes.map {s : JsString} {r : Option (α × JsString)} (h : Consumes s r) (f : α → β) :
    Consumes s (r.map (Prod.map f id)) := by
  intro found hfound
  obtain ⟨⟨a, rest⟩, hr, rfl⟩ := Option.map_eq_some_iff.mp hfound
  exact h _ hr

lemma length_skipBlanks (s : JsString) : (skipBlanks s).length ≤ s.length :=
  (List.dropWhile_suffix _).length_le

lemma length_of_expect {c : Char} {s rest : JsString} (h : expect c (skipBlanks s) = some rest) :
    rest.length < s.length := by
  have hblanks := length_skipBlanks s
  cases hs : skipBlanks s with
  | nil =>
      rw [hs] at h
      cases h
  | cons u s' =>
      rw [hs, List.length_cons] at hblanks
      rw [hs, expect] at h
      split at h
      · cases h
        omega
      · cases h

lemma consumes_parseString (s : JsString) : Consumes s (parseString s) := by
  fun_induction parseString s with
  | case1 | case3 | case5 | case7 => exact .none
  | case2 s => exact .some (Nat.lt_succ_self _)
  | case4 a b c d s hquote ih =>
      cases hexUnits a b c d with
      | none => exact .none
      | some v => exact ((((((ih.map _).cons _).cons _).cons _).cons _).cons _).cons _
  | case6 letter s hquote hu ih =>
      cases unescape letter with
      | none => exact .none
      | some v => exact ((ih.map _).cons _).cons _
  | case8 u s hquote hback hsmall ih => exact (ih.map _).cons _

lemma consumes_parseDigits (s : JsString) : Consumes s (parseDigits s) := by
  have hspan : s.takeWhile isDigit ++ s.dropWhile isDigit = s := List.takeWhile_append_dropWhile
  rw [parseDigits, List.span_eq_takeWhile_dropWhile]
  cases hdigits : s.takeWhile isDigit with
  | nil => exact .none
  | cons u digits =>
      apply Consumes.some
      rw [hdigits] at hspan
      have hlen := congrArg List.length hspan
      rw [List.length_append, List.length_cons] at hlen
      omega

/-- Of an optional part the text behind it may be all of the text. -/
lemma le_of_parseFraction {s : JsString} {found : JsString × JsString}
    (h : parseFraction s = some found) : found.2.length ≤ s.length := by
  cases s with
  | nil =>
      cases h
      exact le_rfl
  | cons u s =>
      rw [parseFraction] at h
      split at h
      · exact (((consumes_parseDigits s).map _).cons u found h).le
      · cases h
        exact le_rfl

lemma le_of_parseExponent {s : JsString} {found : JsString × JsString}
    (h : parseExponent s = some found) : found.2.length ≤ s.length := by
  rcases s with _ | ⟨u, s⟩
  · cases h
    exact le_rfl
  · rw [parseExponent.eq_def] at h
    dsimp only at h
    split at h
    · rcases s with _ | ⟨v, s⟩
      · cases h
      · dsimp only at h
        split at h
        · exact ((((consumes_parseDigits s).map _).cons v).cons u found h).le
        · exact (((consumes_parseDigits (v :: s)).map _).cons u found h).le
    · cases h
      exact le_rfl

lemma consumes_parseWhole (s : JsString) : Consumes s (parseWhole s) := by
  cases s with
  | nil => exact .none
  | cons u s =>
      rw [parseWhole]
      split
      · exact .some (Nat.lt_succ_self _)
      · exact consumes_parseDigits _

lemma consumes_parseUnsigned (s : JsString) : Consumes s (parseUnsigned s) := by
  intro found h
  obtain ⟨⟨whole, s₁⟩, hwhole, h⟩ := Option.bind_eq_some_iff.mp h
  obtain ⟨⟨fraction, s₂⟩, hfraction, h⟩ := Option.bind_eq_some_iff.mp h
  obtain ⟨⟨exponent, s₃⟩, hexponent, h⟩ := Option.bind_eq_some_iff.mp h
  cases h
  have h₁ : s₁.length < s.length := consumes_parseWhole s _ hwhole
  have h₂ : s₂.length ≤ s₁.length := le_of_parseFraction hfraction
  have h₃ : s₃.length ≤ s₂.length := le_of_parseExponent hexponent
  exact h₃.trans_lt (h₂.trans_lt h₁)

lemma consumes_parseNumber (s : JsString) : Consumes s (parseNumber s) := by
  cases s with
  | nil => exact .none
  | cons u s =>
      rw [parseNumber]
      split
      · exact ((consumes_parseUnsigned s).map _).cons u
      · exact consumes_parseUnsigned _

lemma consumes_drop {w s : JsString} {n : ℕ} (hw : w.length = n) (hpos : 0 < n)
    (h : w.isPrefixOf s = true) (v : JsValue) : Consumes s (some (v, s.drop n)) := by
  have hle : w.length ≤ s.length := (List.isPrefixOf_iff_prefix.mp h).length_le
  apply Consumes.some
  rw [List.length_drop]
  omega

lemma consumes_parseScalar (s : JsString) : Consumes s (parseScalar s) := by
  have hnull : (text (ascii "null")).length = 4 := by simp [text, ascii]
  have htrue : (text (ascii "true")).length = 4 := by simp [text, ascii]
  have hfalse : (text (ascii "false")).length = 5 := by simp [text, ascii]
  rw [parseScalar]
  split
  · exact consumes_drop hnull (by norm_num) ‹_› _
  · split
    · exact consumes_drop htrue (by norm_num) ‹_› _
    · split
      · exact consumes_drop hfalse (by norm_num) ‹_› _
      · exact (consumes_parseNumber s).map _

/-- A value, or what stands between brackets, uses up some of the text. -/
lemma consumes_parse (fuel : ℕ) : (∀ s, Consumes s (parseValue fuel s)) ∧
    (∀ s, Consumes s (parseFields fuel s)) ∧ ∀ s, Consumes s (parseItems fuel s) := by
  induction fuel with
  | zero => exact ⟨fun s => .none, fun s => .none, fun s => .none⟩
  | succ fuel ih =>
      obtain ⟨hvalue, hfields, hitems⟩ := ih
      refine ⟨fun s => ?_, fun s => ?_, fun s => ?_⟩
      · have hblanks := length_skipBlanks s
        rw [parseValue]
        cases hs : skipBlanks s with
        | nil => exact .none
        | cons u rest =>
            rw [hs] at hblanks
            refine Consumes.mono (s := u :: rest) ?_ hblanks
            dsimp only
            split
            · exact ((consumes_parseString rest).map _).cons u
            · split
              · cases hclose : expect '}' (skipBlanks rest) with
                | some rest' => exact (Consumes.some (length_of_expect hclose)).cons u
                | none => exact ((hfields rest).map _).cons u
              · split
                · cases hclose : expect ']' (skipBlanks rest) with
                  | some rest' => exact (Consumes.some (length_of_expect hclose)).cons u
                  | none => exact ((hitems rest).map _).cons u
                · exact consumes_parseScalar _
      · intro found h
        obtain ⟨s₁, hquote, h⟩ := Option.bind_eq_some_iff.mp h
        obtain ⟨⟨key, s₂⟩, hkey, h⟩ := Option.bind_eq_some_iff.mp h
        obtain ⟨s₃, hcolon, h⟩ := Option.bind_eq_some_iff.mp h
        obtain ⟨⟨value, s₄⟩, hval, h⟩ := Option.bind_eq_some_iff.mp h
        have h₁ : s₁.length < s.length := length_of_expect hquote
        have h₂ : s₂.length < s₁.length := consumes_parseString s₁ _ hkey
        have h₃ : s₃.length < s₂.length := length_of_expect hcolon
        have h₄ : s₄.length < s₃.length := hvalue s₃ _ hval
        have hrest : found.2.length < s₄.length := by
          dsimp only at h
          split at h
          · rename_i s₅ hcomma
            have h₅ : s₅.length < s₄.length := length_of_expect hcomma
            exact ((hfields s₅).map _ found h).trans h₅
          · obtain ⟨s₅, hclose, rfl⟩ := Option.map_eq_some_iff.mp h
            exact length_of_expect hclose
        omega
      · intro found h
        obtain ⟨⟨value, s₁⟩, hval, h⟩ := Option.bind_eq_some_iff.mp h
        have h₁ : s₁.length < s.length := hvalue s _ hval
        have hrest : found.2.length < s₁.length := by
          dsimp only at h
          split at h
          · rename_i s₂ hcomma
            have h₂ : s₂.length < s₁.length := length_of_expect hcomma
            exact ((hitems s₂).map _ found h).trans h₂
          · obtain ⟨s₂, hclose, rfl⟩ := Option.map_eq_some_iff.mp h
            exact length_of_expect hclose
        omega

/-- The bound does not matter where it is above twice the length of the text. -/
lemma parse_bound (fuel : ℕ) : ∀ fuel' s,
    (2 * s.length < fuel → 2 * s.length < fuel' →
      parseValue fuel s = parseValue fuel' s ∧ parseFields fuel s = parseFields fuel' s) ∧
    (2 * s.length + 1 < fuel → 2 * s.length + 1 < fuel' →
      parseItems fuel s = parseItems fuel' s) := by
  induction fuel with
  | zero =>
      intro fuel' s
      constructor <;> omega
  | succ fuel ih =>
      intro fuel' s
      cases fuel' with
      | zero => constructor <;> omega
      | succ fuel' =>
          refine ⟨fun hfuel hfuel' => ⟨?_, ?_⟩, fun hfuel hfuel' => ?_⟩
          · have hblanks := length_skipBlanks s
            rw [parseValue, parseValue]
            cases hs : skipBlanks s with
            | nil => rfl
            | cons u rest =>
                rw [hs, List.length_cons] at hblanks
                obtain ⟨hsame, hitems⟩ := ih fuel' rest
                dsimp only
                rw [(hsame (by omega) (by omega)).2, hitems (by omega) (by omega)]
          · rw [parseFields, parseFields]
            refine Option.bind_congr fun s₁ hquote => Option.bind_congr fun ⟨key, s₂⟩ hkey => ?_
            refine Option.bind_congr fun s₃ hcolon => ?_
            have h₁ : s₁.length < s.length := length_of_expect hquote
            have h₂ : s₂.length < s₁.length := consumes_parseString s₁ _ hkey
            have h₃ : s₃.length < s₂.length := length_of_expect hcolon
            rw [((ih fuel' s₃).1 (by omega) (by omega)).1]
            refine Option.bind_congr fun ⟨value, s₄⟩ hval => ?_
            have h₄ : s₄.length < s₃.length := (consumes_parse fuel').1 s₃ _ hval
            dsimp only
            cases hcomma : expect ',' (skipBlanks s₄) with
            | none => rfl
            | some s₅ =>
                have h₅ : s₅.length < s₄.length := length_of_expect hcomma
                dsimp only
                rw [((ih fuel' s₅).1 (by omega) (by omega)).2]
          · rw [parseItems, parseItems, ((ih fuel' s).1 (by omega) (by omega)).1]
            refine Option.bind_congr fun ⟨value, s₁⟩ hval => ?_
            have h₁ : s₁.length < s.length := (consumes_parse fuel').1 s _ hval
            dsimp only
            cases hcomma : expect ',' (skipBlanks s₁) with
            | none => rfl
            | some s₂ =>
                have h₂ : s₂.length < s₁.length := length_of_expect hcomma
                dsimp only
                rw [(ih fuel' s₂).2 (by omega) (by omega)]

lemma parseValue_bound {fuel : ℕ} {s : JsString} (h : 2 * s.length < fuel) :
    parseValue (2 * s.length + 1) s = parseValue fuel s :=
  ((parse_bound _ fuel s).1 (Nat.lt_succ_self _) h).1

/-! ## Strings -/

lemma hexDigit_hexUnit {n : ℕ} (h : n < 0x10) : hexDigit (hexUnit n) = some n := by
  have key : ∀ n < 0x10, hexDigit (hexUnit n) = some n := by decide +kernel
  exact key n h

lemma hexUnits_eq (u : UInt16) :
    hexUnits (hexUnit (u.toNat / 0x1000)) (hexUnit (u.toNat / 0x100 % 0x10))
      (hexUnit (u.toNat / 0x10 % 0x10)) (hexUnit (u.toNat % 0x10)) = some u := by
  have hlt := u.toNat_lt
  have hnat : u.toNat / 0x1000 * 0x1000 + u.toNat / 0x100 % 0x10 * 0x100
      + u.toNat / 0x10 % 0x10 * 0x10 + u.toNat % 0x10 = u.toNat := by omega
  rw [hexUnits, hexDigit_hexUnit (by omega), hexDigit_hexUnit (by omega),
    hexDigit_hexUnit (by omega), hexDigit_hexUnit (by omega)]
  simp only [Option.bind_eq_bind, Option.bind_some, hnat]
  exact congrArg some UInt16.ofNat_toNat

/-- A character that needs no escape. -/
def IsPlain (u : UInt16) : Prop := u ≠ codeUnit '"' ∧ u ≠ codeUnit '\\' ∧ ¬ u < 0x20

lemma parseString_plain {u : UInt16} (h : IsPlain u) (s : JsString) :
    parseString (u :: s) = (parseString s).map (Prod.map (u :: ·) id) := by
  rw [parseString.eq_def]
  dsimp only
  rw [if_neg h.1, if_neg h.2.1, if_neg h.2.2]

lemma isPlain_of_le {u : UInt16} (h : 0x80 ≤ u.toNat) : IsPlain u := by
  have hquote : (codeUnit '"').toNat = 0x22 := rfl
  have hback : (codeUnit '\\').toNat = 0x5C := rfl
  refine ⟨?_, ?_, ?_⟩
  · rintro rfl
    omega
  · rintro rfl
    omega
  · rw [UInt16.lt_iff_toNat_lt]
    have hspace : (0x20 : UInt16).toNat = 0x20 := rfl
    omega

lemma parseString_escape {u letter : UInt16} (h : escapes.lookup u = some letter) (s : JsString) :
    parseString (codeUnit '\\' :: letter :: s) = (parseString s).map (Prod.map (u :: ·) id) := by
  have key : escapes.all (fun p => p.2 ≠ codeUnit 'u' ∧ unescape p.2 = some p.1) = true := by
    decide +kernel
  obtain ⟨before, behind, hall, -⟩ := List.lookup_eq_some_iff.mp h
  have hmem : (u, letter) ∈ escapes := by simp [hall]
  obtain ⟨hletter, hback⟩ := of_decide_eq_true (List.all_eq_true.mp key (u, letter) hmem)
  rw [parseString.eq_def]
  dsimp only
  rw [if_neg (by decide), if_pos rfl, if_neg hletter, hback]
  rfl

lemma parseString_unicodeEscape (u : UInt16) (s : JsString) :
    parseString (unicodeEscape u ++ s) = (parseString s).map (Prod.map (u :: ·) id) := by
  simp only [unicodeEscape, List.cons_append, List.nil_append]
  rw [parseString.eq_def]
  dsimp only
  rw [if_neg (by decide), if_pos rfl, if_pos rfl, hexUnits_eq]
  rfl

lemma parseString_quoteUnit (u : UInt16) (s : JsString) :
    parseString (quoteUnit u ++ s) = (parseString s).map (Prod.map (u :: ·) id) := by
  rw [quoteUnit]
  cases hescape : escapes.lookup u with
  | some letter => exact parseString_escape hescape s
  | none =>
      dsimp only
      split
      · exact parseString_unicodeEscape u s
      · rename_i hordinary
        have hquote : u ≠ codeUnit '"' := by
          rintro rfl
          exact absurd hescape (by decide)
        have hback : u ≠ codeUnit '\\' := by
          rintro rfl
          exact absurd hescape (by decide)
        exact parseString_plain ⟨hquote, hback, fun hlt => hordinary (.inl hlt)⟩ s

/-- What is quoted is read back. -/
lemma parseString_quoteUnits (s rest : JsString) :
    parseString (quoteUnits s ++ codeUnit '"' :: rest) = some (s, rest) := by
  have hend : parseString (codeUnit '"' :: rest) = some ([], rest) := by
    rw [parseString.eq_def]
    exact if_pos rfl
  fun_induction quoteUnits s with
  | case1 => exact hend
  | case2 u =>
      rw [parseString_quoteUnit, hend]
      rfl
  | case3 u v s hpair ih =>
      obtain ⟨hlead, htrail⟩ := Bool.and_eq_true_iff.mp hpair
      rw [isLeading_iff] at hlead
      rw [isTrailing_iff] at htrail
      rw [List.cons_append, List.cons_append, parseString_plain (isPlain_of_le (by omega)),
        parseString_plain (isPlain_of_le (by omega)), ih]
      rfl
  | case4 u v s hpair ih =>
      rw [List.append_assoc, parseString_quoteUnit, ih]
      rfl

/-! ## Objects -/

lemma expect_skipBlanks {c : Char} (hc : isBlank (codeUnit c) = false) (s : JsString) :
    expect c (skipBlanks (codeUnit c :: s)) = some s := by
  rw [skipBlanks, List.dropWhile_cons_of_neg (by simp [hc]), expect, if_pos rfl]

lemma expect_other {c d : Char} (hd : isBlank (codeUnit d) = false) (hne : codeUnit d ≠ codeUnit c)
    (s : JsString) : expect c (skipBlanks (codeUnit d :: s)) = none := by
  rw [skipBlanks, List.dropWhile_cons_of_neg (by simp [hd]), expect, if_neg hne]

lemma parseValue_quote (fuel : ℕ) (s rest : JsString) :
    parseValue (fuel + 1) (quote s ++ rest) = some (.string s, rest) := by
  have hblanks : skipBlanks (quote s ++ rest)
      = codeUnit '"' :: (quoteUnits s ++ codeUnit '"' :: rest) := by
    rw [quote, List.cons_append, List.append_assoc, skipBlanks,
      List.dropWhile_cons_of_neg (by decide)]
    rfl
  rw [parseValue, hblanks]
  dsimp only
  rw [if_pos rfl, parseString_quoteUnits]
  rfl

/-- The fields of an object of strings, as they are read. -/
def stringFields (fields : List (JsString × JsString)) : List (JsString × JsValue) :=
  fields.map fun f => (f.1, .string f.2)

lemma stringFields_cons (key value : JsString) (fields : List (JsString × JsString)) :
    stringFields ((key, value) :: fields) = (key, .string value) :: stringFields fields := rfl

/-- A field, and what stands behind it. -/
lemma parseFields_quote (fuel : ℕ) (key value rest : JsString) :
    parseFields (fuel + 2) (quote key ++ codeUnit ':' :: (quote value ++ rest)) =
      match expect ',' (skipBlanks rest) with
      | some s => (parseFields (fuel + 1) s).map (Prod.map ((key, .string value) :: ·) id)
      | none => (expect '}' (skipBlanks rest)).map fun s => ([(key, .string value)], s) := by
  have hquote : expect '"' (skipBlanks (quote key ++ codeUnit ':' :: (quote value ++ rest)))
      = some (quoteUnits key ++ codeUnit '"' :: codeUnit ':' :: (quote value ++ rest)) := by
    rw [quote, List.cons_append, List.append_assoc, expect_skipBlanks (by decide)]
    rfl
  rw [parseFields, hquote, Option.bind_eq_bind, Option.bind_some, parseString_quoteUnits,
    Option.bind_eq_bind, Option.bind_some]
  dsimp only
  rw [expect_skipBlanks (by decide), Option.bind_eq_bind, Option.bind_some, parseValue_quote,
    Option.bind_some]

lemma parseFields_stringifyFields (fields : List (JsString × JsString)) :
    fields ≠ [] → ∀ fuel, fields.length < fuel → ∀ rest,
      parseFields fuel (stringifyFields fields ++ rest) = some (stringFields fields, rest) := by
  fun_induction stringifyFields fields with
  | case1 => exact fun h => absurd rfl h
  | case2 key value =>
      intro _ fuel hfuel rest
      obtain ⟨fuel, rfl⟩ : ∃ n, fuel = n + 2 := by
        rw [List.length_singleton] at hfuel
        exact ⟨fuel - 2, by omega⟩
      rw [List.append_assoc, List.cons_append, List.append_assoc, parseFields_quote,
        List.cons_append, expect_other (by decide) (by decide), expect_skipBlanks (by decide)]
      rfl
  | case3 key value fields hlast ih =>
      intro _ fuel hfuel rest
      have hne : fields ≠ [] := fun h => hlast h
      rw [List.length_cons] at hfuel
      obtain ⟨fuel, rfl⟩ : ∃ n, fuel = n + 2 := ⟨fuel - 2, by omega⟩
      rw [List.append_assoc, List.cons_append, List.append_assoc, parseFields_quote,
        List.cons_append, expect_skipBlanks (by decide)]
      dsimp only
      rw [ih hne _ (by omega), stringFields_cons]
      rfl

/-- An object of strings is read back. -/
lemma parse_stringify {fields : List (JsString × JsString)} (hne : fields ≠ []) :
    parse (stringify fields) = some (.object (stringFields fields)) := by
  have hquote : ∃ s, stringifyFields fields = codeUnit '"' :: s := by
    rcases fields with _ | ⟨⟨key, value⟩, _ | ⟨field, fields⟩⟩
    · exact absurd rfl hne
    · exact ⟨_, rfl⟩
    · exact ⟨_, rfl⟩
  obtain ⟨s, hs⟩ := hquote
  have hfields : parseFields (2 * (stringify fields).length + fields.length + 1)
      (stringifyFields fields) = some (stringFields fields, []) := by
    have hread := parseFields_stringifyFields fields hne
      (2 * (stringify fields).length + fields.length + 1) (by omega) []
    rwa [List.append_nil] at hread
  have hvalue : parseValue (2 * (stringify fields).length + 1) (stringify fields)
      = some (.object (stringFields fields), []) := by
    have hbound : parseValue (2 * (stringify fields).length + 1) (stringify fields)
        = parseValue (2 * (stringify fields).length + fields.length + 2) (stringify fields) :=
      parseValue_bound (by omega)
    rw [hbound, parseValue, stringify, skipBlanks, List.dropWhile_cons_of_neg (by decide)]
    dsimp only
    rw [if_neg (by decide), if_pos rfl, hs, expect_other (by decide) (by decide), ← hs]
    rw [stringify] at hfields
    rw [hfields]
    rfl
  rw [parse, hvalue]
  rfl

/-! ## Lone surrogates -/

lemma isWellFormed_of_lt {s : JsString} (h : ∀ u ∈ s, u.toNat < 0xD800) : IsWellFormed s := by
  induction s with
  | nil => exact ⟨[], rfl⟩
  | cons u s ih =>
      obtain ⟨hu, hs⟩ := List.forall_mem_cons.mp h
      exact isWellFormed_append (isWellFormed_unit (.inl hu)) (ih hs)

lemma isWellFormed_quoteUnit (u : UInt16) : IsWellFormed (quoteUnit u) := by
  have hletters : escapes.all (fun p => p.2.toNat < 0xD800) = true := by decide +kernel
  have hback : (codeUnit '\\').toNat < 0xD800 := by decide
  rw [quoteUnit]
  cases hescape : escapes.lookup u with
  | some letter =>
      obtain ⟨before, behind, hall, -⟩ := List.lookup_eq_some_iff.mp hescape
      have hmem : (u, letter) ∈ escapes := by simp [hall]
      have hletter := of_decide_eq_true (List.all_eq_true.mp hletters (u, letter) hmem)
      apply isWellFormed_of_lt
      simp [hletter]
  | none =>
      dsimp only
      split
      · have hhex : ∀ n < 0x10, (hexUnit n).toNat < 0xD800 := by decide +kernel
        have hu : (codeUnit 'u').toNat < 0xD800 := by decide
        have hlt := u.toNat_lt
        apply isWellFormed_of_lt
        simp only [unicodeEscape, List.forall_mem_cons]
        exact ⟨hback, hu, hhex _ (by omega), hhex _ (by omega), hhex _ (by omega),
          hhex _ (by omega), List.forall_mem_nil _⟩
      · rename_i hordinary
        simp only [not_or, Bool.not_eq_true] at hordinary
        obtain ⟨-, hlead, htrail⟩ := hordinary
        rw [← Bool.not_eq_true, isLeading_iff] at hlead
        rw [← Bool.not_eq_true, isTrailing_iff] at htrail
        exact isWellFormed_unit (by omega)

lemma isWellFormed_quoteUnits (s : JsString) : IsWellFormed (quoteUnits s) := by
  fun_induction quoteUnits s with
  | case1 => exact ⟨[], rfl⟩
  | case2 u => exact isWellFormed_quoteUnit u
  | case3 u v s hpair ih =>
      obtain ⟨hlead, htrail⟩ := Bool.and_eq_true_iff.mp hpair
      exact isWellFormed_append (isWellFormed_pair hlead htrail) ih
  | case4 u v s hpair ih => exact isWellFormed_append (isWellFormed_quoteUnit u) ih

example : quote [codeUnit '"', 0x0A, 0xD800]
    = text (ascii "\"\\\"\\n\\ud800\"") := by
  decide +kernel

lemma isWellFormed_quote (s : JsString) : IsWellFormed (quote s) := by
  have hquote : IsWellFormed [codeUnit '"'] := isWellFormed_unit (.inl (by decide))
  exact isWellFormed_append hquote (isWellFormed_append (isWellFormed_quoteUnits s) hquote)

lemma isWellFormed_stringifyFields (fields : List (JsString × JsString)) :
    IsWellFormed (stringifyFields fields) := by
  have hcolon : IsWellFormed [codeUnit ':'] := isWellFormed_unit (.inl (by decide))
  have hcomma : IsWellFormed [codeUnit ','] := isWellFormed_unit (.inl (by decide))
  have hclose : IsWellFormed [codeUnit '}'] := isWellFormed_unit (.inl (by decide))
  fun_induction stringifyFields fields with
  | case1 => exact hclose
  | case2 key value =>
      exact isWellFormed_append (isWellFormed_quote key) (isWellFormed_append hcolon
        (isWellFormed_append (isWellFormed_quote value) hclose))
  | case3 key value fields hlast ih =>
      exact isWellFormed_append (isWellFormed_quote key) (isWellFormed_append hcolon
        (isWellFormed_append (isWellFormed_quote value) (isWellFormed_append hcomma ih)))

/-- What is written holds no surrogate that is alone. -/
lemma isWellFormed_stringify (fields : List (JsString × JsString)) :
    IsWellFormed (stringify fields) := by
  have hopen : IsWellFormed [codeUnit '{'] := isWellFormed_unit (.inl (by decide))
  exact isWellFormed_append hopen (isWellFormed_stringifyFields fields)

end JSON

end HashHush.Web
