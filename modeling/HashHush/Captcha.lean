import HashHush.Util.Codec

/-!
# The proof-of-work captcha

The sequential parts of `captcha.cpp`: splitting a token, its authentication code, the test of
a digest against a difficulty, and the ledger of tokens already spent.  A token is
`nonce_hex:exp_unix:hmac_hex`, so the server keeps nothing about it until it is accepted; from
then on the ledger remembers the nonce up to the token's own expiry.  The function
`verifyChallenge` itself reads the clock and takes a lock, and is a program in `Handlers.lean`.
-/

namespace HashHush.Captcha

open Sha256

/-- `enum class VerifyResult`. -/
inductive VerifyResult
  | ok
  | malformed
  | badHmac
  | expired
  | badProof
  | reused
  deriving DecidableEq

/-! ## Tokens -/

/-- `std::string::find` of a character from a position on. -/
def find (s : Str) (c : UInt8) (pos : ℕ) : Option ℕ :=
  ((s.drop pos).findIdx? (· == c)).map (· + pos)

def colon : UInt8 := ':'.toNat.toUInt8

/-- `split3`: the three parts of `a:b:c`, when there are exactly two colons. -/
def split3 (s : Str) : Option (Str × Str × Str) :=
  match find s colon 0 with
  | none => none
  | some p1 =>
      match find s colon (p1 + 1) with
      | none => none
      | some p2 =>
          match find s colon (p2 + 1) with
          | some _ => none
          | none => some (s.take p1, (s.drop (p1 + 1)).take (p2 - p1 - 1), s.drop (p2 + 1))

def isSpace (c : UInt8) : Bool := c == 32 || (9 ≤ c && c ≤ 13)

def isDigit (c : UInt8) : Bool := 48 ≤ c && c ≤ 57

/-- `std::stoll`: blanks, a sign and the longest run of digits; it throws when there is no digit
or the number needs more than 64 bits. -/
def stoll (s : Str) : Option ℤ :=
  let s := s.dropWhile isSpace
  let neg := s.head? == some '-'.toNat.toUInt8
  let body := if neg || s.head? == some '+'.toNat.toUInt8 then s.tail else s
  let digits := body.takeWhile isDigit
  if digits = [] then none
  else
    let n : ℤ := digits.foldl (fun acc d => acc * 10 + ((d.toNat : ℤ) - 48)) 0
    let v := if neg then -n else n
    if -2 ^ 63 ≤ v ∧ v < 2 ^ 63 then some v else none

/-! ## Authentication and proof -/

def kBlockBytes : ℕ := 64

/-- `hmacSha256`. -/
def hmacSha256 (key msg : List UInt8) : List UInt8 :=
  let key := if key.length > kBlockBytes then sha256 key else key
  let kPad := key ++ List.replicate (kBlockBytes - key.length) 0
  let inner := digest (update (update {} (kPad.map (· ^^^ 0x36))) msg)
  digest (update (update {} (kPad.map (· ^^^ 0x5C))) inner)

/-- `hmacHex`, under the secret of the process. -/
def hmacHex (secret : List UInt8) (payload : Str) : Str := toHex (hmacSha256 secret payload)

/-- `ctEqualStr`: the comparison does not stop at the first difference. -/
def ctEqualStr (a b : Str) : Bool :=
  a.length == b.length && ((a.zipWith (· ^^^ ·) b).foldl (· ||| ·) 0 == 0)

/-- `meetsDifficulty`: the digest starts with `bits` zero bits. -/
def meetsDifficulty (digest : List UInt8) (bits : ℤ) : Bool :=
  let full := (bits.tdiv 8).toNat
  let rem := bits.tmod 8
  (digest.take full).all (· == 0) &&
    (!decide (rem > 0) || digest.getD full 0 &&& (0xFF <<< (8 - rem).toNat.toUInt8) == 0)

/-- The digest a proof of work has to bring below the target. -/
def proofDigest (challenge nonce : Str) : List UInt8 :=
  digest (update (update {} challenge) nonce)

/-! ## The ledger of spent tokens -/

/-- `nonce_hex ↦ exp_unix`. -/
abbrev Ledger := Str → Option ℤ

/-- `gcLocked`: drop the entries that have expired by `now`. -/
def gcLocked (m : Ledger) (now : ℤ) : Ledger := fun n => (m n).filter fun exp => now < exp

/-- The locked end of `verifyChallenge`: collect, then insert unless the nonce is present. -/
def commit (m : Ledger) (nonceHex : Str) (exp now : ℤ) : Bool × Ledger :=
  match gcLocked m now nonceHex with
  | some _ => (false, gcLocked m now)
  | none => (true, Function.update (gcLocked m now) nonceHex (some exp))

/-! ## What the ledger remembers -/

/-- One passage through the locked end of `verifyChallenge`, and whether it inserted the nonce. -/
structure Commit where
  nonceHex : Str
  exp : ℤ
  now : ℤ
  inserted : Bool

/-- The nonce was inserted with this expiry. -/
def Inserted (cs : List Commit) (nonceHex : Str) (exp : ℤ) : Prop :=
  ∃ c ∈ cs, c.nonceHex = nonceHex ∧ c.exp = exp ∧ c.inserted = true

/-- The nonce was inserted with this expiry, and nobody has collected since with a clock at or
past it. -/
def Remembers (cs : List Commit) (nonceHex : Str) (exp : ℤ) : Prop :=
  ∃ pre c post, cs = pre ++ c :: post ∧ c.nonceHex = nonceHex ∧ c.exp = exp ∧
    c.inserted = true ∧ ∀ c' ∈ post, c'.now < exp

lemma Remembers.inserted {cs : List Commit} {n : Str} {e : ℤ} (h : Remembers cs n e) :
    Inserted cs n e := by
  obtain ⟨pre, c, post, rfl, hn, he, hi, -⟩ := h
  exact ⟨c, by simp, hn, he, hi⟩

lemma snoc_eq_append_cons {α : Type} {xs pre post : List α} {x y : α}
    (h : xs ++ [x] = pre ++ y :: post) :
    (xs = pre ∧ x = y ∧ post = []) ∨ ∃ post', post = post' ++ [x] ∧ xs = pre ++ y :: post' := by
  rcases List.eq_nil_or_concat post with rfl | ⟨post', last, rfl⟩
  · obtain ⟨hxs, hx⟩ := List.append_inj' h rfl
    exact .inl ⟨hxs, by simpa using hx, rfl⟩
  · have h : xs ++ [x] = (pre ++ y :: post') ++ [last] := by simpa using h
    obtain ⟨hxs, hx⟩ := List.append_inj' h rfl
    obtain rfl : x = last := by simpa using hx
    exact .inr ⟨post', by simp, hxs⟩

lemma remembers_snoc {cs : List Commit} {c : Commit} {n : Str} {e : ℤ} :
    Remembers (cs ++ [c]) n e ↔
      (Remembers cs n e ∧ c.now < e) ∨ (c.nonceHex = n ∧ c.exp = e ∧ c.inserted = true) := by
  constructor
  · rintro ⟨pre, d, post, heq, hn, he, hi, hpost⟩
    rcases snoc_eq_append_cons heq with ⟨-, rfl, -⟩ | ⟨post, rfl, hcs⟩
    · exact .inr ⟨hn, he, hi⟩
    · refine .inl ⟨⟨pre, d, post, hcs, hn, he, hi, fun c' hc' => ?_⟩, hpost c (by simp)⟩
      exact hpost c' (by simp [hc'])
  · rintro (⟨⟨pre, d, post, rfl, hn, he, hi, hpost⟩, hnow⟩ | ⟨hn, he, hi⟩)
    · refine ⟨pre, d, post ++ [c], by simp, hn, he, hi, fun c' hc' => ?_⟩
      rcases List.mem_append.mp hc' with hc' | hc'
      · exact hpost c' hc'
      · rw [List.mem_singleton.mp hc']
        exact hnow
    · exact ⟨cs, c, [], rfl, hn, he, hi, nofun⟩

/-- The ledger holds what the passages so far make it remember. -/
def Ledger.Reflects (m : Ledger) (cs : List Commit) : Prop :=
  ∀ n e, m n = some e ↔ Remembers cs n e

lemma Ledger.Reflects.empty : Ledger.Reflects (fun _ => none) [] := by
  intro n e
  simp [Remembers]

lemma gcLocked_eq_some {m : Ledger} {now e : ℤ} {n : Str} :
    gcLocked m now n = some e ↔ m n = some e ∧ now < e := by
  simp [gcLocked, Option.filter_eq_some_iff]

/-- A passage inserts its nonce unless the ledger still holds it. -/
lemma Ledger.Reflects.commit_eq_true {m : Ledger} {cs : List Commit} (h : m.Reflects cs)
    (n : Str) (exp now : ℤ) :
    (commit m n exp now).1 = true ↔ ∀ e, Remembers cs n e → e ≤ now := by
  have hheld : ∀ e, gcLocked m now n = some e ↔ Remembers cs n e ∧ now < e := fun e =>
    gcLocked_eq_some.trans (and_congr_left' (h n e))
  cases hgc : gcLocked m now n with
  | none =>
      simp only [commit, hgc, true_iff]
      intro e he
      by_contra hlt
      have hsome := (hheld e).mpr ⟨he, by omega⟩
      rw [hgc] at hsome
      cases hsome
  | some e =>
      obtain ⟨hrem, hlt⟩ := (hheld e).mp hgc
      simp only [commit, hgc, Bool.false_eq_true, false_iff, not_forall]
      exact ⟨e, hrem, by omega⟩

/-- A passage leaves the ledger as the passages then make it. -/
lemma Ledger.Reflects.commit {m : Ledger} {cs : List Commit} (h : m.Reflects cs) (n : Str)
    (exp now : ℤ) :
    (commit m n exp now).2.Reflects (cs ++ [⟨n, exp, now, (commit m n exp now).1⟩]) := by
  have hheld : ∀ n' e, gcLocked m now n' = some e ↔ Remembers cs n' e ∧ now < e := fun n' e =>
    gcLocked_eq_some.trans (and_congr_left' (h n' e))
  intro n' e
  rw [remembers_snoc, ← hheld]
  cases hgc : gcLocked m now n with
  | some e' => simp [Captcha.commit, hgc]
  | none =>
      simp only [Captcha.commit, hgc, and_true]
      by_cases hn : n' = n
      · subst hn
        simp [hgc]
      · simp [hn, Ne.symm hn]

/-! ## Passages in order -/

/-- A property of every passage in the light of those before it. -/
def Throughout (P : List Commit → Commit → Prop) (cs : List Commit) : Prop :=
  ∀ pre c post, cs = pre ++ c :: post → P pre c

lemma throughout_snoc {P : List Commit → Commit → Prop} {cs : List Commit} {c : Commit} :
    Throughout P (cs ++ [c]) ↔ Throughout P cs ∧ P cs c := by
  constructor
  · intro h
    refine ⟨fun pre d post hcs => ?_, h cs c [] rfl⟩
    exact h pre d (post ++ [c]) (by simp [hcs])
  · rintro ⟨hcs, hc⟩ pre d post heq
    rcases snoc_eq_append_cons heq with ⟨rfl, rfl, -⟩ | ⟨post, -, hsplit⟩
    · exact hc
    · exact hcs pre d post hsplit

/-- The clock had not reached the expiry, and the nonce was inserted unless the ledger still held
it. -/
def Lawful (pre : List Commit) (c : Commit) : Prop :=
  c.now < c.exp ∧ (c.inserted = true ↔ ∀ e, Remembers pre c.nonceHex e → e ≤ c.now)

/-- If the nonce was inserted before, nobody has collected since with a clock at or past its
expiry. -/
def Timely (pre : List Commit) (c : Commit) : Prop :=
  Inserted pre c.nonceHex c.exp → Remembers pre c.nonceHex c.exp

/-- Two passages did not both insert one nonce. -/
def Once (c d : Commit) : Prop :=
  ¬ (c.inserted = true ∧ d.inserted = true ∧ c.nonceHex = d.nonceHex)

/-- No nonce is inserted twice exactly if every passage is timely, provided that a nonce comes with
one expiry only. -/
theorem once_iff_timely {cs : List Commit} (hlaw : Throughout Lawful cs)
    (hexp : ∀ c ∈ cs, ∀ d ∈ cs, c.nonceHex = d.nonceHex → c.exp = d.exp) :
    cs.Pairwise Once ↔ Throughout Timely cs := by
  induction cs using List.reverseRecOn with
  | nil => simp [Throughout]
  | append_singleton cs c ih =>
      obtain ⟨hlaw, hnow, hins⟩ := throughout_snoc.mp hlaw
      have hold : ∀ d ∈ cs, c.nonceHex = d.nonceHex → c.exp = d.exp := fun d hd =>
        hexp c (by simp) d (by simp [hd])
      rw [List.pairwise_append, throughout_snoc, ih hlaw fun d hd d' hd' =>
        hexp d (by simp [hd]) d' (by simp [hd'])]
      refine and_congr_right fun _ => ?_
      simp only [List.pairwise_singleton, List.mem_singleton, forall_eq, true_and]
      constructor
      · rintro honce ⟨d, hd, hn, -, hdi⟩
        -- the passage inserts nothing, so the ledger still holds the nonce
        have hno : ¬ c.inserted = true := fun hci => honce d hd ⟨hdi, hci, hn⟩
        rw [hins] at hno
        push Not at hno
        obtain ⟨e, hrem, -⟩ := hno
        obtain ⟨d', hd', hn', he', -⟩ := hrem.inserted
        have heq : c.exp = e := (hold d' hd' hn'.symm).trans he'
        rwa [heq]
      · rintro htimely d hd ⟨hdi, hci, hn⟩
        have hrem := htimely ⟨d, hd, hn, (hold d hd hn.symm).symm, hdi⟩
        have hle := hins.mp hci c.exp hrem
        omega

end HashHush.Captcha
