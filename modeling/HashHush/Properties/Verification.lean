import HashHush.Server
import HashHush.Util.BigEndian

/-!
# What `verifyChallenge` accepts

A token is accepted exactly when it is well formed, signed by this process, not expired, comes
with a nonce that brings the digest below the target, and has not been spent.  The specification
is `Accepted`, in terms of strings, numbers and a partial map; `verifyChallenge_spec` says that
the function decides it, and what it leaves in the ledger.

The parts come first, each against its own specification: the splitter (`split3_cases`), the
comparison in constant time (`ctEqualStr_iff`), the authentication code (`hmacSha256_eq`), and
the test of the leading bits (`meetsDifficulty_iff`).
-/

namespace HashHush

open Concurrency

namespace Captcha

/-! ## The splitter -/

lemma find_of_notMem {s : Str} {c : UInt8} {pos : ℕ} (h : c ∉ s.drop pos) : find s c pos = none := by
  have hnone : (s.drop pos).findIdx? (· == c) = none := by
    refine List.findIdx?_eq_none_iff.mpr fun b hb => ?_
    exact beq_eq_false_iff_ne.mpr fun hbc => h (hbc ▸ hb)
  rw [find, hnone]
  rfl

lemma find_of_eq {s a b : Str} {c : UInt8} {pos : ℕ} (hs : s.drop pos = a ++ c :: b) (ha : c ∉ a) :
    find s c pos = some (pos + a.length) := by
  have hfirst : (a ++ c :: b).findIdx? (· == c) = some a.length := by
    have hnone : a.findIdx? (· == c) = none := by
      refine List.findIdx?_eq_none_iff.mpr fun d hd => ?_
      exact beq_eq_false_iff_ne.mpr fun hdc => ha (hdc ▸ hd)
    simp [List.findIdx?_append, hnone, List.findIdx?_cons]
  rw [find, hs, hfirst, Option.map_some, Nat.add_comm]

/-- With two colons the string is split at them, and otherwise not at all. -/
lemma split3_cases (s : Str) :
    (s.count colon ≠ 2 ∧ split3 s = none) ∨
      ∃ a b c, s = a ++ colon :: (b ++ colon :: c) ∧ colon ∉ a ∧ colon ∉ b ∧ colon ∉ c ∧
        split3 s = some (a, b, c) := by
  by_cases h₁ : colon ∈ s
  · obtain ⟨a, t, rfl, ha⟩ := List.eq_append_cons_of_mem h₁
    have hfirst : find (a ++ colon :: t) colon 0 = some a.length := by
      have hzero : find (a ++ colon :: t) colon 0 = some (0 + a.length) := find_of_eq rfl ha
      rwa [Nat.zero_add] at hzero
    have hdrop : (a ++ colon :: t).drop (a.length + 1) = t := by simp
    by_cases h₂ : colon ∈ t
    · obtain ⟨b, c, rfl, hb⟩ := List.eq_append_cons_of_mem h₂
      have hsecond := find_of_eq hdrop hb
      have hdrop₂ : (a ++ colon :: (b ++ colon :: c)).drop (a.length + 1 + b.length + 1) = c := by
        rw [Nat.add_assoc (a.length + 1), ← List.drop_drop, hdrop]
        simp
      by_cases h₃ : colon ∈ c
      · obtain ⟨d, e, rfl, hd⟩ := List.eq_append_cons_of_mem h₃
        have hthird := find_of_eq hdrop₂ hd
        refine .inl ⟨?_, by simp only [split3, hfirst, hsecond, hthird]⟩
        simp only [List.count_append, List.count_cons_self]
        omega
      · have hthird := find_of_notMem (by rwa [hdrop₂])
        refine .inr ⟨a, b, c, rfl, ha, hb, h₃, ?_⟩
        simp only [split3, hfirst, hsecond, hthird, hdrop, hdrop₂]
        have hlen : a.length + 1 + b.length - a.length - 1 = b.length := by omega
        simp [hlen]
    · have hsecond := find_of_notMem (s := a ++ colon :: t) (by rwa [hdrop])
      refine .inl ⟨?_, by simp only [split3, hfirst, hsecond]⟩
      simp [List.count_eq_zero_of_not_mem ha, List.count_eq_zero_of_not_mem h₂]
  · have hfirst : find s colon 0 = none := find_of_notMem (by simpa using h₁)
    refine .inl ⟨?_, by simp only [split3, hfirst]⟩
    simp [List.count_eq_zero_of_not_mem h₁]

/-- What comes before the first colon, and what comes after it. -/
lemma append_cons_inj {α : Type} [DecidableEq α] {x : α} {a b a' b' : List α} (ha : x ∉ a)
    (ha' : x ∉ a') (h : a ++ x :: b = a' ++ x :: b') : a = a' ∧ b = b' := by
  induction a generalizing a' with
  | nil =>
      cases a' with
      | nil => exact ⟨rfl, by simpa using h⟩
      | cons y a' =>
          obtain rfl : x = y := by simpa using (List.cons.inj h).1
          exact absurd List.mem_cons_self ha'
  | cons y a ih =>
      cases a' with
      | nil =>
          obtain rfl : y = x := by simpa using (List.cons.inj h).1
          exact absurd List.mem_cons_self ha
      | cons z a' =>
          obtain ⟨rfl, hrest⟩ := List.cons.inj h
          obtain ⟨rfl, hb⟩ := ih (fun hx => ha (List.mem_cons_of_mem _ hx))
            (fun hx => ha' (List.mem_cons_of_mem _ hx)) hrest
          exact ⟨rfl, hb⟩

/-- The parts are unique. -/
lemma split3_iff {s a b c : Str} :
    split3 s = some (a, b, c) ↔ s = a ++ colon :: (b ++ colon :: c) ∧ s.count colon = 2 := by
  rcases split3_cases s with ⟨hcount, hnone⟩ | ⟨a', b', c', hs, ha', hb', hc', hsome⟩
  · simp [hcount, hnone]
  · have hcount : s.count colon = 2 := by
      rw [hs, List.count_append, List.count_cons_self, List.count_append, List.count_cons_self,
        List.count_eq_zero_of_not_mem ha', List.count_eq_zero_of_not_mem hb',
        List.count_eq_zero_of_not_mem hc']
    rw [hsome]
    simp only [hcount, and_true, Option.some.injEq, Prod.mk.injEq]
    constructor
    · rintro ⟨rfl, rfl, rfl⟩
      exact hs
    · intro heq
      have htwo : (a ++ colon :: (b ++ colon :: c)).count colon = 2 := heq ▸ hcount
      simp only [List.count_append, List.count_cons_self] at htwo
      have hno : ∀ {t : Str}, t.count colon = 0 → colon ∉ t := List.count_eq_zero.mp
      have hsame := hs.symm.trans heq
      obtain ⟨rfl, hrest⟩ := append_cons_inj ha' (hno (by omega)) hsame
      obtain ⟨rfl, rfl⟩ := append_cons_inj hb' (hno (by omega)) hrest
      exact ⟨rfl, rfl, rfl⟩

/-! ## Comparing in constant time -/

/-- A disjunction of bytes is zero only if all of them are. -/
lemma foldl_or_eq_zero {l : List UInt8} {d : UInt8} :
    l.foldl (· ||| ·) d = 0 ↔ d = 0 ∧ ∀ b ∈ l, b = 0 := by
  induction l generalizing d with
  | nil => simp
  | cons b l ih =>
      rw [List.foldl_cons, ih, UInt8.or_eq_zero_iff, List.forall_mem_cons, and_assoc]

lemma ctEqualStr_iff {a b : Str} : ctEqualStr a b = true ↔ a = b := by
  induction a generalizing b with
  | nil => cases b <;> simp [ctEqualStr]
  | cons x a ih =>
      cases b with
      | nil => simp [ctEqualStr]
      | cons y b =>
          have hrest := @ih b
          simp only [ctEqualStr, List.length_cons, Bool.and_eq_true, beq_iff_eq, List.zipWith_cons_cons,
            foldl_or_eq_zero, List.forall_mem_cons, UInt8.xor_eq_zero_iff, true_and] at hrest ⊢
          rw [List.cons.injEq, ← hrest]
          constructor
          · exact fun ⟨hlen, hxy, hall⟩ => ⟨hxy, by omega, hall⟩
          · exact fun ⟨hxy, hlen, hall⟩ => ⟨by omega, hxy, hall⟩

/-! ## The authentication code -/

/-- HMAC over a hash function with a given block size. -/
def hmac (hash : List UInt8 → List UInt8) (blockBytes : ℕ) (key msg : List UInt8) : List UInt8 :=
  let short := if key.length > blockBytes then hash key else key
  let block := short ++ List.replicate (blockBytes - short.length) 0
  hash (block.map (· ^^^ 0x5C) ++ hash (block.map (· ^^^ 0x36) ++ msg))

lemma update_append (h : Sha256.Hasher) (a b : List UInt8) :
    Sha256.update h (a ++ b) = Sha256.update (Sha256.update h a) b :=
  List.foldl_append

lemma hmacSha256_eq (key msg : List UInt8) :
    hmacSha256 key msg = hmac Sha256.sha256 64 key msg := by
  simp only [hmacSha256, hmac, Sha256.sha256, update_append, kBlockBytes]
  rfl

lemma proofDigest_eq (challenge nonce : Str) :
    proofDigest challenge nonce = Sha256.sha256 (challenge ++ nonce) := by
  rw [proofDigest, Sha256.sha256, update_append]

/-! ## The leading bits -/

/-- The mask of the partial byte leaves nothing exactly below its lowest bit. -/
lemma and_mask_eq_zero_iff {b : UInt8} {rem : ℕ} (h : rem < 8) (h0 : rem ≠ 0) :
    b &&& (0xFF <<< (8 - rem).toUInt8) = 0 ↔ b.toNat < 2 ^ (8 - rem) := by
  have key : ∀ n < 256, ∀ r < 8, r ≠ 0 →
      (n.toUInt8 &&& ((0xFF : UInt8) <<< (8 - r).toUInt8) = 0 ↔ n < 2 ^ (8 - r)) := by
    decide +kernel
  simpa using key b.toNat b.toNat_lt rem h h0

/-- The test with the number of bits divided once. -/
lemma meetsDifficulty_eq (digest : List UInt8) (bits : ℕ) : meetsDifficulty digest bits =
    ((digest.take (bits / 8)).all (· == 0) && (decide (bits % 8 = 0) ||
      digest.getD (bits / 8) 0 &&& (0xFF <<< (8 - bits % 8).toUInt8) == 0)) := by
  have hfull : ((bits : ℤ).tdiv 8).toNat = bits / 8 := by
    rw [Int.tdiv_eq_ediv_of_nonneg (by omega)]
    omega
  have hrem : (bits : ℤ).tmod 8 = (bits % 8 : ℕ) := by
    rw [Int.tmod_eq_emod_of_nonneg (by omega)]
    omega
  have hsub : (8 - ((bits % 8 : ℕ) : ℤ)).toNat = 8 - bits % 8 := by omega
  have hpos : (!decide (((bits % 8 : ℕ) : ℤ) > 0)) = decide (bits % 8 = 0) := by
    rw [← decide_not]
    exact decide_eq_decide.mpr (by omega)
  simp only [meetsDifficulty, hfull, hrem, hsub, hpos]

theorem meetsDifficulty_iff {digest : List UInt8} (hlen : digest.length = 32) {bits : ℕ}
    (hbits : bits ≤ 256) :
    meetsDifficulty digest bits = true ↔ bigEndian digest < 2 ^ (256 - bits) := by
  have hlt : bits % 8 < 8 := Nat.mod_lt _ (by norm_num)
  have hfull : bits / 8 + (if bits % 8 = 0 then 0 else 1) ≤ digest.length := by split <;> omega
  have hspec := bigEndian_lt_iff hlt hfull
  rw [hlen, show 8 * 32 - (8 * (bits / 8) + bits % 8) = 256 - bits by omega] at hspec
  rw [hspec, meetsDifficulty_eq]
  simp only [Bool.and_eq_true, List.all_eq_true, beq_iff_eq, Bool.or_eq_true, decide_eq_true_eq]
  refine and_congr_right fun _ => ?_
  by_cases h0 : bits % 8 = 0
  · simp [h0]
  · simp [h0, and_mask_eq_zero_iff hlt h0]

/-! ## The specification -/

/-- The challenge is a token of this process for a nonce, valid before `exp`. -/
def IsToken (secret : List UInt8) (challenge nonceHex : Str) (exp : ℤ) : Prop :=
  ∃ expStr macHex, challenge = nonceHex ++ colon :: (expStr ++ colon :: macHex) ∧
    challenge.count colon = 2 ∧ nonceHex ≠ [] ∧ expStr ≠ [] ∧ macHex ≠ [] ∧
    macHex = toHex (hmac Sha256.sha256 64 secret (nonceHex ++ [colon] ++ expStr)) ∧
    stoll expStr = some exp

/-- What makes a proof of work acceptable: the token is genuine and still valid, the digest is
below the target, and the ledger holds no entry for the nonce that is still valid. -/
structure Accepted (secret : List UInt8) (challenge nonce : Str) (bits : ℕ) (now : ℤ)
    (ledger : Ledger) (nonceHex : Str) (exp : ℤ) : Prop where
  token : IsToken secret challenge nonceHex exp
  valid : now < exp
  proof : bigEndian (Sha256.sha256 (challenge ++ nonce)) < 2 ^ (256 - bits)
  fresh : ∀ exp', ledger nonceHex = some exp' → exp' ≤ now

/-- What a call decides and leaves in the ledger: of the accepted token its nonce with the expiry,
and of the old entries those that are still valid; a reused token sweeps the ledger too, and any
other refusal leaves it alone. -/
structure Decides (secret : List UInt8) (challenge nonce : Str) (bits : ℕ) (now : ℤ) (old : Ledger)
    (result : VerifyResult) (new : Ledger) : Prop where
  ok_iff : result = .ok ↔ ∃ n exp, Accepted secret challenge nonce bits now old n exp
  spent : ∀ n exp, Accepted secret challenge nonce bits now old n exp → ∀ k v,
    new k = some v ↔ (k = n ∧ v = exp) ∨ (k ≠ n ∧ old k = some v ∧ now < v)
  swept : result = .reused → ∀ k v, new k = some v ↔ old k = some v ∧ now < v
  kept : result ≠ .ok → result ≠ .reused → new = old

/-- What the code checks of a token. -/
lemma isToken_iff {secret : List UInt8} {challenge n : Str} {exp : ℤ} :
    IsToken secret challenge n exp ↔ ∃ expStr macHex, split3 challenge = some (n, expStr, macHex) ∧
      ¬ (n = [] ∨ expStr = [] ∨ macHex = []) ∧
      ctEqualStr (hmacHex secret (n ++ [colon] ++ expStr)) macHex = true ∧
      stoll expStr = some exp := by
  refine exists_congr fun expStr => exists_congr fun macHex => ?_
  rw [split3_iff, ctEqualStr_iff, hmacHex, hmacSha256_eq, not_or, not_or, and_assoc, and_assoc,
    and_assoc, eq_comm (a := macHex)]

/-- The same of a token that has been split. -/
lemma isToken_of_split {secret : List UInt8} {challenge n expStr macHex : Str}
    (hs : split3 challenge = some (n, expStr, macHex)) {n' : Str} {exp : ℤ}
    (h : IsToken secret challenge n' exp) : n' = n ∧ ¬ (n = [] ∨ expStr = [] ∨ macHex = []) ∧
      ctEqualStr (hmacHex secret (n ++ [colon] ++ expStr)) macHex = true ∧
      stoll expStr = some exp := by
  obtain ⟨e, m, hs', hrest⟩ := isToken_iff.mp h
  obtain ⟨rfl, rfl, rfl⟩ : n' = n ∧ e = expStr ∧ m = macHex := by simpa using hs'.symm.trans hs
  exact ⟨rfl, hrest⟩

/-- The parts of a token are determined. -/
lemma IsToken.unique {secret : List UInt8} {challenge n n' : Str} {exp exp' : ℤ}
    (h : IsToken secret challenge n exp) (h' : IsToken secret challenge n' exp') :
    n = n' ∧ exp = exp' := by
  obtain ⟨e, m, hs, -, -, hexp⟩ := isToken_iff.mp h
  obtain ⟨e', m', hs', -, -, hexp'⟩ := isToken_iff.mp h'
  obtain ⟨rfl, rfl, rfl⟩ : n = n' ∧ e = e' ∧ m = m' := by simpa using hs.symm.trans hs'
  exact ⟨rfl, Option.some.inj (hexp.symm.trans hexp')⟩

section Decides

variable {secret : List UInt8} {challenge nonce : Str} {bits : ℕ} {now : ℤ} {old : Ledger}

/-- A refusal before the lock. -/
lemma Decides.refuse {result : VerifyResult} (hok : result ≠ .ok) (hreused : result ≠ .reused)
    (hno : ∀ n exp, ¬ Accepted secret challenge nonce bits now old n exp) :
    Decides secret challenge nonce bits now old result old where
  ok_iff := ⟨fun h => absurd h hok, fun ⟨n, exp, h⟩ => absurd h (hno n exp)⟩
  spent n exp h := absurd h (hno n exp)
  swept h := absurd h hreused
  kept _ _ := rfl

/-- The passage through the lock. -/
lemma Decides.commit {n : Str} {exp : ℤ} (htoken : IsToken secret challenge n exp)
    (hvalid : now < exp) (hproof : bigEndian (Sha256.sha256 (challenge ++ nonce)) < 2 ^ (256 - bits)) :
    Decides secret challenge nonce bits now old
      (if (commit old n exp now).1 then .ok else .reused) (commit old n exp now).2 := by
  cases hold : gcLocked old now n with
  | some exp' =>
      have hc : Captcha.commit old n exp now = (false, gcLocked old now) := by
        simp only [Captcha.commit, hold]
      have hno : ∀ n' exp', ¬ Accepted secret challenge nonce bits now old n' exp' := by
        intro n' exp'' h
        obtain ⟨rfl, rfl⟩ := htoken.unique h.token
        obtain ⟨hentry, hlive⟩ := gcLocked_eq_some.mp hold
        exact absurd (h.fresh exp' hentry) (not_le.mpr hlive)
      rw [hc]
      refine ⟨⟨fun h => (by simp at h), ?_⟩, fun n' e h => absurd h (hno n' e),
        fun _ _ _ => gcLocked_eq_some, fun _ h => absurd rfl h⟩
      rintro ⟨n', e, h⟩
      exact absurd h (hno n' e)
  | none =>
      have hc : Captcha.commit old n exp now
          = (true, Function.update (gcLocked old now) n (some exp)) := by
        simp only [Captcha.commit, hold]
      have haccepted : Accepted secret challenge nonce bits now old n exp := by
        refine ⟨htoken, hvalid, hproof, fun exp' hentry => ?_⟩
        by_contra hlive
        rw [gcLocked_eq_some.mpr ⟨hentry, not_le.mp hlive⟩] at hold
        cases hold
      rw [hc]
      refine ⟨⟨fun _ => ⟨n, exp, haccepted⟩, fun _ => rfl⟩, fun n' exp' h k v => ?_,
        fun h => by simp at h, fun h => absurd rfl h⟩
      obtain ⟨rfl, rfl⟩ := htoken.unique h.token
      by_cases hk : k = n
      · subst hk
        simp [eq_comm]
      · simp [hk, gcLocked_eq_some]

end Decides

end Captcha

open Captcha

/-- The end of a call on a token that is genuine: the clock, the proof, the lock. -/
def spend (challenge nonce n : Str) (exp now : ℤ) (bits : ℤ) : Handler Str VerifyResult :=
  if exp ≤ now then .ret .expired
  else if meetsDifficulty (proofDigest challenge nonce) bits = false then .ret .badProof
  else do
    let inserted : Bool ← call (.commit n exp now)
    if inserted then .ret .ok else .ret .reused

section Run

variable {secret : List UInt8} {challenge nonce : Str} {bits : ℕ} (xs : ℕ → Choice) (w : World Str)

/-- On a token that is genuine the call goes on, and on any other it refuses. -/
lemma verifyChallenge_run (secret : List UInt8) (challenge nonce : Str) (bits : ℤ) :
    (∃ n exp, IsToken secret challenge n exp ∧
      (verifyChallenge secret challenge nonce bits).run exec xs w
        = (spend challenge nonce n exp w.clock bits).run exec (fun k => xs (k + 1)) w) ∨
    (∃ result, result ≠ .ok ∧ result ≠ .reused ∧ (∀ n exp, ¬ IsToken secret challenge n exp) ∧
      (verifyChallenge secret challenge nonce bits).run exec xs w = (.ok result, w)) := by
  cases hs : split3 challenge with
  | none =>
      refine .inr ⟨.malformed, by simp, by simp, fun n exp h => ?_, by simp [verifyChallenge, hs]⟩
      obtain ⟨e, m, hs', -⟩ := isToken_iff.mp h
      simp [hs] at hs'
  | some parts =>
      obtain ⟨n, expStr, macHex⟩ := parts
      by_cases hempty : n = [] ∨ expStr = [] ∨ macHex = []
      · refine .inr ⟨.malformed, by simp, by simp, fun _ _ h => ?_,
          by simp [verifyChallenge, hs, hempty]⟩
        exact (isToken_of_split hs h).2.1 hempty
      by_cases hmac : ctEqualStr (hmacHex secret (n ++ [colon] ++ expStr)) macHex = false
      · refine .inr ⟨.badHmac, by simp, by simp, fun _ _ h => ?_, ?_⟩
        · rw [(isToken_of_split hs h).2.2.1] at hmac
          cases hmac
        · simp only [verifyChallenge, hs]
          rw [if_neg hempty, if_pos hmac]
          rfl
      cases hexp : stoll expStr with
      | none =>
          refine .inr ⟨.malformed, by simp, by simp, fun _ _ h => ?_, ?_⟩
          · simpa [hexp] using (isToken_of_split hs h).2.2.2
          · simp only [verifyChallenge, hs]
            rw [if_neg hempty, if_neg hmac, hexp]
            rfl
      | some exp =>
          refine .inl ⟨n, exp, isToken_iff.mpr ⟨expStr, macHex, hs, hempty, ?_, hexp⟩, ?_⟩
          · rwa [Bool.not_eq_false] at hmac
          · simp only [verifyChallenge, hs]
            rw [if_neg hempty, if_neg hmac, hexp]
            rfl

/-- What the end of a call decides. -/
lemma spend_run {n : Str} {exp : ℤ} (htoken : IsToken secret challenge n exp) (hbits : bits ≤ 256) :
    ∃ result ledger, (spend challenge nonce n exp w.clock bits).run exec xs w
        = (.ok result, { w with ledger }) ∧
      Decides secret challenge nonce bits w.clock w.ledger result ledger := by
  have hbelow : meetsDifficulty (proofDigest challenge nonce) bits = true ↔
      bigEndian (Sha256.sha256 (challenge ++ nonce)) < 2 ^ (256 - bits) := by
    rw [proofDigest_eq]
    exact meetsDifficulty_iff (Sha256.length_digest _) hbits
  unfold spend
  by_cases hnow : exp ≤ w.clock
  · refine ⟨.expired, w.ledger, by rw [if_pos hnow]; rfl, .refuse (by simp) (by simp) ?_⟩
    intro n' exp' h
    obtain ⟨rfl, rfl⟩ := htoken.unique h.token
    exact absurd h.valid (not_lt.mpr hnow)
  by_cases hproof : meetsDifficulty (proofDigest challenge nonce) bits = false
  · refine ⟨.badProof, w.ledger, by rw [if_neg hnow, if_pos hproof]; rfl,
      .refuse (by simp) (by simp) ?_⟩
    intro n' exp' h
    rw [hbelow.mpr h.proof] at hproof
    cases hproof
  · have hmet : meetsDifficulty (proofDigest challenge nonce) bits = true := by
      rwa [Bool.not_eq_false] at hproof
    refine ⟨_, _, ?_, .commit htoken (not_le.mp hnow) (hbelow.mp hmet)⟩
    rw [if_neg hnow, if_neg hproof, run_call_bind]
    change (if (commit w.ledger n exp w.clock).1 = true then .ret .ok
      else .ret .reused : Handler Str VerifyResult).run exec _ _ = _
    split <;> rfl

end Run

/-- **`verifyChallenge` decides its specification**, for any challenge, nonce, difficulty from 0 to
256 bits, clock and ledger. -/
theorem verifyChallenge_spec (secret : List UInt8) (challenge nonce : Str) (bits : ℕ)
    (hbits : bits ≤ 256) (xs : ℕ → Choice) (w : World Str) :
    ∃ result ledger, (verifyChallenge secret challenge nonce bits).run exec xs w
        = (.ok result, { w with ledger }) ∧
      Decides secret challenge nonce bits w.clock w.ledger result ledger := by
  rcases verifyChallenge_run xs w secret challenge nonce bits with
    ⟨n, exp, htoken, hrun⟩ | ⟨result, hok, hreused, hno, hrun⟩
  · rw [hrun]
    exact spend_run _ w htoken hbits
  · exact ⟨result, w.ledger, hrun, .refuse hok hreused fun n exp h => hno n exp h.token⟩

/-- A token of this process, valid before 60. -/
def Sample.genuine : Str :=
  ascii "00ff:60" ++ colon :: toHex (hmac Sha256.sha256 64 Sample.secret (ascii "00ff:60"))

lemma isToken_genuine : IsToken Sample.secret Sample.genuine (ascii "00ff") 60 :=
  ⟨ascii "60", toHex (hmac Sha256.sha256 64 Sample.secret (ascii "00ff:60")), by decide +kernel,
    by decide +kernel, by decide +kernel, by decide +kernel, by decide +kernel, by decide +kernel,
    by decide +kernel⟩

/-- Four bits are asked for, in a world whose ledger is empty, and the token is accepted and spent. -/
theorem verifyChallenge_spec_sample : ∃ ledger,
    (verifyChallenge Sample.secret Sample.genuine (ascii "23") (4 : ℕ)).run exec
        (fun _ => Sample.draw 0) (World.boot .empty 0)
      = (.ok .ok, { World.boot .empty 0 with ledger }) ∧
      ∀ k v, ledger k = some v ↔ k = ascii "00ff" ∧ v = 60 := by
  obtain ⟨result, ledger, hrun, hdecides⟩ := verifyChallenge_spec Sample.secret Sample.genuine
    (ascii "23") 4 (by norm_num) (fun _ => Sample.draw 0) (World.boot .empty 0)
  have haccepted : Accepted Sample.secret Sample.genuine (ascii "23") 4 0 (fun _ => none)
      (ascii "00ff") 60 :=
    ⟨isToken_genuine, by norm_num, by decide +kernel, by simp⟩
  obtain rfl : result = .ok := hdecides.ok_iff.mpr ⟨_, _, haccepted⟩
  refine ⟨ledger, hrun, fun k v => (hdecides.spent _ _ haccepted k v).trans ?_⟩
  simp [World.boot]

end HashHush
