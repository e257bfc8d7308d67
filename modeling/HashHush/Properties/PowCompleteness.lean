import HashHush.Properties.Verification
import HashHush.Web.Pow
import Mathlib.Data.List.TakeWhile

/-!
# A solved challenge is accepted

The page solves what the server issued, in another language: shifts and masks against division and
casts, UTF-16 strings against bytes, `to_string` against `stoll`.  `pow_complete` says that the two
sides agree: the two difficulty tests on every digest (`meetsDifficulty_agree`), and the solver and
the verifier on every token (`isToken_issued`).
-/

namespace HashHush

open Concurrency Captcha

/-! ## The difficulty tests -/

/-- The byte under the mask of the page and under the one of the server. -/
lemma masks_agree {b : UInt8} {rem : ℕ} (hrem : rem < 8) :
    (!decide (Int32.ofNat rem > 0) ||
        Int32.ofNat b.toNat &&& ((0xFF <<< (8 - Int32.ofNat rem)) &&& 0xFF) == 0)
      = (decide (rem = 0) || b &&& (0xFF <<< (8 - rem).toUInt8) == 0) := by
  have key : ∀ n < 256, ∀ r < 8, (!decide (Int32.ofNat r > 0) ||
        Int32.ofNat n &&& (((0xFF : Int32) <<< (8 - Int32.ofNat r)) &&& 0xFF) == 0)
      = (decide (r = 0) || n.toUInt8 &&& ((0xFF : UInt8) <<< (8 - r).toUInt8) == 0) := by
    decide +kernel
  simpa using key b.toNat b.toNat_lt rem hrem

/-- A test of the first bytes by index. -/
lemma range_all_eq {l : List UInt8} {k : ℕ} (hk : k ≤ l.length) :
    (List.range k).all (fun i => l[i]? == some 0) = (l.take k).all (· == 0) := by
  rw [Bool.eq_iff_iff]
  simp only [List.all_eq_true, List.mem_range, beq_iff_eq]
  constructor
  · intro h b hb
    obtain ⟨i, hi, rfl⟩ := List.mem_take_iff_getElem.mp hb
    have hzero := h i (by omega)
    rw [List.getElem?_eq_getElem (by omega)] at hzero
    exact Option.some.inj hzero
  · intro h i hi
    have hi' : i < l.length := by omega
    rw [List.getElem?_eq_getElem hi']
    exact congrArg some (h _ (List.mem_take_iff_getElem.mpr ⟨i, by omega, rfl⟩))

/-- **The two difficulty tests agree**, on every digest and every number of bits up to 256. -/
theorem meetsDifficulty_agree {digest : List UInt8} (hlen : digest.length = 32) {bits : ℕ}
    (hbits : bits ≤ 256) : Web.meetsDifficulty digest bits = meetsDifficulty digest bits := by
  have key : ∀ n : ℕ, n ≤ 256 → (Int32.ofInt n >>> 3).toInt.toNat = n / 8 ∧
      ¬ Int32.ofInt n >>> 3 < 0 ∧ Int32.ofInt n &&& 7 = Int32.ofNat (n % 8) := by decide +kernel
  obtain ⟨hfull, hpos, hrem⟩ := key bits hbits
  rw [meetsDifficulty_eq, Web.meetsDifficulty]
  simp only [Web.byteAt, if_neg hpos, hfull, hrem]
  rw [range_all_eq (by omega), masks_agree (Nat.mod_lt _ (by norm_num))]

example : Web.meetsDifficulty (0 :: 0x1F :: List.replicate 30 0) 11 = true := by decide +kernel

/-! ## Decimal numbers -/

/-- The byte of a digit. -/
lemma digit_spec {c : Char} (hc : c.isDigit = true) :
    isDigit c.toNat.toUInt8 = true ∧ isSpace c.toNat.toUInt8 = false ∧
      c.toNat.toUInt8 ≠ '-'.toNat.toUInt8 ∧ c.toNat.toUInt8 ≠ '+'.toNat.toUInt8 ∧
      c.toNat.toUInt8 ≠ colon ∧ c.toNat.toUInt8.toNat = c.toNat ∧ 48 ≤ c.toNat ∧ c.toNat < 128 := by
  have key : ∀ n < 58, 48 ≤ n → isDigit n.toUInt8 = true ∧ isSpace n.toUInt8 = false ∧
      n.toUInt8 ≠ '-'.toNat.toUInt8 ∧ n.toUInt8 ≠ '+'.toNat.toUInt8 ∧
      n.toUInt8 ≠ colon ∧ n.toUInt8.toNat = n ∧ 48 ≤ n ∧ n < 128 := by decide +kernel
  have hrange : 48 ≤ c.toNat ∧ c.toNat < 58 := by
    simp only [Char.isDigit, Bool.and_eq_true, decide_eq_true_eq, UInt32.le_iff_toNat_le] at hc
    exact ⟨hc.1, Nat.lt_succ_of_le hc.2⟩
  exact key c.toNat hrange.2 hrange.1

/-- `stoll` reads a decimal number. -/
lemma stoll_of_digits {ds : List Char} (hds : ∀ c ∈ ds, c.isDigit = true) (hne : ds ≠ [])
    (hsmall : Nat.ofDigitChars 10 ds 0 < 2 ^ 63) :
    stoll (ds.map fun c => c.toNat.toUInt8) = some ((Nat.ofDigitChars 10 ds 0 : ℕ) : ℤ) := by
  have hbytes : ∀ b ∈ ds.map fun c => c.toNat.toUInt8, isDigit b = true ∧ isSpace b = false ∧
      b ≠ '-'.toNat.toUInt8 ∧ b ≠ '+'.toNat.toUInt8 := by
    intro b hb
    obtain ⟨c, hc, rfl⟩ := List.mem_map.mp hb
    obtain ⟨hdigit, hspace, hminus, hplus, -⟩ := digit_spec (hds c hc)
    exact ⟨hdigit, hspace, hminus, hplus⟩
  have hvalue : ∀ acc : ℕ, (ds.map fun c => c.toNat.toUInt8).foldl
      (fun (acc : ℤ) d => acc * 10 + ((d.toNat : ℤ) - 48)) acc = (Nat.ofDigitChars 10 ds acc : ℕ) := by
    clear hne hsmall hbytes
    induction ds with
    | nil => exact fun acc => by simp
    | cons c ds ih =>
        intro acc
        obtain ⟨-, -, -, -, -, hnat, hle, -⟩ := digit_spec (hds c List.mem_cons_self)
        rw [List.map_cons, List.foldl_cons, Nat.ofDigitChars_cons, hnat,
          ← ih fun c hc => hds c (List.mem_cons_of_mem _ hc)]
        congr 1
        have h48 : '0'.toNat = 48 := rfl
        rw [h48]
        omega
  obtain ⟨b, rest, hcons⟩ := List.exists_cons_of_ne_nil (by simpa using hne :
    (ds.map fun c => c.toNat.toUInt8) ≠ [])
  obtain ⟨-, hspace, hminus, hplus⟩ := hbytes b (hcons ▸ List.mem_cons_self)
  have hdrop : (ds.map fun c => c.toNat.toUInt8).dropWhile isSpace
      = ds.map fun c => c.toNat.toUInt8 := by
    rw [hcons, List.dropWhile_cons_of_neg (by simp [hspace])]
  have htake : (ds.map fun c => c.toNat.toUInt8).takeWhile isDigit
      = ds.map fun c => c.toNat.toUInt8 :=
    List.takeWhile_eq_self_iff.mpr fun b hb => (hbytes b hb).1
  have hhead : ∀ c : UInt8, b ≠ c → ((ds.map fun c => c.toNat.toUInt8).head? == some c) = false := by
    intro c hbc
    rw [hcons]
    simpa using hbc
  have hzero : (ds.map fun c => c.toNat.toUInt8).foldl
      (fun (acc : ℤ) d => acc * 10 + ((d.toNat : ℤ) - 48)) 0 = (Nat.ofDigitChars 10 ds 0 : ℕ) :=
    hvalue 0
  unfold stoll
  simp only [hdrop, hhead _ hminus, hhead _ hplus, Bool.false_or, Bool.false_eq_true, if_false, htake,
    hzero]
  rw [if_neg (by rw [hcons]; simp), if_pos (by omega)]

/-- `std::to_string` of a number that is not negative, in bytes. -/
lemma ascii_toString (n : ℕ) :
    ascii (toString (n : ℤ)) = (Nat.toDigits 10 n).map fun c => c.toNat.toUInt8 := by
  have h : toString (n : ℤ) = n.repr := rfl
  rw [h]
  unfold ascii
  rw [Nat.toList_repr]

/-- `to_string` and `stoll`: a number that fits is read back, and its text is short and plain. -/
lemma decimal_spec {n : ℕ} (hn : n < 2 ^ 63) :
    stoll (ascii (toString (n : ℤ))) = some (n : ℤ) ∧ ascii (toString (n : ℤ)) ≠ [] ∧
      (ascii (toString (n : ℤ))).length ≤ 19 ∧
      ∀ b ∈ ascii (toString (n : ℤ)), b ≠ colon ∧ b.toNat < 128 := by
  have hdigits : ∀ c ∈ Nat.toDigits 10 n, c.isDigit = true := fun c hc =>
    Nat.isDigit_of_mem_toDigits (by norm_num) (by norm_num) hc
  have hvalue : Nat.ofDigitChars 10 (Nat.toDigits 10 n) 0 = n := Nat.ofDigitChars_ten_toDigits
  rw [ascii_toString]
  refine ⟨?_, ?_, ?_, ?_⟩
  · rw [stoll_of_digits hdigits Nat.toDigits_ne_nil (by rwa [hvalue]), hvalue]
  · simp
  · rw [List.length_map]
    exact (Nat.length_toDigits_le_iff (by norm_num) (by norm_num)).mpr (by omega)
  · intro b hb
    obtain ⟨c, hc, rfl⟩ := List.mem_map.mp hb
    obtain ⟨-, -, -, -, hcolon, hnat, -, hlt⟩ := digit_spec (hdigits c hc)
    exact ⟨hcolon, hnat.symm ▸ hlt⟩

/-- A hex text is plain. -/
lemma toHex_spec (bytes : List UInt8) : ∀ b ∈ toHex bytes, b ≠ colon ∧ b.toNat < 128 := by
  have key : ∀ i < 16, kHex.getD i 0 ≠ colon ∧ (kHex.getD i 0).toNat < 128 := by decide +kernel
  intro b hb
  obtain ⟨x, -, hx⟩ := List.mem_flatMap.mp hb
  rcases List.mem_pair.mp hx with rfl | rfl
  · exact key _ (toNat_shiftRight_four_lt x)
  · exact key _ (toNat_and_fifteen_lt x)

/-! ## What is issued -/

/-- The token that `issueChallenge` makes of the bytes it draws. -/
def issued (secret bytes : List UInt8) (exp : ℤ) : Str :=
  let payload := toHex bytes ++ [colon] ++ ascii (toString exp)
  payload ++ [colon] ++ hmacHex secret payload

lemma issueChallenge_run (secret : List UInt8) (window : ℤ) (xs : ℕ → Choice) (w : World Str) :
    (issueChallenge secret window).run exec xs w =
      (.ok (issued secret ((List.range 16).map (xs 0).bytes) (w.clock + window)), w) := rfl

section Issued

variable (secret bytes : List UInt8) (n : ℕ) (hbytes : bytes.length = 16) (hn : n < 2 ^ 63)

include hbytes hn

/-- It is a token, of at most 256 bytes and in plain ASCII. -/
lemma isToken_issued : IsToken secret (issued secret bytes n) (toHex bytes) n ∧
    (issued secret bytes n).count colon = 2 ∧ (issued secret bytes n).length ≤ 256 ∧
      ∀ b ∈ issued secret bytes n, b.toNat < 128 := by
  obtain ⟨hread, hne, hshort, hplain⟩ := decimal_spec hn
  have hmacLength : (hmacHex secret (toHex bytes ++ [colon] ++ ascii (toString (n : ℤ)))).length = 64 := by
    rw [hmacHex, length_toHex, hmacSha256, Sha256.length_digest]
  have hparts : issued secret bytes n = toHex bytes ++ colon :: (ascii (toString (n : ℤ)) ++ colon ::
      hmacHex secret (toHex bytes ++ [colon] ++ ascii (toString (n : ℤ)))) := by
    simp [issued]
  have hno : ∀ {s : Str}, (∀ b ∈ s, b ≠ colon ∧ b.toNat < 128) → s.count colon = 0 := fun hs =>
    List.count_eq_zero.mpr fun hmem => (hs colon hmem).1 rfl
  have hcount : (issued secret bytes n).count colon = 2 := by
    rw [hparts, List.count_append, List.count_cons_self, List.count_append, List.count_cons_self,
      hno (toHex_spec _), hno hplain, hmacHex, hno (toHex_spec _)]
  refine ⟨⟨_, _, hparts, hcount, ?_, hne, ?_, ?_, hread⟩, hcount, ?_, ?_⟩
  · exact List.ne_nil_of_length_pos (by rw [length_toHex, hbytes]; norm_num)
  · exact List.ne_nil_of_length_pos (by rw [hmacLength]; norm_num)
  · rw [hmacHex, hmacSha256_eq]
  · rw [hparts, List.length_append, List.length_cons, List.length_append, List.length_cons,
      hmacLength, length_toHex, hbytes]
    omega
  · have hcolon : colon.toNat < 128 := by decide
    rw [hparts]
    intro b hb
    simp only [List.mem_append, List.mem_cons] at hb
    rcases hb with hb | rfl | hb | rfl | hb
    · exact (toHex_spec _ b hb).2
    · exact hcolon
    · exact (hplain b hb).2
    · exact hcolon
    · exact (toHex_spec _ b hb).2

end Issued

/-! ## What is solved -/

/-- A solution of the page brings the digest of the server below its target, and is short. -/
lemma proof_of_solves {token : Str} (htoken : ∀ b ∈ token, b.toNat < 128) {bits : ℕ}
    (hbits : bits ≤ 256) {nonce : Web.JsString}
    (h : Web.Solves (Web.encode (Web.text token)) bits nonce) :
    bigEndian (Sha256.sha256 (token ++ Web.encode nonce)) < 2 ^ (256 - bits) := by
  obtain ⟨counter, -, -, hmet⟩ := h
  have hlen : (Sha256.sha256 (token ++ Web.encode nonce)).length = 32 := Sha256.length_digest _
  rw [Web.encode_text htoken, meetsDifficulty_agree hlen hbits] at hmet
  exact (meetsDifficulty_iff hlen hbits).mp hmet

/-- **Proof-of-work completeness.**  The two difficulty tests agree; and for whatever bytes the
server draws, whenever it issues the token and however many bits it asks for, the token is short
and has two colons, and what the page returns for it is accepted at any time before the token
expires, unless the ledger has an entry for its nonce. -/
theorem pow_complete :
    (∀ (digest : List UInt8) (bits : ℕ), digest.length = 32 → bits ≤ 256 →
      Web.meetsDifficulty digest bits = meetsDifficulty digest bits) ∧
    ∀ (secret : List UInt8) (window : ℤ) (xs : ℕ → Choice) (w : World Str),
      0 ≤ w.clock → 0 < window → w.clock + window < 2 ^ 63 →
      ∃ token, (issueChallenge secret window).run exec xs w = (.ok token, w) ∧
        token.length ≤ 256 ∧ token.count colon = 2 ∧
        ∀ (bits batches : ℕ) (nonce : Web.JsString), bits ≤ 256 →
          Web.solvePoW (Web.text token) bits batches = some nonce → nonce.length ≤ 64 →
          ∀ (ys : ℕ → Choice) (w' : World Str), w'.clock < w.clock + window →
            w'.ledger (toHex ((List.range 16).map (xs 0).bytes)) = none →
            ((verifyChallenge secret token (Web.encode nonce) bits).run exec ys w').1 = .ok .ok := by
  refine ⟨fun digest bits hlen hbits => meetsDifficulty_agree hlen hbits, ?_⟩
  intro secret window xs w hclock hwindow hfits
  obtain ⟨n, hn⟩ := Int.eq_ofNat_of_zero_le (by omega : 0 ≤ w.clock + window)
  obtain ⟨htoken, hcount, hlength, hplain⟩ := 
    isToken_issued secret ((List.range 16).map (xs 0).bytes) n (by simp) (by omega)
  rw [issueChallenge_run, hn]
  refine ⟨_, rfl, hlength, hcount, ?_⟩
  intro bits batches nonce hbits hsolved _ ys w' hclock' hledger
  obtain ⟨result, ledger, hrun, hdecides⟩ := verifyChallenge_spec secret _ (Web.encode nonce) bits
    hbits ys w'
  have haccepted : Accepted secret (issued secret ((List.range 16).map (xs 0).bytes) n)
      (Web.encode nonce) bits w'.clock w'.ledger (toHex ((List.range 16).map (xs 0).bytes)) n :=
    { token := htoken
      valid := hclock'
      proof := proof_of_solves hplain hbits (Web.solves_of_solvePoW hsolved)
      fresh := fun exp' h => by simp [hledger] at h }
  rw [hrun, hdecides.ok_iff.mpr ⟨_, _, haccepted⟩]

namespace Sample

/-- A token, issued at the epoch for a minute. -/
def issuedToken : Str := issued secret (List.replicate 16 0) 60

end Sample

/-- A token issued for a minute is solved to three bits, and spent half a minute later. -/
theorem pow_complete_sample : ∃ nonce : Web.JsString,
    (issueChallenge Sample.secret).run exec (fun _ => Sample.draw 0) (World.boot .empty 0)
      = (.ok Sample.issuedToken, World.boot .empty 0) ∧
    Web.solvePoW (Web.text Sample.issuedToken) (3 : ℕ) 1 = some nonce ∧
    ((verifyChallenge Sample.secret Sample.issuedToken (Web.encode nonce) (3 : ℕ)).run exec
      (fun _ => Sample.draw 0) (World.boot .empty 30)).1 = .ok .ok := by
  obtain ⟨token, hrun, -, -, h⟩ := pow_complete.2 Sample.secret 60 (fun _ => Sample.draw 0)
    (World.boot .empty 0) le_rfl (by norm_num) (by decide)
  have hissued := issueChallenge_run Sample.secret 60 (fun _ => Sample.draw 0) (World.boot .empty 0)
  have htoken : token = Sample.issuedToken := by
    have hsame := hrun.symm.trans hissued
    exact Except.ok.inj (congrArg Prod.fst hsame)
  subst htoken
  have hfound : (Web.solvePoW (Web.text Sample.issuedToken) (3 : ℕ) 1).map List.length = some 2 := by
    decide +kernel
  obtain ⟨nonce, hsolved, hlength⟩ := Option.map_eq_some_iff.mp hfound
  exact ⟨nonce, hrun, hsolved, h 3 1 nonce (by norm_num) hsolved (by omega) _ (World.boot .empty 30)
    (by decide) rfl⟩

end HashHush
