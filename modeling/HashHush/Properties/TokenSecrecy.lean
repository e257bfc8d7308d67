import HashHush.Util.Mt19937
import HashHush.Properties.PowCompleteness

/-!
# What published nonces tell about the next token

The nonces of the proofs of work, the decoys and the access tokens are drawn from one generator.  A
nonce shows two outputs of it in full, so 156 answers in a row show a state of the engine, and with
it every token that is issued afterwards.  `token_open_iff`: up to 155 answers leave the next token
open, and no more.
-/

namespace HashHush.Mt19937

open Concurrency Captcha

/-- The nonces that `n` calls of `issueChallenge` in a row publish, and the engine after them. -/
def published : ℕ → Engine → List Str × Engine
  | 0, e => ([], e)
  | n + 1, e =>
      let (nonceBytes, e) := randomBytes 16 e
      let (rest, e) := published n e
      (toHex nonceBytes :: rest, e)

/-- `randomTokenHex`. -/
def randomTokenHex (e : Engine) : Str := toHex (randomBytes 32 e).1

/-- The token that is issued after `n` answers. -/
def nextToken (n : ℕ) (e : Engine) : Str := randomTokenHex (published n e).2

/-- The bytes of a draw are those of the engine. -/
def drawn (n : ℕ) (e : Engine) : Choice := ⟨fun i => (randomBytes n e).1.getD i 0, true⟩

/-! ## In terms of outputs -/

lemma randomBytes_sixteen (e : Engine) :
    randomBytes 16 e = (bytesOf (out e 0) ++ bytesOf (out e 1), after e 2) := by
  have h := randomBytes_mul e 2
  simpa [List.range_succ] using h

lemma published_succ (n : ℕ) (e : Engine) : published (n + 1) e =
    (toHex (bytesOf (out e 0) ++ bytesOf (out e 1)) :: (published n (after e 2)).1,
      (published n (after e 2)).2) := by
  rw [published, randomBytes_sixteen]

lemma published_eq (n : ℕ) (e : Engine) : published n e = ((List.range n).map fun j =>
    toHex (bytesOf (out e (2 * j)) ++ bytesOf (out e (2 * j + 1))), after e (2 * n)) := by
  induction n generalizing e with
  | zero => rfl
  | succ n ih =>
      have hshift : ∀ j, out (after e 2) j = out e (j + 2) := fun j => by
        rw [out_after, Nat.add_comm 2 j]
      have hafter : after (after e 2) (2 * n) = after e (2 * (n + 1)) := by
        rw [after_after, Nat.mul_succ, Nat.add_comm 2]
      have hrange : List.range (n + 1) = 0 :: (List.range n).map (· + 1) :=
        List.range_succ_eq_map
      rw [published_succ, ih, hafter, hrange, List.map_cons, List.map_map]
      have hrest : (List.range n).map (fun j => toHex (bytesOf (out (after e 2) (2 * j))
          ++ bytesOf (out (after e 2) (2 * j + 1)))) = (List.range n).map
            ((fun j => toHex (bytesOf (out e (2 * j)) ++ bytesOf (out e (2 * j + 1)))) ∘ (· + 1)) := by
        refine List.map_congr_left fun j _ => ?_
        simp only [Function.comp_apply, hshift, Nat.mul_succ, Nat.add_right_comm]
      rw [← hrest]

lemma nextToken_eq (n : ℕ) (e : Engine) :
    nextToken n e = toHex ((List.range 4).flatMap fun j => bytesOf (out e (2 * n + j))) := by
  have h := randomBytes_mul (after e (2 * n)) 4
  rw [nextToken, published_eq, randomTokenHex, show 32 = 8 * 4 from rfl, h]
  simp only [out_after]

variable {e e' : Engine} {n : ℕ}

lemma published_congr (h : ∀ k < 2 * n, out e k = out e' k) :
    (published n e).1 = (published n e').1 := by
  rw [published_eq, published_eq]
  refine List.map_congr_left fun j hj => ?_
  have hj := List.mem_range.mp hj
  rw [h (2 * j) (by omega), h (2 * j + 1) (by omega)]

/-- The nonces show every output that has been drawn for them. -/
lemma out_eq_of_published (h : (published n e).1 = (published n e').1) :
    ∀ k < 2 * n, out e k = out e' k := by
  intro k hk
  have hpair := congrArg (fun l => l[k / 2]?) h
  simp only [published_eq, List.getElem?_map, List.getElem?_range (show k / 2 < n by omega),
    Option.map_some, Option.some.injEq] at hpair
  obtain ⟨hfirst, hsecond⟩ := List.append_inj (toHex_injective hpair)
    ((length_bytesOf _).trans (length_bytesOf _).symm)
  rcases Nat.mod_two_eq_zero_or_one k with hk | hk
  · have heven : 2 * (k / 2) = k := by omega
    rw [heven] at hfirst
    exact bytesOf_injective hfirst
  · have hodd : 2 * (k / 2) + 1 = k := by omega
    rw [hodd] at hsecond
    exact bytesOf_injective hsecond

/-- A token shows the outputs that have been drawn for it. -/
lemma out_eq_of_nextToken (h : nextToken n e = nextToken n e') :
    out e (2 * n) = out e' (2 * n) ∧ out e (2 * n + 1) = out e' (2 * n + 1) := by
  rw [nextToken_eq, nextToken_eq] at h
  have hbytes := toHex_injective h
  simp only [List.range_succ_eq_map, List.range_zero, List.map_nil, List.map_cons, List.flatMap_cons,
    Nat.add_zero] at hbytes
  obtain ⟨hfirst, hrest⟩ := List.append_inj hbytes
    ((length_bytesOf _).trans (length_bytesOf _).symm)
  obtain ⟨hsecond, -⟩ := List.append_inj hrest ((length_bytesOf _).trans (length_bytesOf _).symm)
  exact ⟨bytesOf_injective hfirst, bytesOf_injective hsecond⟩

/-! ## From 156 answers on -/

/-- More answers than 155 fix the token. -/
lemma le_of_open (h : (published n e).1 = (published n e').1)
    (hne : nextToken n e ≠ nextToken n e') : n ≤ 155 := by
  by_contra hn
  have hsame : after e (2 * n) = after e' (2 * n) :=
    after_eq_of_out_eq (by omega) (out_eq_of_published h)
  exact hne (by rw [nextToken, nextToken, published_eq, published_eq, hsame])

/-! ## Up to 155 answers -/

/-- The engine that returns zeros for ever. -/
def silent : Engine := fun _ => 0

/-- An engine that is silent for `2 * n` calls and no longer, if `n < 78`. -/
def early (n : ℕ) : Engine := fun i => if i.val = 2 * n + 156 then 0x8000000000000000#64 else 0

/-- An engine that is silent for `2 * n + 1` calls and no longer, if `78 ≤ n ≤ 155`: the second word
makes up for what the first would do. -/
def late (n : ℕ) : Engine := fun i =>
  if i.val + 155 = 2 * n then 0x8000000000000000#64
  else if i.val = 2 * n + 1 then 0x4000000000000000#64 else 0

lemma word_silent (i : ℕ) : word silent i = 0 := by
  induction i using Nat.strong_induction_on with
  | _ i ih =>
      by_cases hi : i < 312
      · rw [word_of_lt silent hi]
        rfl
      · obtain ⟨k, rfl⟩ := Nat.exists_eq_add_of_le' (not_lt.mp hi)
        rw [word_add, ih _ (by omega), ih _ (by omega), ih _ (by omega)]
        decide

lemma word_early (hn : n < 78) {k : ℕ} (hk : k ≤ 2 * n) :
    word (early n) (k + 312) = if k = 2 * n then 0x8000000000000000#64 else 0 := by
  have hinitial : ∀ i (hi : i < 312), word (early n) i
      = if i = 2 * n + 156 then 0x8000000000000000#64 else 0 := fun i hi => word_of_lt _ hi
  have hfar : word (early n) (k + 156) = if k = 2 * n then 0x8000000000000000#64 else 0 := by
    rw [hinitial _ (by omega)]
    simp
  rw [word_add, hfar, hinitial k (by omega), hinitial (k + 1) (by omega),
    if_neg (show k ≠ 2 * n + 156 by omega), if_neg (show k + 1 ≠ 2 * n + 156 by omega)]
  split <;> decide

lemma word_late (hn : 78 ≤ n) (hn' : n ≤ 155) (k : ℕ) (hk : k ≤ 2 * n) :
    word (late n) (k + 312) = 0 := by
  have hinitial : ∀ i (hi : i < 312), word (late n) i
      = if i + 155 = 2 * n then 0x8000000000000000#64
        else if i = 2 * n + 1 then 0x4000000000000000#64 else 0 := fun i hi => word_of_lt _ hi
  induction k using Nat.strong_induction_on with
  | _ k ih =>
      have hfar : word (late n) (k + 156)
          = if k + 155 = 2 * n then 0x4000000000000000#64 else 0 := by
        by_cases hlt : k + 156 < 312
        · rw [hinitial _ hlt, if_neg (by omega)]
          exact if_congr (by omega) rfl rfl
        · obtain ⟨j, hj⟩ := Nat.exists_eq_add_of_le' (not_lt.mp hlt)
          rw [hj, ih j (by omega) (by omega), if_neg (by omega)]
      rw [word_add, hfar, hinitial k (by omega), hinitial (k + 1) (by omega)]
      by_cases hfirst : k + 155 = 2 * n
      · rw [if_pos hfirst, if_pos hfirst, if_neg (by omega), if_neg (by omega)]
        decide
      · rw [if_neg hfirst, if_neg hfirst, if_neg (show k ≠ 2 * n + 1 by omega)]
        split
        · decide
        · split <;> decide

lemma word_late_ne (hn : 78 ≤ n) (hn' : n ≤ 155) : word (late n) (2 * n + 1 + 312) ≠ 0 := by
  have hfar : word (late n) (2 * n + 1 + 156) = 0 := by
    rw [show 2 * n + 1 + 156 = 2 * n - 155 + 312 by omega]
    exact word_late hn hn' _ (by omega)
  have hhere : word (late n) (2 * n + 1) = 0x4000000000000000#64 := by
    rw [word_of_lt _ (by omega)]
    exact (if_neg (by dsimp only; omega)).trans (if_pos rfl)
  have hnext : word (late n) (2 * n + 1 + 1) = 0 := by
    by_cases hlt : 2 * n + 1 + 1 < 312
    · rw [word_of_lt _ hlt]
      exact (if_neg (by dsimp only; omega)).trans (if_neg (by dsimp only; omega))
    · rw [show 2 * n + 1 + 1 = 0 + 312 by omega]
      exact word_late hn hn' 0 (by omega)
  rw [word_add, hfar, hhere, hnext]
  decide

/-- Up to 155 answers leave the token open. -/
lemma open_of_le (hn : n ≤ 155) : ∃ e e' : Engine,
    (published n e).1 = (published n e').1 ∧ nextToken n e ≠ nextToken n e' := by
  have hsilent : ∀ {e : Engine} {k : ℕ}, word e (k + 312) = 0 → out silent k = out e k := by
    intro e k hk
    rw [out, out, word_silent, hk]
  have hdiffer : ∀ {e : Engine} {k : ℕ}, word e (k + 312) ≠ 0 → out silent k ≠ out e k := by
    intro e k hk hout
    have hword := temper_injective hout
    rw [word_silent] at hword
    exact hk hword.symm
  by_cases h78 : n < 78
  · refine ⟨silent, early n, published_congr fun k hk => hsilent ?_, fun htoken => ?_⟩
    · rw [word_early h78 hk.le, if_neg hk.ne]
    · refine hdiffer ?_ (out_eq_of_nextToken htoken).1
      rw [word_early h78 le_rfl, if_pos rfl]
      decide
  · have hn78 : 78 ≤ n := not_lt.mp h78
    refine ⟨silent, late n, published_congr fun k hk => hsilent (word_late hn78 hn k hk.le),
      fun htoken => ?_⟩
    exact hdiffer (word_late_ne hn78 hn) (out_eq_of_nextToken htoken).2

/-! ## The result -/

/-- **How long the next token stays open.**  What `issueChallenge` publishes begins with the nonce
that is drawn, and after `n` answers in a row two states of the generator agree on the nonces and
differ in the next token, for some two states, exactly if `n` is at most 155. -/
theorem token_open_iff :
    (∀ (secret : List UInt8) (window : ℤ) (e : Engine) (w : World Str), ∃ rest,
      (issueChallenge secret window).run exec (fun _ => drawn 16 e) w
        = (.ok (toHex (randomBytes 16 e).1 ++ colon :: rest), w)) ∧
    ∀ n : ℕ, (∃ e e' : Engine, (published n e).1 = (published n e').1 ∧
      nextToken n e ≠ nextToken n e') ↔ n ≤ 155 := by
  refine ⟨fun secret window e w => ?_, fun n => ⟨?_, open_of_le⟩⟩
  · have hdrawn : (List.range 16).map (drawn 16 e).bytes = (randomBytes 16 e).1 := by
      rw [randomBytes_sixteen]
      refine List.ext_getElem (by simp [length_bytesOf]) fun i hi hi' => ?_
      simp only [List.getElem_map, List.getElem_range, drawn, randomBytes_sixteen]
      rw [List.getD_eq_getElem?_getD, List.getElem?_eq_getElem hi', Option.getD_some]
    refine ⟨ascii (toString (w.clock + window)) ++ colon :: hmacHex secret
      (toHex (randomBytes 16 e).1 ++ [colon] ++ ascii (toString (w.clock + window))), ?_⟩
    rw [issueChallenge_run, issued, hdrawn]
    simp
  · rintro ⟨e, e', hsame, hne⟩
    exact le_of_open hsame hne

/-- After 156 answers no two states are left that differ in the next token. -/
theorem token_determined : ¬ ∀ n : ℕ, ∃ e e' : Engine,
    (published n e).1 = (published n e').1 ∧ nextToken n e ≠ nextToken n e' := by
  intro hall
  obtain ⟨e, e', hsame, hne⟩ := hall 156
  exact absurd (le_of_open hsame hne) (by norm_num)

end HashHush.Mt19937
