import HashHush.Web.Pow

/-!
# The search for a proof of work

The solver tries numbers in batches and yields between them, and past 2^53 its counter stands still.
`solvePoW_least`: all the same it returns the least solution, as soon as its batches reach it, and
it runs for ever exactly when no number up to 2^53 is one.
-/

namespace HashHush.Web

/-- The nonce of a number. -/
def decimalNonce (k : ℕ) : JsString := text (ascii (toString k))

/-- The number solves the challenge. -/
def hit (challengeBytes : List UInt8) (difficulty : ℤ) (k : ℕ) : Bool :=
  meetsDifficulty (Sha256.sha256 (challengeBytes ++ encode (decimalNonce k))) difficulty

/-- The number that the counter shows at its n-th try is one. -/
def hitAt (challengeBytes : List UInt8) (difficulty : ℤ) (n : ℕ) : Bool :=
  hit challengeBytes difficulty (min n (2 ^ 53))

variable {challengeBytes : List UInt8} {difficulty : ℤ}

lemma increment_min (n : ℕ) : increment (min n (2 ^ 53)) = min (n + 1) (2 ^ 53) := by
  unfold increment
  split <;> omega

/-- A batch is a search through its tries. -/
lemma batch_eq (tries n : ℕ) : batch challengeBytes difficulty tries (min n (2 ^ 53))
    = ((List.range' n tries).find? (hitAt challengeBytes difficulty)).elim
        (.inr (min (n + tries) (2 ^ 53))) fun k => .inl (decimalNonce (min k (2 ^ 53))) := by
  induction tries generalizing n with
  | zero => rfl
  | succ tries ih =>
      rw [List.range'_succ, List.find?_cons]
      by_cases hn : hitAt challengeBytes difficulty n = true
      · have hmet : meetsDifficulty (Sha256.sha256 (challengeBytes ++
            encode (text (ascii (toString (min n (2 ^ 53))))))) difficulty = true := hn
        simp only [batch, if_pos hmet, hn]
        rfl
      · have hmet : ¬ meetsDifficulty (Sha256.sha256 (challengeBytes ++
            encode (text (ascii (toString (min n (2 ^ 53))))))) difficulty = true := hn
        have hfalse : hitAt challengeBytes difficulty n = false := Bool.eq_false_iff.mpr hn
        rw [batch, if_neg hmet, increment_min, ih, hfalse, show n + 1 + tries = n + (tries + 1) by omega]

/-- The batches are one search. -/
lemma solveFrom_eq (batches n : ℕ) :
    solveFrom challengeBytes difficulty batches (min n (2 ^ 53))
      = ((List.range' n (batches * YIELD_EVERY)).find? (hitAt challengeBytes difficulty)).map
          fun k => decimalNonce (min k (2 ^ 53)) := by
  induction batches generalizing n with
  | zero => simp [solveFrom]
  | succ batches ih =>
      have hsplit : List.range' n ((batches + 1) * YIELD_EVERY)
          = List.range' n YIELD_EVERY ++ List.range' (n + YIELD_EVERY) (batches * YIELD_EVERY) := by
        rw [List.range'_append_1]
        congr 1
        ring
      rw [solveFrom, batch_eq, hsplit, List.find?_append]
      cases (List.range' n YIELD_EVERY).find? (hitAt challengeBytes difficulty) with
      | none => exact ih (n + YIELD_EVERY)
      | some k => rfl

lemma solvePoW_eq (challenge : JsString) (difficulty : ℤ) (batches : ℕ) :
    solvePoW challenge difficulty batches
      = ((List.range' 0 (batches * YIELD_EVERY)).find? (hitAt (encode challenge) difficulty)).map
          fun k => decimalNonce (min k (2 ^ 53)) :=
  solveFrom_eq batches 0

/-- The least try that hits shows a number that the counter can still reach. -/
lemma le_of_least {k : ℕ} (hk : hitAt challengeBytes difficulty k = true)
    (hleast : ∀ j < k, hitAt challengeBytes difficulty j = false) : k ≤ 2 ^ 53 := by
  by_contra hlt
  have hlast : hitAt challengeBytes difficulty (2 ^ 53) = hitAt challengeBytes difficulty k := by
    rw [hitAt, hitAt, min_self, min_eq_right (by omega)]
  rw [hleast (2 ^ 53) (by omega), hk] at hlast
  cases hlast

lemma hitAt_of_le {k : ℕ} (hk : k ≤ 2 ^ 53) :
    hitAt challengeBytes difficulty k = hit challengeBytes difficulty k := by
  rw [hitAt, min_eq_left hk]

/-- What the solver returns is the least solution, which its batches have reached. -/
lemma solvePoW_eq_some_iff {challenge nonce : JsString} {batches : ℕ} :
    solvePoW challenge difficulty batches = some nonce ↔
      ∃ k ≤ 2 ^ 53, k < batches * YIELD_EVERY ∧ nonce = decimalNonce k ∧
        hit (encode challenge) difficulty k = true ∧
        ∀ j < k, hit (encode challenge) difficulty j = false := by
  rw [solvePoW_eq, Option.map_eq_some_iff]
  constructor
  · rintro ⟨k, hfind, rfl⟩
    obtain ⟨hhit, hmem, hno⟩ := List.find?_range'_eq_some.mp hfind
    have hleast : ∀ j < k, hitAt (encode challenge) difficulty j = false := by
      intro j hj
      simpa using hno j (Nat.zero_le j) hj
    have hk := le_of_least hhit hleast
    refine ⟨k, hk, ?_, ?_, ?_, fun j hj => ?_⟩
    · simpa using hmem
    · rw [min_eq_left hk]
    · rwa [← hitAt_of_le hk]
    · rw [← hitAt_of_le (by omega)]
      exact hleast j hj
  · rintro ⟨k, hk, hreached, rfl, hhit, hleast⟩
    refine ⟨k, List.find?_range'_eq_some.mpr ⟨?_, ?_, fun j _ hj => ?_⟩, ?_⟩
    · rwa [hitAt_of_le hk]
    · simpa using hreached
    · rw [hitAt_of_le (by omega), hleast j hj]
      rfl
    · rw [min_eq_left hk]

/-- **The search is exact**: the solver returns the least solution once its batches reach that far,
nothing before, and some number of batches is enough exactly if a number up to 2^53 is a
solution. -/
theorem solvePoW_least (challenge : JsString) (difficulty : ℤ) :
    (∀ batches nonce, solvePoW challenge difficulty batches = some nonce ↔
      ∃ k ≤ 2 ^ 53, k < batches * YIELD_EVERY ∧ nonce = decimalNonce k ∧
        hit (encode challenge) difficulty k = true ∧
        ∀ j < k, hit (encode challenge) difficulty j = false) ∧
    ((∃ batches nonce, solvePoW challenge difficulty batches = some nonce) ↔
      ∃ k ≤ 2 ^ 53, hit (encode challenge) difficulty k = true) := by
  refine ⟨fun batches nonce => solvePoW_eq_some_iff, ?_, ?_⟩
  · rintro ⟨batches, nonce, h⟩
    obtain ⟨k, hk, -, -, hhit, -⟩ := solvePoW_eq_some_iff.mp h
    exact ⟨k, hk, hhit⟩
  · rintro ⟨k, hk, hhit⟩
    have hex : ∃ k, hit (encode challenge) difficulty k = true := ⟨k, hhit⟩
    have hle : Nat.find hex ≤ k := Nat.find_min' hex hhit
    refine ⟨Nat.find hex + 1, decimalNonce (Nat.find hex), ?_⟩
    refine solvePoW_eq_some_iff.mpr ⟨Nat.find hex, by omega, ?_, rfl, Nat.find_spec hex, ?_⟩
    · show Nat.find hex < (Nat.find hex + 1) * 4096
      omega
    · exact fun j hj => Bool.eq_false_iff.mpr (Nat.find_min hex hj)

end HashHush.Web
