import HashHush.Util.Sha256
import HashHush.Web.JsString

/-!
# The proof-of-work solver of the page

`lib/pow.js`.  The solver hashes what `TextEncoder` makes of a string.  Its loop has no bound, so
`solvePoW` takes the number of batches that it may try before it returns.
-/

namespace HashHush.Web

/-! ## The solver -/

/-- `digest[i]` as an operand of `&`, where `undefined`, before the first byte and past the last, is
read as 0. -/
def byteAt (digest : List UInt8) (i : Int32) : Int32 :=
  if i < 0 then 0 else Int32.ofNat (digest.getD i.toInt.toNat 0).toNat

/-- `meetsDifficulty`.  A byte that is not there is `undefined`, which is no zero and has no bits; if
`bits` is negative, so is the index of the byte under the mask. -/
def meetsDifficulty (digest : List UInt8) (bits : ℤ) : Bool :=
  let full := Int32.ofInt bits >>> 3
  let rem := Int32.ofInt bits &&& 7
  (List.range full.toInt.toNat).all (fun i => digest[i]? == some 0) &&
    (!decide (rem > 0) ||
      byteAt digest full &&& ((0xFF <<< (8 - rem)) &&& 0xFF) == 0)

/-- `++counter`: a number is a double, and 2^53 + 1 is none. -/
def increment (counter : ℕ) : ℕ := if counter < 2 ^ 53 then counter + 1 else counter

def YIELD_EVERY : ℕ := 4096

/-- The inner loop: the nonce it returns, or the counter after all of its tries. -/
def batch (challengeBytes : List UInt8) (difficulty : ℤ) : ℕ → ℕ → JsString ⊕ ℕ
  | 0, counter => .inr counter
  | tries + 1, counter =>
      let nonceStr := text (ascii (toString counter))
      let digest := Sha256.sha256 (challengeBytes ++ encode nonceStr)
      if meetsDifficulty digest difficulty then .inl nonceStr
      else batch challengeBytes difficulty tries (increment counter)

/-- The outer loop. -/
def solveFrom (challengeBytes : List UInt8) (difficulty : ℤ) : ℕ → ℕ → Option JsString
  | 0, _ => none
  | batches + 1, counter =>
      match batch challengeBytes difficulty YIELD_EVERY counter with
      | .inl nonce => some nonce
      | .inr counter => solveFrom challengeBytes difficulty batches counter

/-- `solvePoW`, within a number of batches. -/
def solvePoW (challenge : JsString) (difficulty : ℤ) (batches : ℕ) : Option JsString :=
  solveFrom (encode challenge) difficulty batches 0

/-- What a search returns: a number up to 2^53 whose digest has the leading zero bits. -/
def Solves (challengeBytes : List UInt8) (difficulty : ℤ) (nonce : JsString) : Prop :=
  ∃ counter ≤ 2 ^ 53, nonce = text (ascii (toString counter)) ∧
    meetsDifficulty (Sha256.sha256 (challengeBytes ++ encode nonce)) difficulty = true

lemma increment_le {counter : ℕ} (h : counter ≤ 2 ^ 53) : increment counter ≤ 2 ^ 53 := by
  unfold increment
  split <;> omega

lemma batch_spec (challengeBytes : List UInt8) (difficulty : ℤ) (tries : ℕ) :
    ∀ {counter : ℕ}, counter ≤ 2 ^ 53 →
      match batch challengeBytes difficulty tries counter with
      | .inl nonce => Solves challengeBytes difficulty nonce
      | .inr counter' => counter' ≤ 2 ^ 53 := by
  induction tries with
  | zero => exact fun h => h
  | succ tries ih =>
      intro counter h
      by_cases hmet : meetsDifficulty (Sha256.sha256 (challengeBytes ++
          encode (text (ascii (toString counter))))) difficulty = true
      · rw [batch, if_pos hmet]
        exact ⟨counter, h, rfl, hmet⟩
      · rw [batch, if_neg hmet]
        exact ih (increment_le h)

/-- What the solver returns is a solution. -/
theorem solves_of_solvePoW {challenge nonce : JsString} {difficulty : ℤ} {batches : ℕ}
    (h : solvePoW challenge difficulty batches = some nonce) :
    Solves (encode challenge) difficulty nonce := by
  suffices hfrom : ∀ counter ≤ 2 ^ 53,
      solveFrom (encode challenge) difficulty batches counter = some nonce →
        Solves (encode challenge) difficulty nonce from hfrom 0 (by norm_num) h
  clear h
  induction batches with
  | zero => simp [solveFrom]
  | succ batches ih =>
      intro counter hcounter h
      have hbatch := batch_spec (encode challenge) difficulty YIELD_EVERY hcounter
      rw [solveFrom] at h
      split at h
      · rename_i found hfound
        obtain rfl := Option.some.inj h
        rw [hfound] at hbatch
        exact hbatch
      · rename_i counter' hnext
        rw [hnext] at hbatch
        exact ih counter' hbatch h

end HashHush.Web
