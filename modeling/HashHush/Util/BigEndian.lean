import Mathlib.Tactic
import Mathlib.Data.Nat.Digits.Lemmas

/-!
# Byte strings as numbers

A byte string read as a number, most significant byte first, and what its leading bits say about
its size: `bigEndian_lt_iff` compares it with a power of two byte by byte, with the bits left over
in one byte more.
-/

namespace HashHush

/-- The number that a byte string stands for, most significant byte first. -/
def bigEndian (bs : List UInt8) : ℕ := Nat.ofDigits 256 (bs.map UInt8.toNat).reverse

@[simp] lemma bigEndian_nil : bigEndian [] = 0 := rfl

lemma bigEndian_cons (b : UInt8) (bs : List UInt8) :
    bigEndian (b :: bs) = b.toNat * 256 ^ bs.length + bigEndian bs := by
  simp [bigEndian, Nat.ofDigits_append]
  ring

lemma bigEndian_lt (bs : List UInt8) : bigEndian bs < 256 ^ bs.length := by
  have hdigit : ∀ n ∈ (bs.map UInt8.toNat).reverse, n < 256 := by
    intro n hn
    obtain ⟨b, -, rfl⟩ := List.mem_map.mp (List.mem_reverse.mp hn)
    exact b.toNat_lt
  simpa [bigEndian] using Nat.ofDigits_lt_base_pow_length (by norm_num) hdigit

/-- A leading digit against a multiple of its place value. -/
lemma mul_add_lt_mul_iff {a k m r : ℕ} (hr : r < m) : a * m + r < k * m ↔ a < k := by
  constructor
  · intro h
    by_contra hk
    have hle : k * m ≤ a * m := Nat.mul_le_mul_right m (by omega)
    omega
  · intro h
    have hle : (a + 1) * m ≤ k * m := Nat.mul_le_mul_right m h
    rw [Nat.add_one_mul] at hle
    omega

/-- A number has `8 * full + rem` leading zero bits exactly if its first `full` bytes are zero and
the next is below `2 ^ (8 - rem)`. -/
theorem bigEndian_lt_iff {full rem : ℕ} (hrem : rem < 8) : ∀ {bs : List UInt8},
    full + (if rem = 0 then 0 else 1) ≤ bs.length →
      (bigEndian bs < 2 ^ (8 * bs.length - (8 * full + rem)) ↔
        (∀ b ∈ bs.take full, b = 0) ∧ (rem ≠ 0 → (bs.getD full 0).toNat < 2 ^ (8 - rem))) := by
  induction full with
  | zero =>
      intro bs hlen
      by_cases h0 : rem = 0
      · subst h0
        have hlt := bigEndian_lt bs
        rw [show (256 : ℕ) = 2 ^ 8 from rfl, ← pow_mul] at hlt
        simp [hlt]
      · cases bs with
        | nil => simp [h0] at hlen
        | cons b bs =>
            have hpow : 2 ^ (8 * (b :: bs).length - (8 * 0 + rem)) = 2 ^ (8 - rem) * 256 ^ bs.length := by
              rw [show (256 : ℕ) = 2 ^ 8 from rfl, ← pow_mul, ← pow_add, List.length_cons]
              congr 1
              omega
            rw [hpow, bigEndian_cons, mul_add_lt_mul_iff (bigEndian_lt bs)]
            simp [h0]
  | succ full ih =>
      intro bs hlen
      cases bs with
      | nil =>
          rw [List.length_nil] at hlen
          omega
      | cons b bs =>
          have hlen' : full + (if rem = 0 then 0 else 1) ≤ bs.length := by
            rw [List.length_cons] at hlen
            omega
          have hexp : 8 * (b :: bs).length - (8 * (full + 1) + rem)
              = 8 * bs.length - (8 * full + rem) := by
            rw [List.length_cons]
            omega
          have hle : 2 ^ (8 * bs.length - (8 * full + rem)) ≤ 256 ^ bs.length := by
            rw [show (256 : ℕ) = 2 ^ 8 from rfl, ← pow_mul]
            exact Nat.pow_le_pow_right (by norm_num) (by omega)
          have hzero : b.toNat = 0 ↔ b = 0 := by
            rw [← UInt8.toNat_inj]
            rfl
          have hhead : bigEndian (b :: bs) < 2 ^ (8 * bs.length - (8 * full + rem)) ↔
              b = 0 ∧ bigEndian bs < 2 ^ (8 * bs.length - (8 * full + rem)) := by
            rw [bigEndian_cons, ← hzero]
            constructor
            · intro h
              have hb : b.toNat * 256 ^ bs.length < 1 * 256 ^ bs.length := by omega
              have hb : b.toNat < 1 := Nat.lt_of_mul_lt_mul_right hb
              refine ⟨by omega, lt_of_le_of_lt (Nat.le_add_left _ _) h⟩
            · rintro ⟨hb, h⟩
              rwa [hb, Nat.zero_mul, Nat.zero_add]
          rw [hexp, hhead, ih hlen']
          simp [and_assoc]

end HashHush
