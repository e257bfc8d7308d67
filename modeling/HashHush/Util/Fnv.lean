import Mathlib.Tactic

/-!
# FNV-1a

The 64-bit hash behind the entity tags.  A step is injective in the state and in the byte, since
the prime is odd, so two inputs that differ in one byte have different hashes
(`fnv1a_ne_of_ne`).
-/

namespace Fnv

def offsetBasis : UInt64 := 0xcbf29ce484222325

def prime : UInt64 := 0x100000001b3

/-- Take in one byte. -/
def absorb (h : UInt64) (c : UInt8) : UInt64 := (h ^^^ c.toUInt64) * prime

/-- The state after a text. -/
def fnv1a (s : List UInt8) : UInt64 := s.foldl absorb offsetBasis

/-- The inverse of the prime modulo `2 ^ 64`. -/
def primeInv : UInt64 := 0xce965057aff6957b

lemma prime_mul_primeInv : prime * primeInv = 1 := by decide +kernel

lemma mul_prime_injective : Function.Injective fun h : UInt64 => h * prime := by
  intro a b h
  have hinv : ∀ c : UInt64, c * prime * primeInv = c := fun c => by
    rw [UInt64.mul_assoc, prime_mul_primeInv, UInt64.mul_one]
  rw [← hinv a, ← hinv b]
  exact congrArg (· * primeInv) h

/-- A step loses nothing of the state. -/
lemma absorb_injective (c : UInt8) : Function.Injective fun h => absorb h c := by
  intro a b h
  exact (UInt64.xor_left_inj c.toUInt64).mp (mul_prime_injective h)

/-- A step loses nothing of the byte. -/
lemma absorb_byte_injective (h : UInt64) : Function.Injective (absorb h) := by
  intro c d hcd
  have hbyte : c.toUInt64 = d.toUInt64 := (UInt64.xor_right_inj h).mp (mul_prime_injective hcd)
  exact UInt8.toUInt64_inj.mp hbyte

lemma foldl_absorb_injective (s : List UInt8) : Function.Injective fun h => s.foldl absorb h := by
  induction s with
  | nil => exact fun _ _ h => h
  | cons c s ih => exact fun a b h => absorb_injective c (ih h)

/-- Inputs that differ in one byte have different hashes. -/
theorem fnv1a_ne_of_ne {c d : UInt8} (hne : c ≠ d) (s t : List UInt8) :
    fnv1a (s ++ c :: t) ≠ fnv1a (s ++ d :: t) := by
  intro h
  simp only [fnv1a, List.foldl_append, List.foldl_cons] at h
  exact hne (absorb_byte_injective _ (foldl_absorb_injective t h))

end Fnv
