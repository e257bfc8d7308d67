import HashHush.Util.Codec
import Mathlib.Logic.Function.Iterate

/-!
# The generator behind the random bytes

`std::mt19937_64` and the draws of `util.cpp`.  The engine keeps 312 words; a call makes a new one
from three of them, drops the oldest and returns the new one tempered.  Tempering loses nothing
(`temper_injective`), and the words form one sequence with a recurrence (`word_add`), so that 312
outputs in a row are a state of the engine.
-/

namespace HashHush.Mt19937

abbrev Word := BitVec 64

/-- The last 312 words, the oldest first. -/
abbrev Engine := Fin 312 → Word

/-- The twist: the upper 33 bits of a word and the lower 31 of the next, times the matrix. -/
def twist (u v : Word) : Word :=
  let y := (u &&& 0xFFFFFFFF80000000#64) ||| (v &&& 0x7FFFFFFF#64)
  (y >>> 1) ^^^ if y.getLsbD 0 then 0xB5026F5AA96619E9#64 else 0

def temper (x : Word) : Word :=
  let x := x ^^^ ((x >>> 29) &&& 0x5555555555555555#64)
  let x := x ^^^ ((x <<< 17) &&& 0x71D67FFFEDA60000#64)
  let x := x ^^^ ((x <<< 37) &&& 0xFFF7EEE000000000#64)
  x ^^^ (x >>> 43)

/-- One call of the engine. -/
def next (e : Engine) : Word × Engine :=
  let y := e 156 ^^^ twist (e 0) (e 1)
  (temper y, fun i => if h : i.val + 1 < 312 then e ⟨i.val + 1, h⟩ else y)

/-- The bytes of a word, the lowest first. -/
def bytesOf (v : Word) : List UInt8 := (List.range 8).map fun j => UInt8.ofNat (v >>> (j * 8)).toNat

/-- `randomBytes`: eight bytes a call. -/
def randomBytes : ℕ → Engine → List UInt8 × Engine
  | 0, e => ([], e)
  | n + 1, e =>
      let (v, e) := next e
      let (rest, e) := randomBytes (n + 1 - 8) e
      ((bytesOf v).take (n + 1) ++ rest, e)

/-! ## Tempering -/

section Temper

variable {d : Word} {s : ℕ}

lemma eq_zero_of_shiftRight (mask : Word) (hs : 0 < s) (h : d = (d >>> s) &&& mask) : d = 0 := by
  have hbits : ∀ m i, 64 ≤ i + m → d.getLsbD i = false := by
    intro m
    induction m with
    | zero => exact fun i hi => BitVec.getLsbD_of_ge d i (by omega)
    | succ m ih =>
        intro i hi
        rw [h, BitVec.getLsbD_and, BitVec.getLsbD_ushiftRight, ih (s + i) (by omega), Bool.false_and]
  exact BitVec.eq_of_getLsbD_eq fun i _ => by simpa using hbits 64 i (by omega)

lemma eq_zero_of_shiftLeft (mask : Word) (hs : 0 < s) (h : d = (d <<< s) &&& mask) : d = 0 := by
  have hbits : ∀ i, d.getLsbD i = false := by
    intro i
    induction i using Nat.strong_induction_on with
    | _ i ih =>
        rw [h, BitVec.getLsbD_and, BitVec.getLsbD_shiftLeft]
        by_cases hi : i < s
        · simp [hi]
        · rw [ih (i - s) (by omega)]
          simp
  exact BitVec.eq_of_getLsbD_eq fun i _ => by simpa using hbits i

/-- A step of the tempering loses nothing. -/
lemma xor_shiftRight_injective (mask : Word) (hs : 0 < s) :
    Function.Injective fun x : Word => x ^^^ ((x >>> s) &&& mask) := by
  intro x y hxy
  have hzero : x ^^^ y = 0 := by
    refine eq_zero_of_shiftRight mask hs (BitVec.eq_of_getLsbD_eq fun i hi => ?_)
    have hbit := congrArg (fun v : Word => v.getLsbD i) hxy
    simp only [BitVec.getLsbD_xor, BitVec.getLsbD_and, BitVec.getLsbD_ushiftRight] at hbit ⊢
    revert hbit
    cases x.getLsbD i <;> cases y.getLsbD i <;> cases x.getLsbD (s + i) <;>
      cases y.getLsbD (s + i) <;> cases mask.getLsbD i <;> decide
  exact BitVec.xor_eq_zero_iff.mp hzero

lemma xor_shiftLeft_injective (mask : Word) (hs : 0 < s) :
    Function.Injective fun x : Word => x ^^^ ((x <<< s) &&& mask) := by
  intro x y hxy
  have hzero : x ^^^ y = 0 := by
    refine eq_zero_of_shiftLeft mask hs (BitVec.eq_of_getLsbD_eq fun i hi => ?_)
    have hbit := congrArg (fun v : Word => v.getLsbD i) hxy
    simp only [BitVec.getLsbD_xor, BitVec.getLsbD_and, BitVec.getLsbD_shiftLeft] at hbit ⊢
    revert hbit
    by_cases hi' : i < s
    · simp [hi', hi]
    · simp only [hi, hi', decide_true, decide_false, Bool.not_false, Bool.true_and]
      cases x.getLsbD i <;> cases y.getLsbD i <;> cases x.getLsbD (i - s) <;>
        cases y.getLsbD (i - s) <;> cases mask.getLsbD i <;> decide
  exact BitVec.xor_eq_zero_iff.mp hzero

/-- Tempering loses nothing. -/
theorem temper_injective : Function.Injective temper := by
  intro x y h
  have hones : ∀ z : Word, z ^^^ (z >>> 43) = z ^^^ ((z >>> 43) &&& BitVec.allOnes 64) := fun z => by
    rw [BitVec.and_allOnes]
  simp only [temper] at h
  rw [hones, hones] at h
  have h := xor_shiftRight_injective (s := 43) _ (by norm_num) h
  have h := xor_shiftLeft_injective (s := 37) _ (by norm_num) h
  have h := xor_shiftLeft_injective (s := 17) _ (by norm_num) h
  exact xor_shiftRight_injective (s := 29) _ (by norm_num) h

end Temper

lemma length_bytesOf (v : Word) : (bytesOf v).length = 8 := by simp [bytesOf]

lemma bytesOf_injective : Function.Injective bytesOf := by
  intro v w h
  have hbyte : ∀ j < 8, v.toNat / 2 ^ (j * 8) % 256 = w.toNat / 2 ^ (j * 8) % 256 := by
    intro j hj
    have hj' := congrArg (fun l => l[j]?) h
    simp only [bytesOf, List.getElem?_map, List.getElem?_range hj, Option.map_some,
      Option.some.injEq] at hj'
    have hnat := congrArg UInt8.toNat hj'
    simpa [BitVec.toNat_ushiftRight, Nat.shiftRight_eq_div_pow] using hnat
  have hv : v.toNat < 2 ^ 64 := v.isLt
  have hw : w.toNat < 2 ^ 64 := w.isLt
  have h0 := hbyte 0 (by norm_num)
  have h1 := hbyte 1 (by norm_num)
  have h2 := hbyte 2 (by norm_num)
  have h3 := hbyte 3 (by norm_num)
  have h4 := hbyte 4 (by norm_num)
  have h5 := hbyte 5 (by norm_num)
  have h6 := hbyte 6 (by norm_num)
  have h7 := hbyte 7 (by norm_num)
  norm_num at h0 h1 h2 h3 h4 h5 h6 h7
  exact BitVec.eq_of_toNat_eq (by omega)

/-! ## The sequence of words -/

/-- The engine after some calls. -/
def after (e : Engine) (k : ℕ) : Engine := (fun e => (next e).2)^[k] e

/-- The words that the engine goes through. -/
def word (e : Engine) (i : ℕ) : Word := after e i 0

/-- The outputs of the engine. -/
def out (e : Engine) (k : ℕ) : Word := temper (word e (k + 312))

lemma after_succ (e : Engine) (k : ℕ) : after e (k + 1) = (next (after e k)).2 :=
  Function.iterate_succ_apply' _ _ _

lemma after_after (e : Engine) (k l : ℕ) : after (after e k) l = after e (k + l) := by
  rw [after, after, ← Function.iterate_add_apply, Nat.add_comm l k]
  rfl

lemma after_apply (e : Engine) (k : ℕ) {i : ℕ} (hi : i < 312) : after e k ⟨i, hi⟩ = word e (k + i) := by
  induction i generalizing k with
  | zero => rfl
  | succ i ih =>
      have hshift : after e (k + 1) ⟨i, by omega⟩ = after e k ⟨i + 1, hi⟩ := by
        rw [after_succ]
        exact dif_pos hi
      rw [← hshift, ih (k + 1) (by omega)]
      congr 1
      omega

lemma word_of_lt (e : Engine) {i : ℕ} (hi : i < 312) : word e i = e ⟨i, hi⟩ := by
  have h := after_apply e 0 hi
  rw [Nat.zero_add] at h
  exact h.symm

/-- The recurrence. -/
theorem word_add (e : Engine) (k : ℕ) :
    word e (k + 312) = word e (k + 156) ^^^ twist (word e k) (word e (k + 1)) := by
  have hlast : after e (k + 1) ⟨311, by norm_num⟩ = word e (k + 312) := by
    rw [after_apply]
  rw [← hlast, after_succ, ← after_apply e k (i := 156) (by norm_num),
    ← after_apply e k (i := 1) (by norm_num)]
  rfl

lemma next_after (e : Engine) (k : ℕ) : (next (after e k)).1 = out e k := by
  rw [out, word_add, ← after_apply e k (i := 156) (by norm_num),
    ← after_apply e k (i := 1) (by norm_num)]
  rfl

lemma out_after (e : Engine) (k l : ℕ) : out (after e k) l = out e (k + l) := by
  rw [out, out, word, word, after_after, Nat.add_assoc]

/-- Eight bytes and more. -/
lemma randomBytes_eight (n : ℕ) (e : Engine) : randomBytes (n + 8) e =
    (bytesOf (out e 0) ++ (randomBytes n (after e 1)).1, (randomBytes n (after e 1)).2) := by
  have hfirst : (next e).1 = out e 0 := next_after e 0
  have hrest : (next e).2 = after e 1 := rfl
  have hstep : randomBytes (n + 7 + 1) e = ((bytesOf (next e).1).take (n + 7 + 1)
      ++ (randomBytes (n + 7 + 1 - 8) (next e).2).1, (randomBytes (n + 7 + 1 - 8) (next e).2).2) := by
    rw [randomBytes]
  have htake : (bytesOf (out e 0)).take (n + 7 + 1) = bytesOf (out e 0) :=
    List.take_of_length_le (by rw [length_bytesOf]; omega)
  have hcount : n + 7 + 1 - 8 = n := by omega
  rw [hfirst, hrest, htake, hcount] at hstep
  exact hstep

/-- A multiple of eight bytes is made of whole words. -/
lemma randomBytes_mul (e : Engine) (k : ℕ) :
    randomBytes (8 * k) e = ((List.range k).flatMap fun j => bytesOf (out e j), after e k) := by
  induction k generalizing e with
  | zero =>
      rw [Nat.mul_zero, randomBytes]
      rfl
  | succ k ih =>
      have hshift : ∀ j, out (after e 1) j = out e (j + 1) := fun j => by
        rw [out_after, Nat.add_comm 1 j]
      rw [Nat.mul_succ, randomBytes_eight, ih, after_after, List.range_succ_eq_map,
        List.flatMap_cons, List.flatMap_map, Nat.add_comm 1 k]
      simp only [hshift]

/-- 312 outputs in a row are a state: engines that agree on them agree from then on. -/
theorem after_eq_of_out_eq {e e' : Engine} {k : ℕ} (hk : 312 ≤ k)
    (h : ∀ j < k, out e j = out e' j) : after e k = after e' k := by
  funext i
  rw [after_apply e k i.isLt, after_apply e' k i.isLt]
  have hword := temper_injective (h (k + i - 312) (by omega))
  rwa [show k + i - 312 + 312 = k + i by omega] at hword

end HashHush.Mt19937
