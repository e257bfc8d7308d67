import Mathlib.Tactic

/-!
# Byte strings

The server handles text as `std::string`, a sequence of bytes, so `Str` is a list of bytes and
the string literals of the source enter through `ascii`.  What loses information is kept as the
source has it: `wrapInt`, what an `int` keeps of a product, `castInt`, the `static_cast<int>` of a
length, and `cText`, what remains of a string read back through a NUL-terminated `const char*`.
-/

namespace HashHush

/-- A `std::string`. -/
abbrev Str := List UInt8

instance : LawfulBEq Str := inferInstance

/-- A string literal of the source; all of them are plain ASCII. -/
@[irreducible] def ascii (s : String) : Str := s.toList.map fun c => c.toNat.toUInt8

/-- What an `int` keeps of a number: the low 32 bits, read as a signed number.  For a product of two
`int`s that is too large C++ promises nothing; this is what the machine computes. -/
@[irreducible] def wrapInt (n : ℤ) : ℤ := n.bmod (2 ^ 32)

/-- `static_cast<int>` of a size. -/
def castInt (n : ℕ) : ℤ := wrapInt n

/-- The `std::string` made from a pointer to the bytes of `s` and a NUL after them: it ends at
the first NUL. -/
def cText (s : Str) : Str := s.takeWhile (· ≠ 0)

lemma wrapInt_of_mem {n : ℤ} (hlow : -2 ^ 31 ≤ n) (hhigh : n < 2 ^ 31) : wrapInt n = n := by
  unfold wrapInt
  rw [Int.bmod_def]
  omega

/-- Nothing leaves the range of `int`. -/
lemma wrapInt_le (n : ℤ) : wrapInt n ≤ 2 ^ 31 - 1 := by
  unfold wrapInt
  rw [Int.bmod_def]
  omega

lemma castInt_of_lt {n : ℕ} (h : n < 2 ^ 31) : castInt n = n :=
  wrapInt_of_mem (by omega) (by omega)

lemma castInt_le (n : ℕ) : castInt n ≤ 2 ^ 31 - 1 := wrapInt_le n

lemma cText_of_notMem {s : Str} (h : 0 ∉ s) : cText s = s := by
  induction s with
  | nil => rfl
  | cons b s ih =>
      have hb : b ≠ 0 := fun e => h (e ▸ List.mem_cons_self)
      rw [cText, List.takeWhile_cons_of_pos (by simpa using hb)]
      exact congrArg _ (ih fun hs => h (List.mem_cons_of_mem _ hs))

end HashHush
