import Mathlib.Tactic
import Mathlib.Data.List.Basic

/-!
# Hashing block by block

The construction behind most hash functions: a message is padded to a whole number of blocks and
folded into a chaining value, block by block, by a compression function.

`IsCut` relates a message to its full blocks and the rest, and says how both grow with the
message; this is the invariant of an implementation that is fed in pieces of any length.
`collides_of_foldl_eq` is the security argument: two block lists that are folded to the same
value, neither of which is an ending of the other, make the compression function map two different
pairs to one value, at a place of their own computations.
-/

namespace MerkleDamgard

variable {α σ : Type*}

/-! ## Blocks and the rest -/

/-- The message consists of full blocks of `n` and a rest that is shorter. -/
structure IsCut (n : ℕ) (m : List α) (blocks : List (List α)) (rest : List α) : Prop where
  full : ∀ b ∈ blocks, b.length = n
  short : rest.length < n
  flatten_append : blocks.flatten ++ rest = m

variable {n : ℕ} {m rest : List α} {blocks blocks' : List (List α)}

lemma IsCut.nil (hn : 0 < n) : IsCut n ([] : List α) [] [] :=
  ⟨by simp, hn, rfl⟩

/-- The rest grows while there is room in it. -/
lemma IsCut.grow (h : IsCut n m blocks rest) (a : α) (hroom : rest.length + 1 ≠ n) :
    IsCut n (m ++ [a]) blocks (rest ++ [a]) where
  full := h.full
  short := by
    have := h.short
    rw [List.length_append, List.length_singleton]
    omega
  flatten_append := by rw [← List.append_assoc, h.flatten_append]

/-- A rest that gets full becomes a block. -/
lemma IsCut.complete (h : IsCut n m blocks rest) (a : α) (hfull : rest.length + 1 = n) :
    IsCut n (m ++ [a]) (blocks ++ [rest ++ [a]]) [] where
  full b hb := by
    rcases List.mem_append.mp hb with hb | hb
    · exact h.full b hb
    · rw [List.mem_singleton.mp hb, List.length_append, List.length_singleton, hfull]
  short := by
    rw [List.length_nil]
    omega
  flatten_append := by
    rw [List.flatten_append, ← h.flatten_append]
    simp

lemma map_length_of_full (h : ∀ b ∈ blocks, b.length = n) :
    blocks.map List.length = List.replicate blocks.length n :=
  List.eq_replicate_iff.mpr ⟨List.length_map _, by simpa using h⟩

lemma length_flatten_of_full (h : ∀ b ∈ blocks, b.length = n) :
    blocks.flatten.length = n * blocks.length := by
  rw [List.length_flatten, map_length_of_full h, List.sum_replicate, smul_eq_mul, mul_comm]

lemma IsCut.length_eq (h : IsCut n m blocks rest) : m.length = n * blocks.length + rest.length := by
  rw [← h.flatten_append, List.length_append, length_flatten_of_full h.full]

lemma IsCut.length_mod (h : IsCut n m blocks rest) : m.length % n = rest.length := by
  rw [h.length_eq, Nat.mul_add_mod, Nat.mod_eq_of_lt h.short]

/-- A message is cut into blocks in one way. -/
lemma eq_of_flatten_eq (hn : 0 < n) (h : ∀ b ∈ blocks, b.length = n)
    (h' : ∀ b ∈ blocks', b.length = n) (heq : blocks.flatten = blocks'.flatten) :
    blocks = blocks' := by
  have hlength : n * blocks.length = n * blocks'.length := by
    rw [← length_flatten_of_full h, ← length_flatten_of_full h', heq]
  refine List.eq_iff_flatten_eq.mpr ⟨heq, ?_⟩
  rw [map_length_of_full h, map_length_of_full h', Nat.eq_of_mul_eq_mul_left hn hlength]

/-! ## Two messages with one chaining value -/

variable {f : σ → List α → σ} {s : σ}

/-- In the computations for the two lists of blocks, the compression function maps two different
pairs of a chaining value and a block to the same value. -/
def Collides (f : σ → List α → σ) (s : σ) (blocks blocks' : List (List α)) : Prop :=
  ∃ pre b post pre' b' post', blocks = pre ++ b :: post ∧ blocks' = pre' ++ b' :: post' ∧
    (pre.foldl f s, b) ≠ (pre'.foldl f s, b') ∧ f (pre.foldl f s) b = f (pre'.foldl f s) b'

lemma Collides.append (h : Collides f s blocks blocks') (b b' : List α) :
    Collides f s (blocks ++ [b]) (blocks' ++ [b']) := by
  obtain ⟨pre, c, post, pre', c', post', rfl, rfl, hne, heq⟩ := h
  exact ⟨pre, c, post ++ [b], pre', c', post' ++ [b'], by simp, by simp, hne, heq⟩

/-- **The security of chaining.**  Two lists of blocks are folded to one value only if one is an
ending of the other or the compression function collides on the way. -/
theorem collides_of_foldl_eq (h : blocks.foldl f s = blocks'.foldl f s) :
    (blocks <:+ blocks' ∨ blocks' <:+ blocks) ∨ Collides f s blocks blocks' := by
  induction blocks using List.reverseRecOn generalizing blocks' with
  | nil => exact .inl (.inl (List.nil_suffix))
  | append_singleton pre b ih =>
      rcases List.eq_nil_or_concat blocks' with rfl | ⟨pre', b', rfl⟩
      · exact .inl (.inr (List.nil_suffix))
      · rw [List.concat_eq_append] at h ⊢
        rw [List.foldl_append, List.foldl_append] at h
        by_cases hpair : (pre.foldl f s, b) = (pre'.foldl f s, b')
        · -- the last steps agree, so the chaining values before them do
          obtain ⟨hfold, rfl⟩ := Prod.mk.inj hpair
          refine (ih hfold).imp (Or.imp ?_ ?_) fun hcol => hcol.append b b
          · exact fun ⟨t, ht⟩ => ⟨t, by rw [← ht, List.append_assoc]⟩
          · exact fun ⟨t, ht⟩ => ⟨t, by rw [← ht, List.append_assoc]⟩
        · exact .inr ⟨pre, b, [], pre', b', [], rfl, rfl, hpair, h⟩

end MerkleDamgard
