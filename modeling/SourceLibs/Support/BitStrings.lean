import SourceLibs.Support.Ones

/-!
# Support — strings of bits

The bits of a number or of a string of bytes, with the most significant bit of each first.

* `bitsOf_mul_add`: the bits above and below a cut.
* `count_bits`: how many of the bits of a string are set.
-/

namespace SourceLibs.BitStrings
open List Blocks

/-- The low `n` bits of `x`, the most significant one first. -/
def bitsOf : ℕ → ℕ → List Bool
  | 0, _     => []
  | n + 1, x => x.testBit n :: bitsOf n x

/-- The bits of a string of bytes. -/
def bits (s : List UInt8) : List Bool := s.flatMap fun c => bitsOf 8 c.toNat

theorem bits_cons (c : UInt8) (s : List UInt8) : bits (c :: s) = bitsOf 8 c.toNat ++ bits s :=
  flatMap_cons

theorem bits_append (s t : List UInt8) : bits (s ++ t) = bits s ++ bits t := flatMap_append

theorem length_bitsOf (n x : ℕ) : (bitsOf n x).length = n := by
  induction n with
  | zero => rfl
  | succ n ih => rw [bitsOf, length_cons, ih]

theorem length_bits (s : List UInt8) : (bits s).length = 8 * s.length := by
  induction s with
  | nil => rfl
  | cons c s ih => rw [bits_cons, length_append, length_bitsOf, ih, length_cons]; ring

theorem mem_bitsOf {n x : ℕ} {b : Bool} : b ∈ bitsOf n x ↔ ∃ i < n, x.testBit i = b := by
  induction n with
  | zero => simp [bitsOf]
  | succ n ih =>
    rw [bitsOf, mem_cons, ih]
    constructor
    · rintro (rfl | ⟨i, hi, rfl⟩)
      · exact ⟨n, Nat.lt_succ_self n, rfl⟩
      · exact ⟨i, Nat.lt_succ_of_lt hi, rfl⟩
    · rintro ⟨i, hi, rfl⟩
      rcases Nat.lt_succ_iff_lt_or_eq.mp hi with hlt | rfl
      · exact .inr ⟨i, hlt, rfl⟩
      · exact .inl rfl

/-- **A cut**: the bits above it, and those below. -/
theorem bitsOf_mul_add {m y : ℕ} (hy : y < 2 ^ m) (n x : ℕ) :
    bitsOf (n + m) (2 ^ m * x + y) = bitsOf n x ++ bitsOf m y := by
  have hlow : ∀ k ≤ m, bitsOf k (2 ^ m * x + y) = bitsOf k y := by
    intro k hk
    induction k with
    | zero => rfl
    | succ k ih =>
      rw [bitsOf, bitsOf, ih (Nat.le_of_succ_le hk), Nat.testBit_two_pow_mul_add _ hy,
        if_pos (Nat.lt_of_succ_le hk)]
  induction n with
  | zero => rw [Nat.zero_add, hlow m le_rfl]; rfl
  | succ n ih =>
    rw [Nat.succ_add, bitsOf, ih, Nat.testBit_two_pow_mul_add _ hy,
      if_neg (Nat.not_lt.mpr (Nat.le_add_left m n)), Nat.add_sub_cancel]
    rfl

theorem count_bitsOf (n x : ℕ) : (bitsOf n x).count true = ones x n := by
  induction n with
  | zero => rfl
  | succ n ih =>
    rw [bitsOf, count_cons, ih, ones, ones, range_succ, countP_append,
      countP_singleton]
    simp

/-- **The bits that are set**, byte by byte. -/
theorem count_bits (s : List UInt8) : (bits s).count true = (s.map fun c => ones c.toNat 8).sum := by
  induction s with
  | nil => rfl
  | cons c s ih => rw [bits_cons, count_append, count_bitsOf, ih, map_cons, sum_cons]

end SourceLibs.BitStrings
