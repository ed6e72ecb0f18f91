import Mathlib.Data.Nat.Bitwise
import Mathlib.Tactic.Ring

/-!
# Support — a counter with its bits reversed

A number of `w` bits is counted on from its high bits.  Its `position` in this order is the number with
the bits the other way round: what the low `n` bits are is then a question of the block of `2 ^ (w - n)`
positions it is in, and counting on in the low `n` bits goes to the start of the next block.

* `position_div_eq_iff`: the low bits and the block.
* `position_advance`: counting on.
-/

namespace SourceLibs.ReversedCounter
open Nat BitVec

variable {w : ℕ}

/-- Where a number stands in the order of its reversed bits. -/
def position (x : BitVec w) : ℕ := x.reverse.toNat

theorem testBit_position (x : BitVec w) (i : ℕ) :
    (position x).testBit i = (decide (i < w) && x.toNat.testBit (w - 1 - i)) := by
  rw [position, testBit_toNat, getLsbD_reverse, getMsbD_eq_getLsbD,
    testBit_toNat]

theorem position_lt (x : BitVec w) : position x < 2 ^ w := x.reverse.isLt

theorem position_eq_zero_iff {x : BitVec w} : position x = 0 ↔ x = 0#w := by
  rw [position, ← reverse_eq_zero_iff, ← toNat_inj]
  simp

/-- **The low bits** decide the block. -/
theorem position_div_eq_iff {n : ℕ} (hn : n ≤ w) (x y : BitVec w) :
    position x / 2 ^ (w - n) = position y / 2 ^ (w - n) ↔ x.toNat % 2 ^ n = y.toNat % 2 ^ n := by
  constructor
  · intro h
    refine eq_of_testBit_eq fun i => ?_
    rw [testBit_mod_two_pow, testBit_mod_two_pow]
    by_cases hi : i < n
    · have hbit := congrArg (Nat.testBit · (n - 1 - i)) h
      simp only [testBit_div_two_pow, testBit_position] at hbit
      rw [show w - 1 - (n - 1 - i + (w - n)) = i by omega] at hbit
      simpa [show n - 1 - i + (w - n) < w by omega, hi] using hbit
    · simp [hi]
  · intro h
    refine eq_of_testBit_eq fun i => ?_
    simp only [testBit_div_two_pow, testBit_position]
    by_cases hi : i + (w - n) < w
    · have hbit := congrArg (Nat.testBit · (w - 1 - (i + (w - n)))) h
      simp only [testBit_mod_two_pow] at hbit
      simpa [hi, show w - 1 - (i + (w - n)) < n by omega] using hbit
    · simp [hi]

/-- Count on in the low `n` bits. -/
def advance (n : ℕ) (x : BitVec w) : BitVec w :=
  ((x ||| ~~~(BitVec.ofNat w (2 ^ n - 1))).reverse + 1).reverse

/-- **Counting on** goes to the start of the next block. -/
theorem position_advance {n : ℕ} (hn : n ≤ w) (x : BitVec w) :
    position (advance n x) = (position x / 2 ^ (w - n) + 1) * 2 ^ (w - n) % 2 ^ w := by
  have hmask : 2 ^ n - 1 < 2 ^ w := by
    have := Nat.pow_le_pow_right (n := 2) (by decide) hn
    have := Nat.two_pow_pos n
    omega
  -- The positions of the block are filled up to the last.
  have hbits : ∀ i, (position (x ||| ~~~(BitVec.ofNat w (2 ^ n - 1)))).testBit i =
      (decide (i < w) && (decide (i < w - n) || (position x).testBit i)) := by
    intro i
    rw [testBit_position, testBit_position, toNat_or, testBit_or,
      testBit_toNat (~~~ _), getLsbD_not, ← testBit_toNat, toNat_ofNat,
      mod_eq_of_lt hmask, testBit_two_pow_sub_one]
    by_cases hi : i < w
    · by_cases hin : i < w - n
      · simp [hi, hin, show w - 1 - i < w by omega, show ¬ (w - 1 - i < n) by omega]
      · simp [hi, hin, show w - 1 - i < w by omega, show w - 1 - i < n by omega]
    · simp [hi]
  generalize hy : position (x ||| ~~~(BitVec.ofNat w (2 ^ n - 1))) = y at hbits
  have hdiv : y / 2 ^ (w - n) = position x / 2 ^ (w - n) := by
    refine eq_of_testBit_eq fun i => ?_
    rw [testBit_div_two_pow, testBit_div_two_pow, hbits, testBit_position]
    by_cases hi : i + (w - n) < w
    · simp [hi]
    · simp [hi]
  have hmod : y % 2 ^ (w - n) = 2 ^ (w - n) - 1 := by
    refine eq_of_testBit_eq fun i => ?_
    rw [testBit_mod_two_pow, hbits, testBit_two_pow_sub_one]
    by_cases hi : i < w - n
    · simp [hi, show i < w by omega]
    · simp [hi]
  have hsum : y + 1 = (position x / 2 ^ (w - n) + 1) * 2 ^ (w - n) := by
    have hsplit := div_add_mod y (2 ^ (w - n))
    rw [hdiv, hmod] at hsplit
    have := Nat.two_pow_pos (w - n)
    rw [Nat.add_mul, Nat.one_mul, Nat.mul_comm]
    omega
  rw [position, advance, reverse_reverse_eq, BitVec.toNat_add, ← hsum, ← hy, position]
  simp

theorem position_and_mask {n : ℕ} (hn : n ≤ w) (x : BitVec w) :
    position (x &&& BitVec.ofNat w (2 ^ n - 1)) =
      position x / 2 ^ (w - n) * 2 ^ (w - n) := by
  have hmask : 2 ^ n - 1 < 2 ^ w := by
    have := Nat.pow_le_pow_right (n := 2) (by decide) hn
    have := Nat.two_pow_pos n
    omega
  refine eq_of_testBit_eq fun i => ?_
  rw [testBit_position, toNat_and, testBit_and, toNat_ofNat,
    mod_eq_of_lt hmask, testBit_two_pow_sub_one, testBit_mul_two_pow,
    testBit_div_two_pow, testBit_position]
  by_cases hi : i < w
  · by_cases hin : w - n ≤ i
    · simp [hi, hin, show w - 1 - i < n by omega]
    · simp [hin, show ¬ (w - 1 - i < n) by omega]
  · simp [hi]
    omega

end SourceLibs.ReversedCounter
