import Mathlib.Data.BitVec
import Mathlib.Data.Nat.Factorization.Basic
import Mathlib.Data.Nat.Log
import Mathlib.Tactic.Ring

/-!
# Integer — the lowest bit

`integer/integer_log2.hpp` and `pending/lowest_bit.hpp` for words of `w` bits: the logarithm by
halving a shift count, and the position of the lowest bit that is set. An assertion that fails is
`none`.

* `integerLog2_eq`: the logarithm of a word that is not zero, whatever its width.
* `lowestBit_spec`: the position returned is that of a bit, and no bit is below it.
-/

namespace SourceLibs.Integer
open Nat BitVec

variable {w : ℕ}

/-! ### The source -/

/-- `max_pow2_less<p, n>`, for a positive `n`. -/
def maxPow2Less (p n : ℕ) : ℕ := if 0 < n ∧ 2 * n < p then maxPow2Less p (2 * n) else n
termination_by p - n

/-- `integer_log2_impl`, with the result so far. A shift count of zero no longer changes `x`, and
the loop does not end. -/
def integerLog2Impl (x : BitVec w) (n result : ℕ) : Option ℕ :=
  if x = 1 then some result
  else if n = 0 then none
  else
    let t := x >>> n
    if t ≠ 0 then integerLog2Impl t (n / 2) (result + n) else integerLog2Impl x (n / 2) result
termination_by n

/-- `integer_log2`, with its assertion. -/
def integerLog2 (x : BitVec w) : Option ℕ :=
  if 0 < x then integerLog2Impl x (maxPow2Less w 4) 0 else none

/-- `lowest_bit`, with its assertion. -/
def lowestBit (x : BitVec w) : Option ℕ :=
  if 1 ≤ x then integerLog2 (x - (x &&& (x - 1))) else none

/-! ### The logarithm -/

/-- The first shift count is a power of two and at least half the width. -/
theorem maxPow2Less_spec (p j : ℕ) : ∃ i, maxPow2Less p (2 ^ j) = 2 ^ i ∧ p ≤ 2 * 2 ^ i := by
  have hpos := Nat.two_pow_pos j
  by_cases h : 2 * 2 ^ j < p
  · rw [maxPow2Less, if_pos ⟨hpos, h⟩, ← Nat.pow_succ']
    exact maxPow2Less_spec p (j + 1)
  · exact ⟨j, by rw [maxPow2Less, if_neg fun hc => h hc.2], by omega⟩
termination_by p - 2 ^ j
decreasing_by
  rw [Nat.pow_succ]
  omega

theorem log_div_two_pow {x n : ℕ} (h : x / 2 ^ n ≠ 0) :
    Nat.log 2 x = n + Nat.log 2 (x / 2 ^ n) := by
  have hlow := pow_log_le_self 2 h
  have hhigh := lt_pow_succ_log_self (b := 2) (by decide) (x / 2 ^ n)
  refine log_eq_of_pow_le_of_lt_pow ?_ ?_
  · rw [Nat.pow_add, Nat.mul_comm]
    exact (Nat.le_div_iff_mul_le (Nat.two_pow_pos n)).mp hlow
  · rw [Nat.add_assoc, Nat.pow_add, Nat.mul_comm]
    exact (Nat.div_lt_iff_lt_mul (Nat.two_pow_pos n)).mp hhigh

theorem toNat_one (hw : 0 < w) : (1 : BitVec w).toNat = 1 := by
  simp [mod_eq_of_lt (Nat.one_lt_two_pow (n := w) (by omega))]

theorem toNat_shift (x : BitVec w) (n : ℕ) : (x >>> n).toNat = x.toNat / 2 ^ n := by
  rw [toNat_ushiftRight, Nat.shiftRight_eq_div_pow]

theorem integerLog2Impl_one (n result : ℕ) :
    integerLog2Impl (1 : BitVec w) n result = some result := by
  rw [integerLog2Impl, if_pos rfl]

theorem integerLog2Impl_round {x : BitVec w} (hone : x ≠ 1) {n : ℕ} (hn : 0 < n) (result : ℕ) :
    integerLog2Impl x n result =
      if x.toNat / 2 ^ n ≠ 0 then integerLog2Impl (x >>> n) (n / 2) (result + n)
      else integerLog2Impl x (n / 2) result := by
  have hzero : x >>> n = 0 ↔ x.toNat / 2 ^ n = 0 := by
    rw [← toNat_inj, toNat_shift]
    simp
  rw [integerLog2Impl, if_neg hone, if_neg (by omega)]
  simp only [ne_eq, hzero]

/-- **The loop** on a word below `2 ^ (2 * n)`, the shift count `n` a power of two: the next word is
below `2 ^ n`. -/
theorem integerLog2Impl_eq (hw : 0 < w) (j : ℕ) (x : BitVec w) (result : ℕ) (hx : x.toNat ≠ 0)
    (hlt : x.toNat < 2 ^ (2 * 2 ^ j)) :
    integerLog2Impl x (2 ^ j) result = some (result + Nat.log 2 x.toNat) := by
  induction j generalizing x result with
  | zero =>
    by_cases hone : x = 1
    · rw [hone, integerLog2Impl_one, toNat_one hw]
      simp
    · have hne : x.toNat ≠ 1 := fun h =>
        hone (eq_of_toNat_eq (h.trans (toNat_one hw).symm))
      rw [pow_zero] at hlt ⊢
      have hhalf : x >>> 1 = 1 :=
        eq_of_toNat_eq (by rw [toNat_shift, toNat_one hw]; omega)
      have hlog : Nat.log 2 x.toNat = 1 :=
        log_eq_of_pow_le_of_lt_pow (by omega) (by omega)
      rw [integerLog2Impl_round hone (by omega), if_pos (by omega), hhalf, integerLog2Impl_one,
        hlog]
  | succ i ih =>
    by_cases hone : x = 1
    · rw [hone, integerLog2Impl_one, toNat_one hw]
      simp
    · have hhalf : 2 ^ (i + 1) / 2 = 2 ^ i := by
        rw [Nat.pow_succ, Nat.mul_div_cancel _ (by omega)]
      rw [integerLog2Impl_round hone (Nat.two_pow_pos _), hhalf]
      split
      case isTrue ht =>
        have hnext : x.toNat / 2 ^ 2 ^ (i + 1) < 2 ^ (2 * 2 ^ i) := by
          rw [Nat.div_lt_iff_lt_mul (Nat.two_pow_pos _), ← Nat.pow_add, ← Nat.pow_succ',
            ← Nat.two_mul]
          exact hlt
        rw [ih (x >>> 2 ^ (i + 1)) _ (by rw [toNat_shift]; exact ht)
          (by rw [toNat_shift]; exact hnext), toNat_shift, log_div_two_pow ht, Nat.add_assoc]
      case isFalse ht =>
        have hsmall : x.toNat < 2 ^ 2 ^ (i + 1) :=
          (Nat.div_eq_zero_iff.mp (not_not.mp ht)).resolve_left (Nat.two_pow_pos _).ne'
        rw [Nat.pow_succ'] at hsmall
        exact ih x result hx hsmall

/-- **The logarithm** of a word that is not zero, whatever the width. -/
theorem integerLog2_eq (x : BitVec w) (hx : x.toNat ≠ 0) :
    integerLog2 x = some (Nat.log 2 x.toNat) := by
  have hlt := x.isLt
  have hw : 0 < w := by
    rcases Nat.eq_zero_or_pos w with rfl | hw
    · omega
    · exact hw
  obtain ⟨i, hn, hwide⟩ := maxPow2Less_spec w 2
  have hguard : (0 : BitVec w) < x := by
    rw [lt_def]
    simp
    omega
  have hbound : x.toNat < 2 ^ (2 * 2 ^ i) :=
    Nat.lt_of_lt_of_le hlt (Nat.pow_le_pow_right (by decide) hwide)
  have hrun := integerLog2Impl_eq hw i x 0 hx hbound
  rw [← hn, Nat.zero_add] at hrun
  rw [integerLog2, if_pos hguard]
  exact hrun

/-! ### The lowest bit -/

/-- Above the lowest bit, `x` and `x - 1` agree; below it, `x` has none. -/
theorem and_pred (m k : ℕ) :
    (2 ^ (k + 1) * m + 2 ^ k) &&& (2 ^ (k + 1) * m + 2 ^ k - 1) = 2 ^ (k + 1) * m := by
  have hpos := Nat.two_pow_pos k
  have hlt : 2 ^ k < 2 ^ (k + 1) := Nat.pow_lt_pow_right (by decide) (by omega)
  refine eq_of_testBit_eq fun j => ?_
  rw [Nat.add_sub_assoc (by omega), testBit_and, testBit_two_pow_mul_add _ hlt,
    testBit_two_pow_mul_add _ (by omega),
    ← Nat.add_zero (2 ^ (k + 1) * m), testBit_two_pow_mul_add _ (by omega)]
  split
  · rw [testBit_two_pow, testBit_two_pow_sub_one, zero_testBit]
    by_cases hj : k = j
    · simp [hj]
    · simp [hj]
  · rw [Bool.and_self]

/-- **The lowest bit**: the position returned is that of a bit, and no bit is below it. -/
theorem lowestBit_spec {x : BitVec w} (hx : x ≠ 0) :
    ∃ k, lowestBit x = some k ∧ k < w ∧ x.getLsbD k = true ∧ ∀ j < k, x.getLsbD j = false := by
  have hne : x.toNat ≠ 0 := fun h => hx (eq_of_toNat_eq (by simpa using h))
  have hlt := x.isLt
  obtain ⟨k, m, ⟨c, rfl⟩, hkm⟩ := exists_eq_two_pow_mul_odd hne
  have hpos := Nat.two_pow_pos k
  have hpow : 2 ^ k < 2 ^ (k + 1) := Nat.pow_lt_pow_right (by decide) (by omega)
  have hsplit : x.toNat = 2 ^ (k + 1) * c + 2 ^ k := by
    rw [hkm, Nat.pow_succ]
    ring
  have hkw : k < w := by
    refine (Nat.pow_lt_pow_iff_right (by decide : 1 < 2)).mp (Nat.lt_of_le_of_lt ?_ hlt)
    omega
  have hw : 0 < w := by omega
  have hguard : (1 : BitVec w) ≤ x := by
    rw [BitVec.le_def, toNat_one hw]
    omega
  have hpred : (x - 1).toNat = x.toNat - 1 := by
    rw [BitVec.toNat_sub_of_le hguard, toNat_one hw]
  have hand : (x &&& (x - 1)).toNat = 2 ^ (k + 1) * c := by
    rw [toNat_and, hpred, hsplit, and_pred]
  have hiso : (x - (x &&& (x - 1))).toNat = 2 ^ k := by
    rw [BitVec.toNat_sub_of_le (by rw [BitVec.le_def]; omega), hand]
    omega
  have hbit : ∀ j, x.getLsbD j = if j < k + 1 then decide (k = j) else c.testBit (j - (k + 1)) := by
    intro j
    rw [getLsbD, hsplit, testBit_two_pow_mul_add _ hpow, testBit_two_pow]
  refine ⟨k, ?_, hkw, by simp [hbit], fun j hj => ?_⟩
  · rw [lowestBit, if_pos hguard, integerLog2_eq _ (by omega), hiso, log_pow (by decide)]
  · rw [hbit, if_pos (by omega), decide_eq_false (by omega)]

end SourceLibs.Integer
