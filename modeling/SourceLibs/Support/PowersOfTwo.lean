import Mathlib.Algebra.Ring.Parity
import Mathlib.Data.Nat.ModEq
import Mathlib.Data.Nat.Prime.Basic

/-!
# Support — powers of two

Numbers by the powers of two they are made of: what a shift leaves modulo a power, numbers whose
high bits are all set, the lowest bit of a number, and greatest common divisors by odd parts.

* `shift_mod_eq_iff`: when two shifts of a number agree modulo a power of two.
* `testBit_high_iff`: numbers that end in ones, at the top.
* `LowestAt.dvd_iff`: the lowest bit bounds the powers of two that divide.
* `gcd_of_lowestAt`, `OddPair.turn`: the binary algorithm, before and inside its loop.
-/

namespace SourceLibs.PowersOfTwo
open Nat

/-! ### Shifts modulo a power -/

theorem shift_past {n e m : ℕ} (h : m ≤ e) : n * 2 ^ e % 2 ^ m = 0 :=
  mod_eq_zero_of_dvd ((Nat.pow_dvd_pow 2 h).mul_left n)

/-- Two shifts of a number agree modulo a power of two when they are one, or both leave nothing. -/
theorem shift_mod_eq_iff (n a b m : ℕ) :
    n * 2 ^ a % 2 ^ m = n * 2 ^ b % 2 ^ m ↔ a = b ∨ 2 ^ m ∣ n * 2 ^ min a b := by
  wlog h : a ≤ b generalizing a b
  · rw [eq_comm, this b a (by omega), eq_comm, min_comm]
  rw [min_eq_left h]
  obtain ⟨c, rfl⟩ := Nat.exists_eq_add_of_le h
  rcases Nat.eq_zero_or_pos c with rfl | hc
  · simp
  · have hodd : Coprime (2 ^ m) (2 ^ c - 1) := by
      refine Coprime.pow_left m (coprime_two_left.mpr ?_)
      exact Nat.Even.sub_odd Nat.one_le_two_pow (Nat.even_pow.mpr ⟨even_two, by omega⟩) odd_one
    have hle : n * 2 ^ a ≤ n * 2 ^ (a + c) :=
      Nat.mul_le_mul_left n (Nat.pow_le_pow_right Nat.two_pos (Nat.le_add_right a c))
    have hdiff : n * 2 ^ (a + c) - n * 2 ^ a = n * 2 ^ a * (2 ^ c - 1) := by
      rw [pow_add, ← Nat.mul_assoc, Nat.mul_sub, Nat.mul_one]
    have hiff : n * 2 ^ a % 2 ^ m = n * 2 ^ (a + c) % 2 ^ m ↔ 2 ^ m ∣ n * 2 ^ a := by
      rw [← hodd.dvd_mul_right, ← hdiff]
      exact modEq_iff_dvd' hle
    rw [hiff]
    exact (or_iff_right (by omega)).symm

/-! ### High bits -/

/-- The bits of a number from `m` to `n` are set when less than `2 ^ m` is missing to `2 ^ n`. -/
theorem testBit_high_iff {N m n : ℕ} (hN : N < 2 ^ n) (hmn : m ≤ n) :
    (∀ k, m ≤ k → k < n → N.testBit k = true) ↔ 2 ^ n ≤ N + 2 ^ m := by
  obtain ⟨d, rfl⟩ := Nat.exists_eq_add_of_le hmn
  have hdm := div_add_mod N (2 ^ m)
  have hmod := mod_lt N (Nat.two_pow_pos m)
  have hdiv : N / 2 ^ m < 2 ^ d := Nat.div_lt_of_lt_mul (by rwa [← pow_add])
  -- the bits from `m` on are the quotient, all set in the greatest number of `d` bits
  have hones : (∀ k, m ≤ k → k < m + d → N.testBit k = true) ↔ N / 2 ^ m = 2 ^ d - 1 := by
    constructor
    · intro h
      refine eq_of_testBit_eq fun k => ?_
      rw [testBit_two_pow_sub_one, testBit_div_two_pow]
      by_cases hk : k < d
      · rw [h _ (Nat.le_add_left m k) (by omega), decide_eq_true hk]
      · rw [decide_eq_false hk]
        exact testBit_lt_two_pow (hN.trans_le (Nat.pow_le_pow_right Nat.two_pos (by omega)))
    · intro h k hk hlt
      have hbit : (N / 2 ^ m).testBit (k - m) = true := by
        rw [h, testBit_two_pow_sub_one]
        exact decide_eq_true (by omega)
      rwa [testBit_div_two_pow, Nat.sub_add_cancel hk] at hbit
  have hpow := Nat.two_pow_pos d
  rw [hones, pow_add]
  constructor
  · intro h
    rw [h, Nat.mul_sub, Nat.mul_one] at hdm
    omega
  · intro h
    have hle : 2 ^ m * 2 ^ d < 2 ^ m * (N / 2 ^ m + 2) := by
      rw [Nat.mul_add]
      omega
    have := Nat.lt_of_mul_lt_mul_left hle
    omega

/-! ### The lowest bit -/

/-- Bit `k` is the lowest bit of `n` that is set. -/
def LowestAt (n k : ℕ) : Prop := 2 ^ k ∣ n ∧ n / 2 ^ k % 2 = 1

theorem LowestAt.eq_mul {n k : ℕ} (h : LowestAt n k) : n = 2 ^ k * (n / 2 ^ k) :=
  (Nat.mul_div_cancel' h.1).symm

theorem lowestAt_zero {n : ℕ} (h : n % 2 = 1) : LowestAt n 0 :=
  ⟨one_dvd n, by rwa [pow_zero, Nat.div_one]⟩

theorem LowestAt.succ {n k : ℕ} (heven : n % 2 = 0) (h : LowestAt (n / 2) k) : LowestAt n (k + 1) := by
  refine ⟨?_, ?_⟩
  · rw [pow_succ', ← Nat.mul_div_cancel' (dvd_of_mod_eq_zero heven)]
    exact Nat.mul_dvd_mul_left 2 h.1
  · rw [pow_succ', ← Nat.div_div_eq_div_mul]
    exact h.2

theorem lowestAt_iff_testBit {n k : ℕ} :
    LowestAt n k ↔ n.testBit k = true ∧ ∀ j < k, n.testBit j = false := by
  rw [LowestAt, and_comm, testBit_eq_decide_div_mod_eq, decide_eq_true_eq]
  refine and_congr_right fun _ => ⟨fun h j hj => ?_, fun h => ?_⟩
  · obtain ⟨m, rfl⟩ := h
    rw [testBit_two_pow_mul, decide_eq_false (by omega), Bool.false_and]
  · refine dvd_of_mod_eq_zero (eq_of_testBit_eq fun j => ?_)
    rw [testBit_mod_two_pow, zero_testBit]
    by_cases hj : j < k
    · rw [h j hj, Bool.and_false]
    · rw [decide_eq_false hj, Bool.false_and]

/-- The powers of two that divide a number. -/
theorem LowestAt.dvd_iff {n k : ℕ} (h : LowestAt n k) (j : ℕ) : 2 ^ j ∣ n ↔ j ≤ k := by
  constructor
  · intro hd
    by_contra hlt
    have hbit := (lowestAt_iff_testBit.mp h).1
    obtain ⟨m, rfl⟩ := hd
    rw [testBit_two_pow_mul, decide_eq_false (by omega), Bool.false_and] at hbit
    cases hbit
  · exact fun hle => (Nat.pow_dvd_pow 2 hle).trans h.1

/-! ### Odd numbers -/

/-- The odd part of a difference from an odd number has the divisors the larger number has. -/
theorem gcd_odd_part {a b k : ℕ} (ha : a % 2 = 1) (hle : a ≤ b) (h : LowestAt (b - a) k) :
    a.gcd ((b - a) / 2 ^ k) = a.gcd b := by
  have hodd : Coprime (2 ^ k) a := Coprime.pow_left k (coprime_two_left.mpr (Nat.odd_iff.mpr ha))
  have hmul := hodd.gcd_mul_left_cancel_right ((b - a) / 2 ^ k)
  rw [← h.eq_mul, Nat.gcd_sub_self_right hle] at hmul
  exact hmul.symm

/-- Factors of two taken out of both numbers. -/
theorem gcd_of_lowestAt {a b i j : ℕ} (ha : LowestAt a i) (hb : LowestAt b j) :
    a.gcd b = (a / 2 ^ i).gcd (b / 2 ^ j) * 2 ^ min i j := by
  wlog hij : i ≤ j generalizing a b i j
  · rw [Nat.gcd_comm, this hb ha (by omega), Nat.gcd_comm, min_comm]
  have hodd : Coprime (2 ^ (j - i)) (a / 2 ^ i) :=
    Coprime.pow_left _ (coprime_two_left.mpr (Nat.odd_iff.mpr ha.2))
  have hb' : b = 2 ^ i * (2 ^ (j - i) * (b / 2 ^ j)) := by
    rw [← Nat.mul_assoc, ← pow_add, Nat.add_sub_cancel' hij]
    exact hb.eq_mul
  rw [min_eq_left hij, ← hodd.gcd_mul_left_cancel_right, Nat.mul_comm, ← Nat.gcd_mul_left, ← hb', ← ha.eq_mul]

/-- Two odd numbers, in order. -/
structure OddPair (a b : ℕ) : Prop where
  left : a % 2 = 1
  right : b % 2 = 1
  le : a ≤ b

theorem oddPair_min_max {u v : ℕ} (hu : u % 2 = 1) (hv : v % 2 = 1) :
    OddPair (min u v) (max u v) ∧ (min u v).gcd (max u v) = u.gcd v ∧ min u v + max u v = u + v := by
  rcases Nat.le_total u v with h | h
  · rw [min_eq_left h, max_eq_right h]
    exact ⟨⟨hu, hv, h⟩, rfl, rfl⟩
  · rw [min_eq_right h, max_eq_left h]
    exact ⟨⟨hv, hu, h⟩, Nat.gcd_comm v u, Nat.add_comm v u⟩

/-- **A turn** on two odd numbers leaves odd numbers, with the same divisors and a smaller sum. -/
theorem OddPair.turn {a b k : ℕ} (hp : OddPair a b) (h : LowestAt (b - a) k) :
    (b - a) / 2 ^ k % 2 = 1 ∧ a + (b - a) / 2 ^ k < a + b ∧ a.gcd ((b - a) / 2 ^ k) = a.gcd b := by
  have hle := Nat.div_le_self (b - a) (2 ^ k)
  have := hp.left
  have := hp.le
  exact ⟨h.2, by omega, gcd_odd_part hp.left hp.le h⟩

end SourceLibs.PowersOfTwo
