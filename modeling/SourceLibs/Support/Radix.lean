import Mathlib.Algebra.BigOperators.Ring.Finset
import Mathlib.Algebra.Order.BigOperators.Group.Finset
import Mathlib.Algebra.Order.Ring.Nat
import Mathlib.Tactic.Linarith
import Mathlib.Tactic.LinearCombination
import Mathlib.Tactic.Ring

/-!
# Support — Radix

Positional values.  A number is stored as a function `f` from positions to digits together with
a count `n`; its value at radix `B` is `Σ_{i < n} f i · B ^ i` (`value`).  Digits at and past
position `n` are storage the number does not use, and no lemma here looks at them.

* `value_lt`, `pow_le_value`: the first `n` digits denote a number below `B ^ n`, and one at
  least `B ^ n` when digit `n` is not zero.
* `value_split`: the low `m` digits and the rest; `value_update`: one digit replaced.
* `value_lt_of_digit`: the first difference from the top decides the order.
* `value_inj`: digits below the radix are determined by the value.
-/

namespace SourceLibs.Radix
open Finset

/-- `Σ_{i < n} f i · B ^ i`. -/
def value {R : Type*} [CommSemiring R] (B : R) (f : ℕ → R) (n : ℕ) : R :=
  ∑ i ∈ range n, f i * B ^ i

section Semiring
variable {R : Type*} [CommSemiring R] (B : R) (f : ℕ → R)

@[simp] theorem value_zero : value B f 0 = 0 := by simp [value]

theorem value_succ (n : ℕ) : value B f (n + 1) = value B f n + f n * B ^ n := by
  simp [value, sum_range_succ]

@[simp] theorem value_one : value B f 1 = f 0 := by simp [value]

theorem value_congr {f g : ℕ → R} {n : ℕ} (h : ∀ i < n, f i = g i) :
    value B f n = value B g n :=
  sum_congr rfl fun i hi => by rw [h i (mem_range.mp hi)]

/-- The low `m` digits, and the rest shifted up by `m`. -/
theorem value_split (m n : ℕ) :
    value B f (m + n) = value B f m + B ^ m * value B (fun i => f (m + i)) n := by
  rw [value, value, value, sum_range_add, mul_sum]
  congr 1
  exact sum_congr rfl fun i _ => by rw [pow_add]; ring

theorem value_update (d : R) {i n : ℕ} (h : i < n) :
    value B (Function.update f i d) n + f i * B ^ i = value B f n + d * B ^ i := by
  have hi : i ∈ range n := mem_range.mpr h
  have hne : ∀ j ∈ (range n).erase i, Function.update f i d j * B ^ j = f j * B ^ j := fun j hj => by
    rw [Function.update_of_ne (ne_of_mem_erase hj)]
  rw [value, value, ← add_sum_erase _ _ hi, ← add_sum_erase (range n) (fun j => f j * B ^ j) hi,
    sum_congr rfl hne, Function.update_self]
  ring

theorem value_of_zero_above {f : ℕ → R} {m n : ℕ} (hmn : m ≤ n)
    (h : ∀ i, m ≤ i → i < n → f i = 0) : value B f n = value B f m := by
  obtain ⟨k, rfl⟩ := Nat.exists_eq_add_of_le hmn
  induction k with
  | zero => rfl
  | succ k ih =>
    rw [← Nat.add_assoc, value_succ, ih (Nat.le_add_right m k) fun i h₁ h₂ => h i h₁ (by omega),
      h (m + k) (Nat.le_add_right m k) (by omega)]
    ring

theorem value_add (f g : ℕ → R) (n : ℕ) :
    value B (fun i => f i + g i) n = value B f n + value B g n := by
  simp only [value, add_mul, sum_add_distrib]

theorem value_mul_right (c : R) (n : ℕ) : value B (fun i => f i * c) n = value B f n * c := by
  rw [value, value, sum_mul]
  exact sum_congr rfl fun i _ => by ring

theorem value_mul_left (c : R) (n : ℕ) : value B (fun i => c * f i) n = c * value B f n := by
  rw [value, value, mul_sum]
  exact sum_congr rfl fun i _ => by ring

end Semiring

theorem value_sub {R : Type*} [CommRing R] (B : R) (f g : ℕ → R) (n : ℕ) :
    value B (fun i => f i - g i) n = value B f n - value B g n := by
  simp only [value, sub_mul, sum_sub_distrib]

/-! ### Natural digits -/

section Nat
variable {B : ℕ}

theorem cast_value (f : ℕ → ℕ) (n : ℕ) :
    ((value B f n : ℕ) : ℤ) = value (B : ℤ) (fun i => (f i : ℤ)) n := by
  simp [value]

theorem value_lt {f : ℕ → ℕ} {n : ℕ} (h : ∀ i < n, f i < B) : value B f n < B ^ n := by
  induction n with
  | zero => simp
  | succ n ih =>
    have hn := ih fun i hi => h i (by omega)
    have hd : f n + 1 ≤ B := h n (by omega)
    calc value B f (n + 1) = value B f n + f n * B ^ n := value_succ ..
      _ < (f n + 1) * B ^ n := by rw [Nat.add_mul]; omega
      _ ≤ B * B ^ n := Nat.mul_le_mul_right _ hd
      _ = B ^ (n + 1) := by ring

theorem pow_le_value {f : ℕ → ℕ} {n : ℕ} (h : f n ≠ 0) : B ^ n ≤ value B f (n + 1) := by
  rw [value_succ]
  have : 1 * B ^ n ≤ f n * B ^ n := Nat.mul_le_mul_right _ (by omega)
  omega

theorem value_lt_of_digit {f g : ℕ → ℕ} {n i : ℕ} (hi : i < n) (hf : ∀ j < n, f j < B)
    (hlt : f i < g i) (heq : ∀ j, i < j → j < n → f j = g j) : value B f n < value B g n := by
  induction n with
  | zero => omega
  | succ n ih =>
    rw [value_succ, value_succ]
    rcases Nat.lt_succ_iff_lt_or_eq.mp hi with h | rfl
    · have hn := ih h (fun j hj => hf j (by omega)) fun j h₁ h₂ => heq j h₁ (by omega)
      rw [heq n h (by omega)]
      omega
    · have hlow : value B f i < B ^ i := value_lt fun j hj => hf j (by omega)
      have : (f i + 1) * B ^ i ≤ g i * B ^ i := Nat.mul_le_mul_right _ hlt
      rw [Nat.add_mul] at this
      omega

theorem value_inj {f g : ℕ → ℕ} {n : ℕ} (hf : ∀ i < n, f i < B) (hg : ∀ i < n, g i < B)
    (h : value B f n = value B g n) : ∀ i < n, f i = g i := by
  by_contra hne
  push Not at hne
  classical
  -- the highest position where the digits differ
  let D := (range n).filter fun i => f i ≠ g i
  have hD : D.Nonempty := by
    obtain ⟨i, hi, hfi⟩ := hne
    exact ⟨i, mem_filter.mpr ⟨mem_range.mpr hi, hfi⟩⟩
  obtain ⟨hi, hfi⟩ := mem_filter.mp (D.max'_mem hD)
  have htop : ∀ j, D.max' hD < j → j < n → f j = g j := fun j h₁ h₂ => by
    by_contra hj
    exact absurd (D.le_max' j (mem_filter.mpr ⟨mem_range.mpr h₂, hj⟩)) (by omega)
  rcases Nat.lt_or_gt_of_ne hfi with hlt | hgt
  · exact absurd h (Nat.ne_of_lt (value_lt_of_digit (mem_range.mp hi) hf hlt htop))
  · exact absurd h (Nat.ne_of_gt (value_lt_of_digit (mem_range.mp hi) hg hgt
      fun j h₁ h₂ => (htop j h₁ h₂).symm))

end Nat

end SourceLibs.Radix
