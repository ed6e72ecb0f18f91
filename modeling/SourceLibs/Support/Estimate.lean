import Mathlib.Algebra.Order.Ring.Int
import Mathlib.Algebra.Order.Ring.Nat
import Mathlib.Tactic.Linarith
import Mathlib.Tactic.LinearCombination
import Mathlib.Tactic.Ring

/-!
# Support — Estimate

Quotients estimated from leading parts.  The dividend is `r = a · P + r₀` and the divisor
`z = b · P + z₀`, with `r₀` and `z₀` below `P`; the estimate is `a / b`.  No normalisation of the
divisor is assumed, so the estimate may be too large by any factor; what follows holds anyway.

* `estimate_under`: the estimate is not too large for the divisor without its low part.
* `lt_estimate_mul_add`: it falls short by less than `a % b + 1` units of `P`.
* `estimate_mul_le`: it overshoots by no more than it says of the low part.
* `estimate_bounds`: what the three give for an estimate that is not zero.
-/

namespace SourceLibs

variable {P a b r₀ z₀ r z : ℕ}

theorem estimate_under (hr : r = a * P + r₀) : a / b * (b * P) ≤ r := by
  calc a / b * (b * P) = a / b * b * P := by ring
    _ ≤ a * P := Nat.mul_le_mul_right _ (Nat.div_mul_le_self a b)
    _ ≤ r := by omega

theorem lt_estimate_mul_add (hr : r = a * P + r₀) (hr₀ : r₀ < P) (hz : z = b * P + z₀) :
    r < a / b * z + (a % b + 1) * P := by
  have hdiv := Nat.div_add_mod a b
  calc r < a * P + P := by omega
    _ = a / b * (b * P) + (a % b + 1) * P := by
        linear_combination P * hdiv.symm
    _ ≤ a / b * z + (a % b + 1) * P := by
        have : a / b * (b * P) ≤ a / b * z := Nat.mul_le_mul_left _ (by omega)
        omega

theorem estimate_mul_le (hr : r = a * P + r₀) (hz : z = b * P + z₀) :
    a / b * z ≤ r + a / b * z₀ := by
  have h := estimate_under (b := b) hr
  calc a / b * z = a / b * (b * P) + a / b * z₀ := by rw [hz]; ring
    _ ≤ r + a / b * z₀ := by omega

/-- **An estimate that is not zero** leaves less than the dividend on either side, and less than
any bound on the two errors. -/
theorem estimate_bounds {D : ℕ} (hr : r = a * P + r₀) (hr₀ : r₀ < P) (hz : z = b * P + z₀)
    (hz₀ : z₀ < P) (hg : 0 < a / b) (h₁ : (a % b + 1) * P ≤ D) (h₂ : a / b * P ≤ D) :
    r < a / b * z + D ∧ a / b * z < r + D ∧ a / b * z < 2 * r := by
  have hlow := lt_estimate_mul_add hr hr₀ hz
  have hup := estimate_mul_le (b := b) hr hz
  have hz' : a / b * z₀ < a / b * P := Nat.mul_lt_mul_of_pos_left hz₀ hg
  have ha : a / b * P ≤ r := by
    have : a / b * P ≤ a * P := Nat.mul_le_mul_right _ (Nat.div_le_self a b)
    omega
  exact ⟨by omega, by omega, by omega⟩

/-! ### Division with a remainder that may go negative -/

/-- `x = Q · y + r`, or `x = Q · y - r` when `neg`. -/
def Splits (x y Q R : ℕ) (neg : Bool) : Prop := (x : ℤ) = Q * y + if neg then -(R : ℤ) else R

/-- **One correction.**  A multiple `G · S` of `y`, less than twice the remainder `R`, is taken off
the remainder, which turns its sign if the multiple was not smaller; the quotient moves against
the sign.  The remainder gets smaller, the quotient is positive and the splitting is kept. -/
theorem Splits.correct {x y Q R G S : ℕ} {neg : Bool} (h : Splits x y Q R neg) (hRx : R ≤ x)
    (h₀ : 0 < G * (y * S)) (h₂ : G * (y * S) < 2 * R) :
    (if G * (y * S) < R then R - G * (y * S) else G * (y * S) - R) < R ∧
    (neg = true → G * S < Q) ∧
    0 < (if neg then Q - G * S else Q + G * S) ∧
    Splits x y (if neg then Q - G * S else Q + G * S)
      (if G * (y * S) < R then R - G * (y * S) else G * (y * S) - R)
      (if G * (y * S) < R then neg else !neg) := by
  have hy : 0 < y := Nat.pos_of_ne_zero fun e => by simp [e] at h₀
  have hGS : 0 < G * S := Nat.pos_of_ne_zero fun e => by
    rw [show G * (y * S) = G * S * y by ring, e] at h₀
    simp at h₀
  have hlt : (if G * (y * S) < R then R - G * (y * S) else G * (y * S) - R) < R := by
    split <;> omega
  have hT : ((G * (y * S) : ℕ) : ℤ) = ((G * S : ℕ) : ℤ) * y := by
    push_cast
    ring
  unfold Splits at *
  set T := G * (y * S)
  set K := G * S
  cases neg with
  | false =>
    simp only [Bool.false_eq_true, if_false, Bool.not_false] at h ⊢
    refine ⟨hlt, fun h => h.elim, by omega, ?_⟩
    split
    · rename_i hlarger
      push_cast [Nat.cast_sub hlarger.le, hT]
      linear_combination h
    · rename_i hsmaller
      push_cast [Nat.cast_sub (Nat.le_of_not_lt hsmaller), hT]
      simp only [if_true]
      linear_combination h
  | true =>
    simp only [if_true, Bool.not_true] at h ⊢
    -- the quotient stays positive, as the remainder stays below `x`
    have hQ : K < Q := by
      have hz : 0 < ((Q : ℤ) - K) * y := by
        rw [sub_mul, ← hT]
        omega
      have := pos_of_mul_pos_left hz (by exact_mod_cast hy.le)
      omega
    refine ⟨hlt, fun _ => hQ, by omega, ?_⟩
    rw [Nat.cast_sub hQ.le]
    split
    · rename_i hlarger
      push_cast [Nat.cast_sub hlarger.le, hT]
      simp only [if_true]
      linear_combination h
    · rename_i hsmaller
      push_cast [Nat.cast_sub (Nat.le_of_not_lt hsmaller), hT]
      linear_combination h

end SourceLibs
