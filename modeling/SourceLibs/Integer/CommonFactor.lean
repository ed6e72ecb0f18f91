import Mathlib.Data.Int.GCD
import Mathlib.RingTheory.Coprime.Lemmas

/-!
# Integer — common factors

`integer/common_factor_rt.hpp`: the greatest common divisor, for an unbounded signed integer type.
`%` is the remainder of the truncating division.

* `gcdInteger_eq`: `gcd_integer` is the greatest common divisor.
* `gcdInteger_cofactors`: what remains of the arguments is coprime.
-/

namespace SourceLibs.Integer

/-- `gcd_euclidean`: two remainders a turn. -/
def gcdEuclidean (a b : ℤ) : ℤ :=
  if a = 0 then b
  else
    let b' := b.tmod a
    if b' = 0 then a
    else gcdEuclidean (a.tmod b') b'
termination_by a.natAbs
decreasing_by
  rename_i ha hb
  calc (a.tmod (b.tmod a)).natAbs = a.natAbs % (b.tmod a).natAbs := Int.natAbs_tmod _ _
    _ < (b.tmod a).natAbs := Nat.mod_lt _ (Int.natAbs_pos.mpr hb)
    _ = b.natAbs % a.natAbs := Int.natAbs_tmod _ _
    _ < a.natAbs := Nat.mod_lt _ (Int.natAbs_pos.mpr ha)

def gcdInteger (a b : ℤ) : ℤ :=
  let result := gcdEuclidean a b
  if result < 0 then -result else result

/-- One remainder keeps the greatest common divisor. -/
theorem gcd_tmod_left (a b : ℤ) : Int.gcd (a.tmod b) b = Int.gcd a b := by
  rw [Int.gcd, Int.natAbs_tmod, ← Nat.gcd_rec, Nat.gcd_comm]
  rfl

/-- **The loop** returns the greatest common divisor, up to its sign. -/
theorem gcdEuclidean_natAbs (a b : ℤ) : (gcdEuclidean a b).natAbs = Int.gcd a b := by
  induction a, b using gcdEuclidean.induct with
  | case1 b =>
    rw [gcdEuclidean, if_pos rfl, Int.gcd_zero_left]
  | case2 a b ha b' hb =>
    have hz : b.tmod a = 0 := hb
    rw [gcdEuclidean, if_neg ha, if_pos hb, Int.gcd_comm, ← gcd_tmod_left, hz, Int.gcd_zero_left]
  | case3 a b ha b' hb ih =>
    rw [gcdEuclidean, if_neg ha, if_neg hb, ih, gcd_tmod_left, Int.gcd_comm, gcd_tmod_left,
      Int.gcd_comm]

theorem gcdInteger_eq (a b : ℤ) : gcdInteger a b = Int.gcd a b := by
  rw [← gcdEuclidean_natAbs, gcdInteger]
  split <;> omega

theorem gcdInteger_cofactors {a b : ℤ} (h : a ≠ 0 ∨ b ≠ 0) :
    ∃ p q, 0 < gcdInteger a b ∧ a = p * gcdInteger a b ∧ b = q * gcdInteger a b ∧
      IsCoprime p q := by
  have hpos : 0 < Int.gcd a b := by
    rw [Int.gcd_pos_iff]
    exact h
  obtain ⟨p, q, hpq, ha, hb⟩ := Int.exists_gcd_one hpos
  rw [gcdInteger_eq]
  exact ⟨p, q, by exact_mod_cast hpos, ha, hb, Int.isCoprime_iff_gcd_eq_one.mpr hpq⟩

end SourceLibs.Integer
