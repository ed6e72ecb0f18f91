import Mathlib.RingTheory.Coprime.Basic

/-!
# Support — fractions in lowest terms

A fraction over a commutative ring is in lowest terms when its parts are coprime (`IsCoprime`).
Sums and products of such fractions are so again once the right common factors are taken out.

* `isCoprime_sum`: for `a / (b g)` and `c / (d g)` with `b` and `d` coprime, it is enough to take
  out what `a d + c b` has in common with `g`.
* `isCoprime_prod`: for a product it is enough to take out the factors common to each numerator
  and the other denominator.
-/

namespace SourceLibs

variable {R : Type*} [CommRing R]

/-- **The sum of two fractions.**  `n` and `k` are what remains of `a d + c b` and of `g` when
their common factor `h` is taken out. -/
theorem isCoprime_sum {a b c d g n k h : R} (ha : IsCoprime a (b * g)) (hc : IsCoprime c (d * g))
    (hbd : IsCoprime b d) (hn : a * d + c * b = n * h) (hk : IsCoprime n k) :
    IsCoprime n (b * (d * k)) := by
  have hdvd : n ∣ a * d + c * b := ⟨h, hn⟩
  -- a common factor with `b` divides `a d`, one with `d` divides `c b`
  have hb : IsCoprime (a * d + c * b) b :=
    (ha.of_mul_right_left.mul_left hbd.symm).add_mul_right_left c
  have hd : IsCoprime (a * d + c * b) d := by
    rw [add_comm]
    exact (hc.of_mul_right_left.mul_left hbd).add_mul_right_left a
  exact (hb.of_isCoprime_of_dvd_left hdvd).mul_right
    ((hd.of_isCoprime_of_dvd_left hdvd).mul_right hk)

/-- **The product of two fractions** `a g / (b h)` and `c h / (d g)`. -/
theorem isCoprime_prod {a b c d g h : R} (hab : IsCoprime (a * g) (b * h))
    (hcd : IsCoprime (c * h) (d * g)) (had : IsCoprime a d) (hcb : IsCoprime c b) :
    IsCoprime (a * c) (b * d) :=
  ((hab.of_mul_left_left.of_mul_right_left).mul_right had).mul_left
    (hcb.mul_right hcd.of_mul_left_left.of_mul_right_left)

end SourceLibs
