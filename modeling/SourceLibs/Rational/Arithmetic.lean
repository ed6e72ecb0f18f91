import Mathlib.Data.Rat.Cast.Order
import Mathlib.Tactic.LinearCombination
import Mathlib.Tactic.FieldSimp
import SourceLibs.Integer.CommonFactor
import SourceLibs.Support.Coprime

/-!
# Rational — arithmetic

`rational.hpp` over an unbounded signed `IntType`: construction, the assignment operators with a
rational and with an integer, `++`, `--`, unary minus and `abs`.  `/` truncates.  The operators do
not call `normalize`; they take out common factors so that the fraction stays in lowest terms.

The right operand of an operator is an `Operand`: the object itself, or another one.  An integer
operand is a `const IntType&` where `IntType` is a class, so it may be a part of the object
(`IntOperand`), and what is read of it after an assignment to that part is the new value.  The operators
with a rational copy the parts of their operand first; `operator/=` with an integer does not.

* `Represents`: the fraction is in lowest terms, its denominator positive, and its value is `q`.
* `addAssign_represents`, `mulAssign_represents`, `divAssign_represents`: the operators.
* `construct_represents`: construction from any `n` and `d ≠ 0`.
* `divAssignInt_numerator`: division by the object's own numerator.
* `rational_exact_iff`: every operation but that one is exact, or throws and leaves the left operand as
  it was.
-/

namespace SourceLibs

/-- `rational`: `num` and `den`. -/
structure Rational where
  num : ℤ
  den : ℤ
  deriving DecidableEq, Repr

end SourceLibs

namespace SourceLibs.Rational

open Integer

/-! ### The operations -/

/-- What an operation throws, or an assertion that fails. -/
inductive Fault where
  | badRational (what : String)
  | assertion
  deriving DecidableEq, Repr

/-- `bad_rational()`. -/
def zeroDenominator : Fault := .badRational "bad rational: zero denominator"

/-- The object after an operation that returned, or threw. -/
inductive Outcome where
  | returns (this : Rational)
  | throws (fault : Fault) (this : Rational)
  deriving DecidableEq, Repr

/-- `const rational& r`, which may be the object itself. -/
inductive Operand where
  | self
  | other (r : Rational)

/-- The value of the operand while the object is `this`. -/
def Operand.get (this : Rational) : Operand → Rational
  | self => this
  | other r => r

/-- `param_type i`, which may be `numerator()` or `denominator()` of the object itself. -/
inductive IntOperand where
  | value (i : ℤ)
  | numerator
  | denominator
  deriving DecidableEq, Repr

/-- The integer while the object is `this`. -/
def IntOperand.get (this : Rational) : IntOperand → ℤ
  | value i => i
  | numerator => this.num
  | denominator => this.den

/-- `test_invariant`. -/
def testInvariant (r : Rational) : Bool :=
  0 < r.den && gcdInteger r.num r.den = 1

/-- `if (den < zero) { num = -num; den = -den; }`. -/
def positiveDen (r : Rational) : Rational :=
  if r.den < 0 then ⟨-r.num, -r.den⟩ else r

def normalize (r : Rational) : Except Fault Rational :=
  if r.den = 0 then .error zeroDenominator
  else if r.num = 0 then .ok { r with den := 1 }
  else
    let g := gcdInteger r.num r.den
    let r := positiveDen ⟨r.num.tdiv g, r.den.tdiv g⟩
    if r.den < 0 then .error (.badRational "bad rational: non-zero singular denominator")
    else if testInvariant r then .ok r else .error .assertion

/-- `rational(n, d)`. -/
def construct (n d : ℤ) : Except Fault Rational := normalize ⟨n, d⟩

/-- `assign`: `*this = rational( n, d )`. -/
def assign (this : Rational) (n d : ℤ) : Outcome :=
  match construct n d with
  | .ok r => .returns r
  | .error fault => .throws fault this

/-- `operator-` of one argument. -/
def neg (r : Rational) : Except Fault Rational := construct (-r.num) r.den

def abs (r : Rational) : Except Fault Rational := if 0 ≤ r.num then .ok r else neg r

/-- `operator++`. -/
def increment (this : Rational) : Rational := { this with num := this.num + this.den }

/-- `operator--`. -/
def decrement (this : Rational) : Rational := { this with num := this.num - this.den }

/-- `operator+=` with a rational. -/
def addAssign (this : Rational) (r : Operand) : Rational :=
  let rNum := (r.get this).num
  let rDen := (r.get this).den
  let g := gcdInteger this.den rDen
  let den := this.den.tdiv g
  let num := this.num * rDen.tdiv g + rNum * den
  let g := gcdInteger num g
  ⟨num.tdiv g, den * rDen.tdiv g⟩

/-- `operator-=` with a rational. -/
def subAssign (this : Rational) (r : Operand) : Rational :=
  let rNum := (r.get this).num
  let rDen := (r.get this).den
  let g := gcdInteger this.den rDen
  let den := this.den.tdiv g
  let num := this.num * rDen.tdiv g - rNum * den
  let g := gcdInteger num g
  ⟨num.tdiv g, den * rDen.tdiv g⟩

/-- `operator*=` with a rational. -/
def mulAssign (this : Rational) (r : Operand) : Rational :=
  let rNum := (r.get this).num
  let rDen := (r.get this).den
  let gcd1 := gcdInteger this.num rDen
  let gcd2 := gcdInteger rNum this.den
  ⟨this.num.tdiv gcd1 * rNum.tdiv gcd2, this.den.tdiv gcd2 * rDen.tdiv gcd1⟩

/-- `operator/=` with a rational. -/
def divAssign (this : Rational) (r : Operand) : Outcome :=
  let rNum := (r.get this).num
  let rDen := (r.get this).den
  if rNum = 0 then .throws zeroDenominator this
  else if this.num = 0 then .returns this
  else
    let gcd1 := gcdInteger this.num rNum
    let gcd2 := gcdInteger rDen this.den
    .returns (positiveDen
      ⟨this.num.tdiv gcd1 * rDen.tdiv gcd2, this.den.tdiv gcd2 * rNum.tdiv gcd1⟩)

/-- `operator+=` with an integer. -/
def addAssignInt (this : Rational) (i : IntOperand) : Rational :=
  { this with num := this.num + i.get this * this.den }

/-- `operator-=` with an integer. -/
def subAssignInt (this : Rational) (i : IntOperand) : Rational :=
  { this with num := this.num - i.get this * this.den }

/-- `operator*=` with an integer. -/
def mulAssignInt (this : Rational) (i : IntOperand) : Rational :=
  let gcd := gcdInteger (i.get this) this.den
  let this := { this with num := this.num * (i.get this).tdiv gcd }
  { this with den := this.den.tdiv gcd }

/-- `operator/=` with an integer, which is read again when `num` has been divided. -/
def divAssignInt (this : Rational) (i : IntOperand) : Outcome :=
  if i.get this = 0 then .throws zeroDenominator this
  else if this.num = 0 then .returns this
  else
    let gcd := gcdInteger this.num (i.get this)
    let this := { this with num := this.num.tdiv gcd }
    let this := { this with den := this.den * (i.get this).tdiv gcd }
    .returns (positiveDen this)

/-! ### Lowest terms -/

/-- The class invariant: lowest terms and a positive denominator. -/
structure Normalized (r : Rational) : Prop where
  den_pos : 0 < r.den
  gcd_eq : Int.gcd r.num r.den = 1

/-- The value of a fraction. -/
def toRat (r : Rational) : ℚ := r.num / r.den

/-- The object is normalised and stands for `q`. -/
structure Represents (r : Rational) (q : ℚ) : Prop extends Normalized r where
  toRat_eq : r.toRat = q

variable {a : Rational}

theorem Normalized.coprime (h : a.Normalized) : IsCoprime a.num a.den :=
  Int.isCoprime_iff_gcd_eq_one.mpr h.gcd_eq

theorem Normalized.den_cast_ne (h : a.Normalized) : (a.den : ℚ) ≠ 0 :=
  Int.cast_ne_zero.mpr h.den_pos.ne'

theorem Normalized.represents (h : a.Normalized) : a.Represents a.toRat := ⟨h, rfl⟩

theorem Normalized.testInvariant (h : a.Normalized) : a.testInvariant = true := by
  simp [Rational.testInvariant, h.den_pos, gcdInteger_eq, h.gcd_eq]

/-- The numerator vanishes exactly with the value. -/
theorem Normalized.num_eq_zero (h : a.Normalized) : a.num = 0 ↔ a.toRat = 0 := by
  rw [toRat, div_eq_zero_iff, Int.cast_eq_zero]
  exact ⟨.inl, fun hz => hz.resolve_right h.den_cast_ne⟩

/-- Parts in lowest terms that stand for `x / y`. -/
theorem represents_of_mul {n d x y : ℤ} (hd : 0 < d) (hc : IsCoprime n d) (hy : y ≠ 0)
    (h : n * y = x * d) : Represents ⟨n, d⟩ (x / y) := by
  refine ⟨⟨hd, Int.isCoprime_iff_gcd_eq_one.mp hc⟩, ?_⟩
  have hd' : (d : ℚ) ≠ 0 := Int.cast_ne_zero.mpr hd.ne'
  have hy' : (y : ℚ) ≠ 0 := Int.cast_ne_zero.mpr hy
  rw [toRat, div_eq_div_iff hd' hy']
  exact_mod_cast h

/-- The same for a denominator of either sign. -/
theorem positiveDen_represents {n d x y : ℤ} (hd : d ≠ 0) (hc : IsCoprime n d) (hy : y ≠ 0)
    (h : n * y = x * d) : (positiveDen ⟨n, d⟩).Represents (x / y) := by
  unfold positiveDen
  split
  · rename_i hneg
    refine represents_of_mul (Int.neg_pos_of_neg hneg) hc.neg_neg hy ?_
    linear_combination -h
  · rename_i hge
    exact represents_of_mul (by dsimp only at hge; omega) hc hy h

/-! ### Construction -/

/-- **Construction** from a numerator and a denominator other than zero. -/
theorem construct_represents (n : ℤ) {d : ℤ} (hd : d ≠ 0) :
    ∃ r, construct n d = .ok r ∧ r.Represents (n / d) := by
  unfold construct normalize
  rw [if_neg hd]
  split
  · rename_i hn
    dsimp only at hn
    subst hn
    refine ⟨_, rfl, represents_of_mul one_pos isCoprime_one_right hd ?_⟩
    rw [zero_mul, zero_mul]
  · obtain ⟨p, q, hg, hp, hq, hpq⟩ := gcdInteger_cofactors (a := n) (.inr hd)
    dsimp only
    generalize gcdInteger n d = g at *
    subst hp hq
    rw [Int.mul_tdiv_cancel _ hg.ne', Int.mul_tdiv_cancel _ hg.ne']
    have hr := positiveDen_represents (y := q * g) (x := p * g) (left_ne_zero_of_mul hd) hpq hd
      (by ring)
    rw [if_neg hr.den_pos.not_gt, if_pos hr.testInvariant]
    exact ⟨_, rfl, hr⟩

theorem neg_represents (h : a.Normalized) : ∃ r, a.neg = .ok r ∧ r.Represents (-a.toRat) := by
  obtain ⟨r, hr, hrep⟩ := construct_represents (-a.num) h.den_pos.ne'
  refine ⟨r, hr, ?_⟩
  rwa [Int.cast_neg, neg_div] at hrep

theorem abs_represents (h : a.Normalized) : ∃ r, a.abs = .ok r ∧ r.Represents |a.toRat| := by
  have hden : (0 : ℚ) < a.den := Int.cast_pos.mpr h.den_pos
  unfold abs
  split
  · rename_i hn
    have hpos : 0 ≤ a.toRat := div_nonneg (Int.cast_nonneg hn) hden.le
    exact ⟨a, rfl, by rw [abs_of_nonneg hpos]; exact h.represents⟩
  · rename_i hn
    have hneg : a.toRat ≤ 0 :=
      div_nonpos_of_nonpos_of_nonneg (Int.cast_nonpos.mpr (by omega)) hden.le
    rw [abs_of_nonpos hneg]
    exact neg_represents h

/-! ### Sums -/

/-- **`+=`** with a rational. -/
theorem addAssign_represents (ha : a.Normalized) (r : Operand) (hr : (r.get a).Normalized) :
    (a.addAssign r).Represents (a.toRat + (r.get a).toRat) := by
  have hb := ha.den_pos
  have hd := hr.den_pos
  have hac := ha.coprime
  have hcc := hr.coprime
  have hval : a.toRat + (r.get a).toRat =
      ((a.num * (r.get a).den + (r.get a).num * a.den : ℤ) : ℚ) /
        ((a.den * (r.get a).den : ℤ) : ℚ) := by
    rw [toRat, toRat, div_add_div _ _ ha.den_cast_ne hr.den_cast_ne]
    push_cast
    ring
  rw [hval]
  unfold addAssign
  dsimp only
  generalize (r.get a).num = c at *
  generalize (r.get a).den = d at *
  obtain ⟨b₁, d₁, hg, hb₁, hd₁, hbd⟩ := gcdInteger_cofactors (a := a.den) (b := d) (.inl hb.ne')
  generalize gcdInteger a.den d = g at *
  rw [hb₁] at hac hb ⊢
  subst hd₁
  rw [Int.mul_tdiv_cancel _ hg.ne', Int.mul_tdiv_cancel _ hg.ne']
  obtain ⟨n, k, hh, hn, hk, hnk⟩ :=
    gcdInteger_cofactors (a := a.num * d₁ + c * b₁) (b := g) (.inr hg.ne')
  generalize gcdInteger (a.num * d₁ + c * b₁) g = h at *
  have hcop := isCoprime_sum hac hcc hbd hn hnk
  have hquot : (d₁ * g).tdiv h = d₁ * k := by
    rw [hk, ← mul_assoc, Int.mul_tdiv_cancel _ hh.ne']
  rw [hquot, hn, Int.mul_tdiv_cancel _ hh.ne']
  have hkpos : 0 < k := pos_of_mul_pos_left (hk ▸ hg) hh.le
  have hb₁pos : 0 < b₁ := pos_of_mul_pos_left hb hg.le
  have hd₁pos : 0 < d₁ := pos_of_mul_pos_left hd hg.le
  refine represents_of_mul (mul_pos hb₁pos (mul_pos hd₁pos hkpos)) hcop (mul_pos hb hd).ne' ?_
  linear_combination (-(b₁ * d₁ * g * k)) * hn + n * b₁ * d₁ * g * hk

/-- **`-=`** adds the opposite. -/
theorem subAssign_represents (ha : a.Normalized) (r : Operand) (hr : (r.get a).Normalized) :
    (a.subAssign r).Represents (a.toRat - (r.get a).toRat) := by
  have hopp : Normalized ⟨-(r.get a).num, (r.get a).den⟩ :=
    ⟨hr.den_pos, by rw [Int.neg_gcd]; exact hr.gcd_eq⟩
  have hadd := addAssign_represents ha (.other ⟨-(r.get a).num, (r.get a).den⟩) hopp
  have hval : a.toRat - (r.get a).toRat =
      a.toRat + toRat ⟨-(r.get a).num, (r.get a).den⟩ := by
    rw [sub_eq_add_neg, toRat, toRat, toRat, Int.cast_neg, neg_div]
  have heq : a.subAssign r = a.addAssign (.other ⟨-(r.get a).num, (r.get a).den⟩) := by
    simp only [subAssign, addAssign, Operand.get, sub_eq_add_neg, neg_mul]
  rw [hval, heq]
  exact hadd

/-- `+=` with an integer keeps the denominator. -/
theorem addAssignInt_represents (ha : a.Normalized) (i : IntOperand) :
    (a.addAssignInt i).Represents (a.toRat + i.get a) := by
  have hcop : IsCoprime (a.num + i.get a * a.den) a.den := ha.coprime.add_mul_right_left _
  refine ⟨⟨ha.den_pos, Int.isCoprime_iff_gcd_eq_one.mp hcop⟩, ?_⟩
  have := ha.den_cast_ne
  simp only [addAssignInt, toRat]
  push_cast
  field_simp

theorem subAssignInt_represents (ha : a.Normalized) (i : IntOperand) :
    (a.subAssignInt i).Represents (a.toRat - i.get a) := by
  have heq : a.subAssignInt i = a.addAssignInt (.value (-i.get a)) := by
    simp only [subAssignInt, addAssignInt, IntOperand.get, sub_eq_add_neg, neg_mul]
  have hadd := addAssignInt_represents ha (.value (-i.get a))
  rwa [IntOperand.get, Int.cast_neg, ← sub_eq_add_neg, ← heq] at hadd

theorem increment_represents (ha : a.Normalized) : a.increment.Represents (a.toRat + 1) := by
  have h := addAssignInt_represents ha (.value 1)
  rwa [addAssignInt, IntOperand.get, one_mul, Int.cast_one] at h

theorem decrement_represents (ha : a.Normalized) : a.decrement.Represents (a.toRat - 1) := by
  have h := subAssignInt_represents ha (.value 1)
  rwa [subAssignInt, IntOperand.get, one_mul, Int.cast_one] at h

/-! ### Products -/

/-- **The product of `a / b` and `c / d`** with the crosswise common factors taken out. -/
theorem mul_cofactors {a b c d : ℤ} (hab : IsCoprime a b) (hcd : IsCoprime c d) (hb : b ≠ 0)
    (hd : d ≠ 0) :
    ∃ n m, n = a.tdiv (gcdInteger a d) * c.tdiv (gcdInteger c b) ∧
      m = b.tdiv (gcdInteger c b) * d.tdiv (gcdInteger a d) ∧ IsCoprime n m ∧ m ≠ 0 ∧
      (0 < b → 0 < d → 0 < m) ∧ n * (b * d) = a * c * m := by
  obtain ⟨a₁, d₁, hg, ha₁, hd₁, had⟩ := gcdInteger_cofactors (a := a) (.inr hd)
  obtain ⟨c₁, b₁, hh, hc₁, hb₁, hcb⟩ := gcdInteger_cofactors (a := c) (.inr hb)
  refine ⟨_, _, rfl, rfl, ?_⟩
  generalize gcdInteger a d = g at *
  generalize gcdInteger c b = h at *
  subst ha₁ hd₁ hc₁ hb₁
  simp only [Int.mul_tdiv_cancel _ hg.ne', Int.mul_tdiv_cancel _ hh.ne']
  refine ⟨isCoprime_prod hab hcd had hcb,
    mul_ne_zero (left_ne_zero_of_mul hb) (left_ne_zero_of_mul hd), fun hb hd => ?_, by ring⟩
  exact mul_pos (pos_of_mul_pos_left hb hh.le) (pos_of_mul_pos_left hd hg.le)

/-- **`*=`** with a rational. -/
theorem mulAssign_represents (ha : a.Normalized) (r : Operand) (hr : (r.get a).Normalized) :
    (a.mulAssign r).Represents (a.toRat * (r.get a).toRat) := by
  obtain ⟨n, m, hn, hm, hcop, -, hpos, hval⟩ :=
    mul_cofactors ha.coprime hr.coprime ha.den_pos.ne' hr.den_pos.ne'
  have h := represents_of_mul (hpos ha.den_pos hr.den_pos) hcop
    (mul_ne_zero ha.den_pos.ne' hr.den_pos.ne') hval
  rw [hn, hm] at h
  rwa [toRat, toRat, div_mul_div_comm, ← Int.cast_mul, ← Int.cast_mul]

/-- **`*=`** with an integer, the fraction `i / 1`. -/
theorem mulAssignInt_represents (ha : a.Normalized) (i : IntOperand) :
    (a.mulAssignInt i).Represents (a.toRat * i.get a) := by
  have hi : Normalized ⟨i.get a, 1⟩ := ⟨one_pos, Int.gcd_one_right _⟩
  have h := mulAssign_represents ha (.other ⟨i.get a, 1⟩) hi
  have heq : a.mulAssign (.other ⟨i.get a, 1⟩) = a.mulAssignInt i := by
    have h₁ : gcdInteger a.num 1 = 1 := by rw [gcdInteger_eq, Int.gcd_one_right]; rfl
    simp only [mulAssign, mulAssignInt, Operand.get, h₁, Int.tdiv_one, mul_one]
  have hval : toRat ⟨i.get a, 1⟩ = i.get a := by rw [toRat, Int.cast_one, div_one]
  rwa [heq, Operand.get, hval] at h

/-! ### Quotients -/

/-- **`/=`** with a rational other than zero. -/
theorem divAssign_represents (ha : a.Normalized) (r : Operand) (hr : (r.get a).Normalized)
    (hne : (r.get a).toRat ≠ 0) :
    ∃ q, a.divAssign r = .returns q ∧ q.Represents (a.toRat / (r.get a).toRat) := by
  have hc : (r.get a).num ≠ 0 := fun h => hne (hr.num_eq_zero.mp h)
  unfold divAssign
  rw [if_neg hc]
  split
  · rename_i hz
    have hz' := ha.num_eq_zero.mp hz
    refine ⟨a, rfl, ha, ?_⟩
    rw [hz', zero_div]
  · obtain ⟨n, m, hn, hm, hcop, hne, -, hval⟩ :=
      mul_cofactors ha.coprime hr.coprime.symm ha.den_pos.ne' hc
    have h := positiveDen_represents hne hcop (mul_ne_zero ha.den_pos.ne' hc) hval
    rw [hn, hm] at h
    refine ⟨_, rfl, ?_⟩
    rwa [toRat, toRat, div_div_div_eq, ← Int.cast_mul, ← Int.cast_mul]

theorem divAssign_throws (a : Rational) (r : Operand) (hr : (r.get a).Normalized)
    (hz : (r.get a).toRat = 0) : a.divAssign r = .throws zeroDenominator a :=
  if_pos (hr.num_eq_zero.mpr hz)

/-- **`/=`** with an integer other than zero that is not changed by the division of `num`, the fraction
`1 / i` for its parts. -/
theorem divAssignInt_represents (ha : a.Normalized) {i : IntOperand} (hi : i.get a ≠ 0)
    (hkeep : i.get { a with num := a.num.tdiv (gcdInteger a.num (i.get a)) } = i.get a) :
    ∃ q, a.divAssignInt i = .returns q ∧ q.Represents (a.toRat / i.get a) := by
  unfold divAssignInt
  rw [if_neg hi]
  split
  · rename_i hz
    have hz' := ha.num_eq_zero.mp hz
    refine ⟨a, rfl, ha, ?_⟩
    rw [hz', zero_div]
  · obtain ⟨n, m, hn, hm, hcop, hne, -, hval⟩ :=
      mul_cofactors (c := 1) ha.coprime isCoprime_one_left ha.den_pos.ne' hi
    have h := positiveDen_represents hne hcop (mul_ne_zero ha.den_pos.ne' hi) hval
    have h₁ : gcdInteger 1 a.den = 1 := by
      rw [gcdInteger_eq, Int.gcd_one_left]
      rfl
    rw [hn, hm, h₁, Int.tdiv_one, Int.tdiv_one, mul_one, mul_one] at h
    simp only [hkeep]
    refine ⟨_, rfl, ?_⟩
    rwa [toRat, div_div, ← Int.cast_mul]

/-- **`a /= a.numerator()`** leaves a denominator of zero, unless the numerator is `1` or `-1`. -/
theorem divAssignInt_numerator (h : 1 < a.num.natAbs) :
    a.divAssignInt .numerator = .returns ⟨a.num.tdiv a.num.natAbs, 0⟩ := by
  have hne : a.num ≠ 0 := by omega
  have hgcd : gcdInteger a.num a.num = a.num.natAbs := by rw [gcdInteger_eq, Int.gcd_self]
  -- the numerator becomes its sign, and the sign is divided by what was its size
  have hzero : (a.num.tdiv a.num.natAbs).tdiv a.num.natAbs = 0 := by
    rcases Int.natAbs_eq a.num with hpos | hneg
    · have hone : a.num.tdiv a.num.natAbs = 1 := by
        rw [← hpos]
        exact Int.tdiv_self hne
      rw [hone]
      exact Int.tdiv_eq_zero_of_lt (by decide) (by omega)
    · have hone : a.num.tdiv a.num.natAbs = -1 := by
        nth_rewrite 1 [hneg]
        rw [Int.neg_tdiv, Int.tdiv_self (by omega)]
      rw [hone, Int.neg_tdiv, Int.tdiv_eq_zero_of_lt (by decide) (by omega), neg_zero]
  simp only [divAssignInt, IntOperand.get, if_neg hne, hgcd, hzero, mul_zero, positiveDen, lt_irrefl,
    if_false]

/-- **When `/=`** with an integer is exact. -/
theorem divAssignInt_iff (ha : a.Normalized) {i : IntOperand} (hi : i.get a ≠ 0) :
    (∃ q, a.divAssignInt i = .returns q ∧ q.Represents (a.toRat / i.get a)) ↔
      ¬ (i = .numerator ∧ 1 < a.num.natAbs) := by
  refine ⟨?_, fun h => ?_⟩
  · rintro ⟨q, hq, hrep⟩ ⟨rfl, hlarge⟩
    rw [divAssignInt_numerator hlarge] at hq
    cases hq
    exact lt_irrefl _ hrep.den_pos
  · refine divAssignInt_represents ha hi ?_
    cases i with
    | value i => rfl
    | denominator => rfl
    | numerator =>
      have hi : a.num ≠ 0 := hi
      have hone : a.num.natAbs = 1 := by
        have hle := not_and.mp h rfl
        omega
      have hgcd : gcdInteger a.num a.num = 1 := by
        rw [gcdInteger_eq, Int.gcd_self, hone]
        rfl
      simp only [IntOperand.get, hgcd, Int.tdiv_one]

/-! ### The class -/

/-- **Rational arithmetic is exact.**  From normalised operands every operation yields a normalised
object of the exact value; a division by zero and a zero denominator throw `bad_rational` and leave
the left operand as it was; and an operand that is the object itself gives what a copy gives.  The one
exception is the division by the object's own numerator. -/
theorem rational_exact_iff (a : Rational) (ha : a.Normalized) :
    (∀ r : Operand, (r.get a).Normalized →
      (a.addAssign r).Represents (a.toRat + (r.get a).toRat) ∧
      (a.subAssign r).Represents (a.toRat - (r.get a).toRat) ∧
      (a.mulAssign r).Represents (a.toRat * (r.get a).toRat) ∧
      ((r.get a).toRat ≠ 0 →
        ∃ q, a.divAssign r = .returns q ∧ q.Represents (a.toRat / (r.get a).toRat)) ∧
      ((r.get a).toRat = 0 → a.divAssign r = .throws zeroDenominator a)) ∧
    (∀ i : IntOperand,
      (a.addAssignInt i).Represents (a.toRat + i.get a) ∧
      (a.subAssignInt i).Represents (a.toRat - i.get a) ∧
      (a.mulAssignInt i).Represents (a.toRat * i.get a) ∧
      (i.get a ≠ 0 → ((∃ q, a.divAssignInt i = .returns q ∧ q.Represents (a.toRat / i.get a)) ↔
        ¬ (i = .numerator ∧ 1 < a.num.natAbs))) ∧
      (i.get a = 0 → a.divAssignInt i = .throws zeroDenominator a)) ∧
    a.increment.Represents (a.toRat + 1) ∧ a.decrement.Represents (a.toRat - 1) ∧
    (∃ q, a.neg = .ok q ∧ q.Represents (-a.toRat)) ∧
    (∃ q, a.abs = .ok q ∧ q.Represents |a.toRat|) ∧
    (∀ n d : ℤ,
      (d ≠ 0 → ∃ q, construct n d = .ok q ∧ a.assign n d = .returns q ∧ q.Represents (n / d)) ∧
      (d = 0 → construct n d = .error zeroDenominator ∧
        a.assign n d = .throws zeroDenominator a)) ∧
    a.addAssign .self = a.addAssign (.other a) ∧ a.subAssign .self = a.subAssign (.other a) ∧
    a.mulAssign .self = a.mulAssign (.other a) ∧ a.divAssign .self = a.divAssign (.other a) := by
  refine ⟨fun r hr => ⟨addAssign_represents ha r hr, subAssign_represents ha r hr,
      mulAssign_represents ha r hr, divAssign_represents ha r hr, divAssign_throws a r hr⟩,
    fun i => ⟨addAssignInt_represents ha i, subAssignInt_represents ha i,
      mulAssignInt_represents ha i, divAssignInt_iff ha, fun hi => if_pos hi⟩,
    increment_represents ha, decrement_represents ha, neg_represents ha, abs_represents ha,
    fun n d => ⟨fun hd => ?_, ?_⟩, rfl, rfl, rfl, rfl⟩
  · obtain ⟨q, hq, hrep⟩ := construct_represents n hd
    exact ⟨q, hq, by rw [assign, hq], hrep⟩
  · rintro rfl
    exact ⟨rfl, rfl⟩

/-- `1/6 += 1/10`, and `5/6 /= -2` and `5/6 /= 6`, its own denominator. -/
theorem rational_exact_iff_sixth :
    (addAssign ⟨1, 6⟩ (.other ⟨1, 10⟩)).Represents (toRat ⟨1, 6⟩ + toRat ⟨1, 10⟩) ∧
      (∃ q, divAssignInt ⟨5, 6⟩ (.value (-2)) = .returns q ∧
        q.Represents (toRat ⟨5, 6⟩ / ((IntOperand.value (-2)).get ⟨5, 6⟩ : ℤ))) ∧
      ∃ q, divAssignInt ⟨5, 6⟩ .denominator = .returns q ∧
        q.Represents (toRat ⟨5, 6⟩ / (IntOperand.denominator.get ⟨5, 6⟩ : ℤ)) :=
  have h := rational_exact_iff ⟨1, 6⟩ ⟨by decide, by decide⟩
  have h' := rational_exact_iff ⟨5, 6⟩ ⟨by decide, by decide⟩
  ⟨(h.1 (.other ⟨1, 10⟩) ⟨by decide, by decide⟩).1,
    ((h'.2.1 (.value (-2))).2.2.2.1 (by decide)).mpr (by decide),
    ((h'.2.1 .denominator).2.2.2.1 (by decide)).mpr (by decide)⟩

/-- `3/2 /= 3`, where the divisor is `numerator()` of the fraction, leaves `1/0`. -/
theorem divAssignInt_own_numerator :
    divAssignInt ⟨3, 2⟩ .numerator = .returns ⟨1, 0⟩ ∧
      ¬ ∃ q, divAssignInt ⟨3, 2⟩ .numerator = .returns q ∧
        q.Represents (toRat ⟨3, 2⟩ / (IntOperand.numerator.get ⟨3, 2⟩ : ℤ)) := by
  have hrun : divAssignInt ⟨3, 2⟩ .numerator = .returns ⟨1, 0⟩ := divAssignInt_numerator (by decide)
  refine ⟨hrun, ?_⟩
  rintro ⟨q, hq, hrep⟩
  rw [hrun] at hq
  cases hq
  exact absurd hrep.den_pos (by decide)

end SourceLibs.Rational
