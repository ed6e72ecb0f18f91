import Mathlib.RingTheory.Int.Basic
import Mathlib.Tactic.Linarith
import SourceLibs.Integer.BinaryGcd
import SourceLibs.Rational.Arithmetic

/-!
# Rational — a type of fixed width

Construction of `rational<IntType>` for a two's complement `IntType` of `W` bits: the division, the
two negations and the greatest common divisor of `normalize` as the words compute them.  From the width of
`int` on, the negation of the least value is undefined (`none`).

* `normalize_reduces`: the two quotients are in lowest terms, whatever the greatest common divisor
  became as a signed word.
* `construct_of_negatable`: construction gives the right fraction, or throws where there is none, unless
  the negation of the numerator wraps.
* `construct_iff`: the same for every width, with the parts that have no negation.
-/

namespace SourceLibs.Rational

open Integer

variable {W : ℕ}

/-! ### The source -/

/-- `rational` with parts of `W` bits. -/
structure Fixed (W : ℕ) where
  num : BitVec W
  den : BitVec W
  deriving DecidableEq, Repr

namespace Fixed

def testInvariant (fuel : ℕ) (r : Fixed W) : Option Bool :=
  if (0 : BitVec W).slt r.den then (gcdOptimal fuel r.num r.den).map (· = 1) else some false

/-- `if (den < zero) { num = -num; den = -den; }`. -/
def positiveDen (r : Fixed W) : Option (Fixed W) :=
  if r.den.slt 0 then do some ⟨← negate r.num, ← negate r.den⟩ else some r

/-- `normalize`; `none` when the loops of the greatest common divisor run out of fuel, or a negation is
undefined. -/
def normalize (fuel : ℕ) (r : Fixed W) : Option (Except Fault (Fixed W)) :=
  if r.den = 0 then some (.error zeroDenominator)
  else if r.num = 0 then some (.ok { r with den := 1 })
  else do
    let g ← gcdOptimal fuel r.num r.den
    let r ← positiveDen ⟨r.num.sdiv g, r.den.sdiv g⟩
    if r.den.slt 0 then
      some (.error (.badRational "bad rational: non-zero singular denominator"))
    else (testInvariant fuel r).map fun ok => if ok then .ok r else .error .assertion

/-- `rational(n, d)`. -/
def construct (fuel : ℕ) (n d : BitVec W) : Option (Except Fault (Fixed W)) :=
  normalize fuel ⟨n, d⟩

end Fixed

/-! ### What construction is for -/

/-- The integers of `W` bits. -/
def InRange (W : ℕ) (x : ℤ) : Prop := -2 ^ (W - 1) ≤ x ∧ x < 2 ^ (W - 1)

/-- The fraction `x / y` in lowest terms, its denominator positive, is `n / d`. -/
structure Reduced (n d x y : ℤ) : Prop where
  den_pos : 0 < y
  gcd_eq : Int.gcd x y = 1
  cross : x * d = n * y

/-- The reduced fraction fits into `W` bits. -/
def Representable (n d : BitVec W) : Prop :=
  ∃ x y : ℤ, Reduced n.toInt d.toInt x y ∧ InRange W x ∧ InRange W y

/-- Construction throws `bad_rational`. -/
def Throws (fuel : ℕ) (n d : BitVec W) : Prop :=
  ∃ what, Fixed.construct fuel n d = some (.error (.badRational what))

/-- Construction throws or holds the reduced fraction, and throws exactly when that does not fit. -/
def NeverWrong (fuel : ℕ) (n d : BitVec W) : Prop :=
  (Throws fuel n d ∨
    ∃ r, Fixed.construct fuel n d = some (.ok r) ∧
      Reduced n.toInt d.toInt r.num.toInt r.den.toInt) ∧
  (Throws fuel n d ↔ ¬ Representable n d)

/-! ### Lowest terms -/

theorem inRange_toInt (x : BitVec W) : InRange W x.toInt := ⟨x.le_toInt, x.toInt_lt⟩

theorem Reduced.unique {n d x y x' y' : ℤ} (hd : d ≠ 0) (h : Reduced n d x y)
    (h' : Reduced n d x' y') : x = x' ∧ y = y' := by
  refine Rat.div_int_inj h.den_pos h'.den_pos h.gcd_eq h'.gcd_eq ?_
  have hy : (y : ℚ) ≠ 0 := Int.cast_ne_zero.mpr h.den_pos.ne'
  have hy' : (y' : ℚ) ≠ 0 := Int.cast_ne_zero.mpr h'.den_pos.ne'
  rw [div_eq_div_iff hy hy']
  have hcross : x * y' * d = x' * y * d := by linear_combination y' * h.cross - y * h'.cross
  exact_mod_cast mul_right_cancel₀ hd hcross

/-- A fraction that differs from `n / d` in both signs only. -/
theorem Reduced.of_neg {n d p q : ℤ} (hq : q < 0) (hg : Int.gcd p q = 1) (hc : p * d = n * q) :
    Reduced n d (-p) (-q) :=
  ⟨by omega, by rw [Int.gcd_neg, Int.neg_gcd]; exact hg, by linear_combination -hc⟩

theorem toInt_sdiv_exact {x g : BitVec W} {p : ℤ} (hg : 0 < g.toInt) (hx : x.toInt = p * g.toInt) :
    (x.sdiv g).toInt = p := by
  have hne : g ≠ -1#W := by
    rintro rfl
    have hone : (-1#W).toInt ≤ 0 := by
      rw [BitVec.neg_one_eq_allOnes, BitVec.toInt_allOnes]
      split <;> decide
    omega
  rw [BitVec.toInt_sdiv_of_ne_or_ne x g (.inr hne), hx, Int.mul_tdiv_cancel _ hg.ne']

/-- A multiple of `2 ^ (W - 1)` among the words that are not zero is the least one. -/
theorem eq_intMin_of_dvd {x : BitVec W} (hW : 0 < W) (hx : x ≠ 0)
    (hdvd : 2 ^ (W - 1) ∣ x.toInt) : x = BitVec.intMin W := by
  have hne : x.toInt ≠ 0 := fun h => hx (BitVec.toInt_inj.mp (by simpa using h))
  rw [← BitVec.toInt_inj, BitVec.toInt_intMin_of_pos hW]
  have hlow := x.le_toInt
  have hhigh := x.toInt_lt
  obtain ⟨k, hk⟩ := hdvd
  have hpow : (0 : ℤ) < 2 ^ (W - 1) := pow_pos (by decide) _
  have hk1 : k < 1 := by
    by_contra hc
    nlinarith
  have hk2 : -1 ≤ k := by
    by_contra hc
    nlinarith
  have hk3 : k ≠ 0 := by
    rintro rfl
    exact hne (by rw [hk, mul_zero])
  have hk4 : k = -1 := by omega
  rw [hk, hk4, mul_neg_one]

/-- **The quotients** of `normalize` are in lowest terms, also where the greatest common divisor
does not fit into a signed word. -/
theorem normalize_reduces {n d : BitVec W} (hW : 1 < W) (hn : n ≠ 0) (hd : d ≠ 0)
    (hn' : Negatable n) (hd' : Negatable d) {fuel : ℕ} (hfuel : 2 ^ W < fuel) :
    ∃ g, gcdOptimal fuel n d = some g ∧ Int.gcd (n.sdiv g).toInt (d.sdiv g).toInt = 1 ∧
      (n.sdiv g).toInt * d.toInt = n.toInt * (d.sdiv g).toInt := by
  obtain ⟨g, hrun, hg⟩ := gcdOptimal_spec hn' hd' fuel (by omega) hfuel
  have hnInt : n.toInt ≠ 0 := fun h => hn (BitVec.toInt_inj.mp (by simpa using h))
  have hpos : 0 < Int.gcd n.toInt d.toInt := Int.gcd_pos_iff.mpr (.inl hnInt)
  refine ⟨g, hrun, ?_⟩
  by_cases hsmall : 2 * g.toNat < 2 ^ W
  · have hgInt : g.toInt = Int.gcd n.toInt d.toInt := by
      rw [BitVec.toInt_eq_toNat_of_lt hsmall, hg]
    obtain ⟨p, q, hpq, hp, hq⟩ := Int.exists_gcd_one hpos
    rw [← hgInt] at hp hq
    have hgpos : 0 < g.toInt := by omega
    rw [toInt_sdiv_exact hgpos hp, toInt_sdiv_exact hgpos hq]
    exact ⟨hpq, by rw [hp, hq]; ring⟩
  · -- both parts are the least value, and so is their greatest common divisor
    have hle : Int.gcd n.toInt d.toInt ≤ 2 ^ (W - 1) :=
      le_trans (Nat.gcd_le_left _ (Int.natAbs_pos.mpr hnInt)) (natAbs_toInt_le n)
    have hpow : 2 ^ W = 2 * 2 ^ (W - 1) := by
      rw [← pow_succ', Nat.sub_add_cancel (by omega)]
    have hG : ((2 ^ (W - 1) : ℤ)) = Int.gcd n.toInt d.toInt := by
      have heq : 2 ^ (W - 1) = Int.gcd n.toInt d.toInt := by omega
      rw [← heq]
      push_cast
      rfl
    have hnMin : n = BitVec.intMin W :=
      eq_intMin_of_dvd (by omega) hn (hG ▸ Int.gcd_dvd_left ..)
    have hdMin : d = BitVec.intMin W :=
      eq_intMin_of_dvd (by omega) hd (hG ▸ Int.gcd_dvd_right ..)
    have hgMin : g = BitVec.intMin W := by
      refine BitVec.eq_of_toNat_eq ?_
      rw [BitVec.toNat_intMin, Nat.mod_eq_of_lt (Nat.pow_lt_pow_right (by omega) (by omega))]
      omega
    have hone : ((BitVec.intMin W).sdiv (BitVec.intMin W)).toInt = 1 := by
      have hne : BitVec.intMin W ≠ -1#W := by
        intro h
        have hInt := congrArg BitVec.toInt h
        rw [BitVec.toInt_intMin_of_pos (by omega), BitVec.neg_one_eq_allOnes,
          BitVec.toInt_allOnes, if_pos (by omega)] at hInt
        have htwo : (2 : ℤ) ^ 1 ≤ 2 ^ (W - 1) := pow_le_pow_right₀ (by omega) (by omega)
        omega
      rw [BitVec.toInt_sdiv_of_ne_or_ne _ _ (.inr hne), Int.tdiv_self]
      rw [BitVec.toInt_intMin_of_pos (by omega)]
      have hp : (0 : ℤ) < 2 ^ (W - 1) := pow_pos (by decide) _
      omega
    subst hnMin hdMin hgMin
    rw [hone]
    exact ⟨rfl, by ring⟩

/-! ### Construction -/

/-- The condition: the numerator that is left is the least value and has to change its sign. -/
theorem intMin_left_iff {n d p q : BitVec W} (hW : 1 < W) (hn : n ≠ 0) (hd : d.toInt ≠ 0)
    (hg : Int.gcd p.toInt q.toInt = 1) (hc : p.toInt * d.toInt = n.toInt * q.toInt) :
    p = BitVec.intMin W ∧ q.toInt < 0 ↔
      n = BitVec.intMin W ∧ d.toInt < 0 ∧ d.toInt % 2 = 1 := by
  have hmin : (BitVec.intMin W).toInt = -2 ^ (W - 1) := BitVec.toInt_intMin_of_pos (by omega)
  have hpos : (0 : ℤ) < 2 ^ (W - 1) := pow_pos (by decide) _
  have htwo : (2 : ℤ) ∣ 2 ^ (W - 1) := dvd_pow_self 2 (by omega)
  constructor
  · rintro ⟨rfl, hq⟩
    rw [hmin] at hg hc
    have hdvd : (2 : ℤ) ^ (W - 1) ∣ n.toInt := by
      have hmul : (2 : ℤ) ^ (W - 1) ∣ n.toInt * q.toInt := ⟨-d.toInt, by rw [← hc]; ring⟩
      refine (Int.isCoprime_iff_gcd_eq_one.mpr ?_).dvd_of_dvd_mul_right hmul
      rw [← Int.neg_gcd]
      exact hg
    have hnMin := eq_intMin_of_dvd (by omega) hn hdvd
    rw [hnMin, hmin] at hc
    have heq : d.toInt = q.toInt := mul_left_cancel₀ (neg_ne_zero.mpr hpos.ne') hc
    refine ⟨hnMin, by omega, ?_⟩
    by_contra hodd
    have hdvdGcd : (2 : ℤ) ∣ Int.gcd (-2 ^ (W - 1)) q.toInt :=
      Int.dvd_coe_gcd ((Int.dvd_neg).mpr htwo) (by omega)
    rw [hg] at hdvdGcd
    omega
  · rintro ⟨hnMin, hneg, hodd⟩
    rw [hnMin, hmin] at hc
    have hcop : IsCoprime d.toInt (2 ^ (W - 1)) :=
      (Int.isCoprime_two_right.mpr (Int.odd_iff.mpr hodd)).pow_right
    have hdq : d.toInt ∣ q.toInt :=
      hcop.dvd_of_dvd_mul_left ⟨-p.toInt, by linear_combination hc⟩
    have hqd : q.toInt ∣ d.toInt :=
      (Int.isCoprime_iff_gcd_eq_one.mpr hg).symm.dvd_of_dvd_mul_left
        ⟨-2 ^ (W - 1), by linear_combination hc⟩
    rcases Int.natAbs_eq_natAbs_iff.mp (Int.natAbs_eq_of_dvd_dvd hdq hqd) with heq | heq
    · refine ⟨BitVec.toInt_inj.mp ?_, by omega⟩
      rw [hmin]
      exact mul_right_cancel₀ hd (by rw [hc, heq])
    · have hp : p.toInt = 2 ^ (W - 1) :=
        mul_right_cancel₀ hd (by rw [hc, heq]; ring)
      exact absurd p.toInt_lt (by omega)

theorem slt_zero_iff (x : BitVec W) : x.slt 0 = true ↔ x.toInt < 0 := by
  simp [BitVec.slt]

theorem zero_slt_iff (x : BitVec W) : (0 : BitVec W).slt x = true ↔ 0 < x.toInt := by
  simp [BitVec.slt]

theorem testInvariant_eq {r : Fixed W} (hW : 1 < W) (hn : Negatable r.num) (hd : Negatable r.den)
    (hden : 0 < r.den.toInt) (hg : Int.gcd r.num.toInt r.den.toInt = 1) {fuel : ℕ}
    (hfuel : 2 ^ W < fuel) : r.testInvariant fuel = some true := by
  obtain ⟨g, hrun, hgcd⟩ := gcdOptimal_spec hn hd fuel (by omega) hfuel
  have hone : g = 1 := by
    refine BitVec.eq_of_toNat_eq ?_
    rw [hgcd, hg]
    simp [Nat.mod_eq_of_lt (Nat.one_lt_two_pow (n := W) (by omega))]
  rw [Fixed.testInvariant, if_pos ((zero_slt_iff _).mpr hden), hrun, Option.map_some, hone]
  simp

/-- Negation keeps the magnitude, also where it wraps. -/
theorem natAbs_toInt_neg (x : BitVec W) : (-x).toInt.natAbs = x.toInt.natAbs := by
  rw [BitVec.toInt_neg_eq_ite]
  split
  · rfl
  · exact Int.natAbs_neg _

/-- What divides a part that has a negation has one too. -/
theorem negatable_of_dvd {p n : BitVec W} (h : Negatable n) (hn : n ≠ 0)
    (hp : p.toInt ∣ n.toInt) : Negatable p := by
  rintro ⟨hw, rfl⟩
  rw [BitVec.toInt_intMin_of_pos (by omega), Int.neg_dvd] at hp
  exact h ⟨hw, eq_intMin_of_dvd (by omega) hn hp⟩

theorem negatable_neg {p : BitVec W} (h : Negatable p) : Negatable (-p) := by
  rintro ⟨hw, hp⟩
  exact h ⟨hw, by rw [← neg_neg p, hp, BitVec.neg_intMin]⟩

/-- **The end of `normalize`**, on two quotients in lowest terms. -/
theorem construct_eq {n d : BitVec W} (hW : 1 < W) (hn : n ≠ 0) (hd : d ≠ 0) (hn' : Negatable n)
    (hd' : Negatable d) {fuel : ℕ} (hfuel : 2 ^ W < fuel) :
    ∃ p q : BitVec W, Int.gcd p.toInt q.toInt = 1 ∧ p.toInt * d.toInt = n.toInt * q.toInt ∧
      q.toInt ≠ 0 ∧
      (0 < q.toInt → Fixed.construct fuel n d = some (.ok ⟨p, q⟩)) ∧
      (q.toInt < 0 → q ≠ BitVec.intMin W → Fixed.construct fuel n d = some (.ok ⟨-p, -q⟩)) ∧
      (q = BitVec.intMin W → Throws fuel n d) := by
  obtain ⟨g, hrun, hg, hc⟩ := normalize_reduces hW hn hd hn' hd' hfuel
  have hdInt : d.toInt ≠ 0 := fun h => hd (BitVec.toInt_inj.mp (by simpa using h))
  have hcop := Int.isCoprime_iff_gcd_eq_one.mpr hg
  -- each quotient divides the part it comes from
  have hp : Negatable (n.sdiv g) :=
    negatable_of_dvd hn' hn (hcop.dvd_of_dvd_mul_right (hc ▸ dvd_mul_right ..))
  have hq : Negatable (d.sdiv g) :=
    negatable_of_dvd hd' hd (hcop.symm.dvd_of_dvd_mul_left (hc ▸ dvd_mul_left ..))
  have hunfold : Fixed.construct fuel n d =
      (Fixed.positiveDen ⟨n.sdiv g, d.sdiv g⟩).bind fun r =>
        if r.den.slt 0 then
          some (.error (.badRational "bad rational: non-zero singular denominator"))
        else (r.testInvariant fuel).map fun ok => if ok then .ok r else .error .assertion := by
    rw [Fixed.construct, Fixed.normalize, if_neg hd, if_neg hn, hrun]
    rfl
  have hflip : (d.sdiv g).toInt < 0 →
      Fixed.positiveDen ⟨n.sdiv g, d.sdiv g⟩ = some ⟨-n.sdiv g, -d.sdiv g⟩ := by
    intro hneg
    rw [Fixed.positiveDen, if_pos ((slt_zero_iff _).mpr hneg), negate_eq hp, negate_eq hq]
    rfl
  refine ⟨n.sdiv g, d.sdiv g, hg, hc, ?_, ?_, ?_, ?_⟩
  · intro hz
    rw [hz, mul_zero] at hc
    rw [hz, (mul_eq_zero.mp hc).resolve_right hdInt] at hg
    exact absurd hg (by decide)
  · intro hpos
    have hslt : ¬ (d.sdiv g).slt 0 = true := by
      rw [slt_zero_iff]
      omega
    have hkeep : Fixed.positiveDen ⟨n.sdiv g, d.sdiv g⟩ = some ⟨n.sdiv g, d.sdiv g⟩ := if_neg hslt
    rw [hunfold, hkeep, Option.bind_some, if_neg hslt,
      testInvariant_eq (r := ⟨n.sdiv g, d.sdiv g⟩) hW hp hq hpos hg hfuel]
    rfl
  · intro hneg hne
    have hq' : 0 < (-d.sdiv g).toInt := by
      rw [BitVec.toInt_neg_of_ne_intMin hne]
      omega
    have hg' : Int.gcd (-n.sdiv g).toInt (-d.sdiv g).toInt = 1 := by
      rw [Int.gcd, natAbs_toInt_neg, natAbs_toInt_neg]
      exact hg
    have hslt : ¬ (-d.sdiv g).slt 0 = true := by
      rw [slt_zero_iff]
      omega
    rw [hunfold, hflip hneg, Option.bind_some, if_neg hslt,
      testInvariant_eq (r := ⟨-n.sdiv g, -d.sdiv g⟩) hW (negatable_neg hp) (negatable_neg hq) hq'
        hg' hfuel]
    rfl
  · intro hmin
    have hneg : (BitVec.intMin W).toInt < 0 := by
      have hpos : (0 : ℤ) < 2 ^ (W - 1) := pow_pos (by decide) _
      rw [BitVec.toInt_intMin_of_pos (by omega)]
      omega
    refine ⟨"bad rational: non-zero singular denominator", ?_⟩
    rw [hunfold, hflip (hmin ▸ hneg), Option.bind_some, hmin, BitVec.neg_intMin]
    exact if_pos ((slt_zero_iff _).mpr hneg)

theorem neverWrong_zero {d : BitVec W} (hW : 1 < W) (hd : d ≠ 0) (fuel : ℕ) :
    NeverWrong fuel 0 d := by
  have hrun : Fixed.construct fuel 0 d = some (.ok ⟨0, 1⟩) := by
    rw [Fixed.construct, Fixed.normalize, if_neg hd, if_pos rfl]
  have hone : (1 : BitVec W).toInt = 1 := BitVec.toInt_one hW
  have hred : Reduced (0 : BitVec W).toInt d.toInt (0 : BitVec W).toInt (1 : BitVec W).toInt := by
    rw [hone]
    exact ⟨by omega, by simp, by simp⟩
  refine ⟨.inr ⟨_, hrun, hred⟩, fun ⟨what, h⟩ => ?_, fun h => ?_⟩
  · rw [hrun] at h
    cases h
  · exact absurd ⟨_, _, hred, inRange_toInt _, inRange_toInt _⟩ h

theorem neverWrong_of_ok {n d : BitVec W} {fuel : ℕ} {r : Fixed W}
    (hrun : Fixed.construct fuel n d = some (.ok r))
    (hred : Reduced n.toInt d.toInt r.num.toInt r.den.toInt) : NeverWrong fuel n d := by
  refine ⟨.inr ⟨r, hrun, hred⟩, fun ⟨what, h⟩ => ?_, fun h => ?_⟩
  · rw [hrun] at h
    cases h
  · exact absurd ⟨_, _, hred, inRange_toInt _, inRange_toInt _⟩ h

/-- **With negations that are defined**: `rational(n, d)` holds the reduced fraction, or throws exactly
when that does not fit, unless `n` is the least value and `d` is negative and odd. -/
theorem construct_of_negatable {n d : BitVec W} (hW : 1 < W) (hd : d ≠ 0) (hn' : Negatable n)
    (hd' : Negatable d) {fuel : ℕ} (hfuel : 2 ^ W < fuel) :
    NeverWrong fuel n d ↔ ¬ (n = BitVec.intMin W ∧ d.toInt < 0 ∧ d.toInt % 2 = 1) := by
  have hdInt : d.toInt ≠ 0 := fun h => hd (BitVec.toInt_inj.mp (by simpa using h))
  have hmin : (BitVec.intMin W).toInt = -2 ^ (W - 1) := BitVec.toInt_intMin_of_pos (by omega)
  have hpos : (0 : ℤ) < 2 ^ (W - 1) := pow_pos (by decide) _
  by_cases hn : n = 0
  · subst hn
    refine iff_of_true (neverWrong_zero hW hd fuel) fun ⟨h, _⟩ => ?_
    have hInt := congrArg BitVec.toInt h
    rw [hmin, BitVec.ofNat_eq_ofNat, BitVec.toInt_zero] at hInt
    omega
  · obtain ⟨p, q, hg, hc, hq, hplus, hminus, hleast⟩ := construct_eq hW hn hd hn' hd' hfuel
    rw [← intMin_left_iff hW hn hdInt hg hc]
    by_cases hqpos : 0 < q.toInt
    · exact iff_of_true (neverWrong_of_ok (hplus hqpos) ⟨hqpos, hg, hc⟩) (by omega)
    · have hqneg : q.toInt < 0 := by omega
      have hunique : ∀ {x y}, Reduced n.toInt d.toInt x y → -p.toInt = x ∧ -q.toInt = y :=
        Reduced.unique hdInt (Reduced.of_neg hqneg hg hc)
      by_cases hqmin : q = BitVec.intMin W
      · -- neither the denominator fits nor does the code let it pass
        have hunrep : ¬ Representable n d := by
          rintro ⟨x, y, hred, -, hy⟩
          have hy' := hy.2
          rw [← (hunique hred).2, hqmin, hmin, neg_neg] at hy'
          exact lt_irrefl _ hy'
        refine iff_of_true ⟨.inl (hleast hqmin), fun _ => hunrep, fun _ => hleast hqmin⟩ ?_
        rintro ⟨rfl, -⟩
        rw [hqmin, hmin] at hg
        have htwo : (2 : ℤ) ∣ Int.gcd (-2 ^ (W - 1)) (-2 ^ (W - 1)) :=
          Int.dvd_coe_gcd (Int.dvd_neg.mpr (dvd_pow_self 2 (by omega)))
            (Int.dvd_neg.mpr (dvd_pow_self 2 (by omega)))
        rw [hg] at htwo
        omega
      · have hrun := hminus hqneg hqmin
        have hden : (-q).toInt = -q.toInt := BitVec.toInt_neg_of_ne_intMin hqmin
        by_cases hpmin : p = BitVec.intMin W
        · -- the numerator does not fit, and its negation wraps
          refine iff_of_false ?_ (not_not.mpr ⟨hpmin, hqneg⟩)
          rintro ⟨-, hthrows⟩
          have hunrep : ¬ Representable n d := by
            rintro ⟨x, y, hred, hx, -⟩
            have hx' := hx.2
            rw [← (hunique hred).1, hpmin, hmin, neg_neg] at hx'
            exact lt_irrefl _ hx'
          obtain ⟨what, h⟩ := hthrows.mpr hunrep
          rw [hrun] at h
          cases h
        · refine iff_of_true (neverWrong_of_ok hrun ?_) (fun h => hpmin h.1)
          rw [hden, BitVec.toInt_neg_of_ne_intMin hpmin]
          exact Reduced.of_neg hqneg hg hc

/-- **When construction is right.**  In a type narrower than `int`: unless `n` is the least value and `d`
is negative and odd.  From `int` on: if `n` is zero, or neither part is the least value. -/
theorem construct_iff {n d : BitVec W} (hW : 1 < W) (hd : d ≠ 0) {fuel : ℕ} (hfuel : 2 ^ W < fuel) :
    NeverWrong fuel n d ↔
      if W < 32 then ¬ (n = BitVec.intMin W ∧ d.toInt < 0 ∧ d.toInt % 2 = 1)
      else n = 0 ∨ (n ≠ BitVec.intMin W ∧ d ≠ BitVec.intMin W) := by
  by_cases hn : n = 0
  · subst hn
    refine iff_of_true (neverWrong_zero hW hd fuel) ?_
    split
    · rintro ⟨h, -⟩
      exact absurd h.symm (by simp [show W ≠ 0 by omega])
    · exact .inl rfl
  split
  case isTrue hnarrow =>
    have hneg : ∀ x : BitVec W, Negatable x := fun x h => by omega
    exact construct_of_negatable hW hd (hneg n) (hneg d) hfuel
  case isFalse hwide =>
    have hneg : ∀ x : BitVec W, Negatable x ↔ x ≠ BitVec.intMin W := fun x =>
      ⟨fun h hx => h ⟨by omega, hx⟩, fun h hx => h hx.2⟩
    rw [or_iff_right hn, ← hneg, ← hneg]
    refine ⟨fun h => ?_, fun h => ?_⟩
    · -- the greatest common divisor is taken of both parts
      by_contra hnot
      have hnone : Fixed.construct fuel n d = none := by
        rw [Fixed.construct, Fixed.normalize, if_neg hd, if_neg hn, gcdOptimal_eq_none hnot]
        rfl
      rcases h.1 with ⟨what, hthrow⟩ | ⟨r, hr, -⟩
      · rw [hnone] at hthrow
        cases hthrow
      · rw [hnone] at hr
        cases hr
    · exact (construct_of_negatable hW hd h.1 h.2 hfuel).mpr fun hmin => (hneg n).mp h.1 hmin.1

theorem construct_iff_six : NeverWrong 257 6#8 (-4#8) ∧ NeverWrong (2 ^ 32 + 1) 6#32 (-4#32) :=
  ⟨(construct_iff (by decide) (by decide) (by decide)).mpr (by decide),
    (construct_iff (by decide) (by decide) (by decide)).mpr (by decide)⟩

/-- `rational<signed char>(-128, -1)` is `-128 / 1`; `rational<int>(1, INT_MIN)` negates `INT_MIN`. -/
theorem construct_wrong : ¬ NeverWrong 257 (-128#8) (-1#8) ∧
    Fixed.construct 257 (-128#8) (-1#8) = some (.ok ⟨-128#8, 1#8⟩) ∧
    Fixed.construct 257 (1#32) (BitVec.intMin 32) = none := by
  have hrun : Fixed.construct 257 (-128#8) (-1#8) = some (.ok ⟨-128#8, 1#8⟩) := by decide +kernel
  refine ⟨?_, hrun, by decide⟩
  rintro ⟨hthrows | ⟨r, hr, hred⟩, -⟩
  · obtain ⟨what, h⟩ := hthrows
    rw [hrun] at h
    cases h
  · rw [hrun] at hr
    cases hr
    exact absurd hred.cross (by decide)

end SourceLibs.Rational
