import SourceLibs.Rational.FixedWidth

/-!
# Rational — the order

The comparisons of `rational<IntType>` for an `IntType` of `W` bits. A value that an operation
yields is checked against the type: a run that leaves the range of the type is `none`, as are a
failed assertion and a loop that runs out of fuel.

* `walk_spec`: two expansions in lock step decide the order of the fractions, or the reversed order
  after an odd number of steps.
* `lessThan_exact`: the operators agree with the order of the integers after multiplication.
-/

namespace SourceLibs.Rational
open Option Int

instance (W : ℕ) (x : ℤ) : Decidable (InRange W x) := inferInstanceAs (Decidable (_ ∧ _))

/-! ### The source -/

/-- A value of the type, if it is in range. -/
def checked (W : ℕ) (x : ℤ) : Option ℤ := if InRange W x then some x else none

/-- One fraction of `operator<`: numerator, denominator, quotient and remainder. -/
structure Expansion where
  n : ℤ
  d : ℤ
  q : ℤ
  r : ℤ
  deriving DecidableEq, Repr

/-- A numerator and a denominator with `n / d` and `n % d`. -/
def expand (W : ℕ) (n d : ℤ) : Option Expansion :=
  (checked W (n.tdiv d)).bind fun q => (checked W (n.tmod d)).map fun r => ⟨n, d, q, r⟩

/-- `while ( ts.r < zero )  { ts.r += ts.d; --ts.q; }`. -/
def raise (W : ℕ) : ℕ → Expansion → Option Expansion
  | 0, _ => none
  | fuel + 1, e =>
    if e.r < 0 then
      (checked W (e.r + e.d)).bind fun r => (checked W (e.q - 1)).bind fun q =>
        raise W fuel ⟨e.n, e.d, q, r⟩
    else some e

/-- The loop of `operator<` and the comparison after it. -/
def walk (W : ℕ) : ℕ → Expansion → Expansion → Bool → Option Bool
  | 0, _, _, _ => none
  | fuel + 1, ts, rs, reverse =>
    if ts.q ≠ rs.q then some (if reverse then ts.q > rs.q else ts.q < rs.q)
    else
      let reverse := !reverse
      if ts.r = 0 ∨ rs.r = 0 then
        some (if ts.r = rs.r then false else (decide (ts.r ≠ 0)) != reverse)
      else
        (expand W ts.d ts.r).bind fun ts => (expand W rs.d rs.r).bind fun rs =>
          walk W fuel ts rs reverse

/-- `operator<` with a rational. -/
def lessThan (W fuel : ℕ) (this r : Rational) : Option Bool :=
  if 0 < this.den ∧ 0 < r.den then
    (expand W this.num this.den).bind fun ts => (expand W r.num r.den).bind fun rs =>
      (raise W fuel ts).bind fun ts => (raise W fuel rs).bind fun rs => walk W fuel ts rs false
  else none

/-- `operator<` with an integer. -/
def lessThanInt (W fuel : ℕ) (this : Rational) (i : ℤ) : Option Bool :=
  if 0 < this.den then
    (expand W this.num this.den).bind fun e => (raise W fuel e).map fun e => e.q < i
  else none

/-- `operator==` with an integer. -/
def equalsInt (this : Rational) (i : ℤ) : Bool := this.den = 1 && this.num = i

/-- `operator>` with an integer. -/
def greaterThanInt (W fuel : ℕ) (this : Rational) (i : ℤ) : Option Bool :=
  if equalsInt this i then some false else (lessThanInt W fuel this i).map (!·)

/-! ### One expansion -/

variable {W : ℕ}

theorem checked_eq {x : ℤ} (h : InRange W x) : checked W x = some x := if_pos h

/-- The quotient is the floor, the remainder not negative, and the parts are in range. -/
structure Expansion.Valid (W : ℕ) (e : Expansion) : Prop where
  split : e.n = e.q * e.d + e.r
  rem_nonneg : 0 ≤ e.r
  rem_lt : e.r < e.d
  den_range : InRange W e.d

theorem InRange.between {x y z : ℤ} (hx : InRange W x) (hz : InRange W z) (h₁ : x ≤ y)
    (h₂ : y ≤ z) : InRange W y :=
  ⟨hx.1.trans h₁, lt_of_le_of_lt h₂ hz.2⟩

theorem inRange_zero : InRange W 0 :=
  have hpos : (0 : ℤ) < 2 ^ (W - 1) := pow_pos (by decide) _
  ⟨by omega, hpos⟩

theorem Expansion.Valid.den_pos {e : Expansion} (h : e.Valid W) : 0 < e.d :=
  lt_of_le_of_lt h.rem_nonneg h.rem_lt

/-- A numerator that is not negative needs no correction. -/
theorem expand_nonneg {n d : ℤ} (hn : 0 ≤ n) (hd : 0 < d) (hnr : InRange W n)
    (hdr : InRange W d) :
    ∃ e, expand W n d = some e ∧ e.Valid W ∧ e.n = n ∧ e.d = d := by
  have hq : InRange W (n.tdiv d) :=
    inRange_zero.between hnr (Int.tdiv_nonneg hn hd.le) (tdiv_le_self _ hn)
  have hrem : n.tmod d < d := tmod_lt_of_pos n hd
  have hr : InRange W (n.tmod d) :=
    inRange_zero.between hdr (tmod_nonneg _ hn) hrem.le
  refine ⟨⟨n, d, n.tdiv d, n.tmod d⟩, ?_, ⟨?_, tmod_nonneg _ hn, hrem, hdr⟩, rfl, rfl⟩
  · rw [expand, checked_eq hq, checked_eq hr]
    rfl
  · exact (tdiv_mul_add_tmod n d).symm

/-- **The first cycle**: at most one denominator is added to the remainder, and the quotient is then
the floor; neither leaves the range, whatever the numerator. -/
theorem start_valid {n d : ℤ} (hd : 0 < d) (hnr : InRange W n) (hdr : InRange W d) {fuel : ℕ}
    (hfuel : 1 < fuel) :
    ∃ e₀ e, expand W n d = some e₀ ∧ raise W fuel e₀ = some e ∧ e.Valid W ∧ e.n = n ∧ e.d = d := by
  obtain ⟨fuel, rfl⟩ : ∃ m, fuel = m + 2 := ⟨fuel - 2, by omega⟩
  by_cases hn : 0 ≤ n
  · obtain ⟨e, hrun, hv, hen, hed⟩ := expand_nonneg hn hd hnr hdr
    exact ⟨e, e, hrun, if_neg (by have := hv.rem_nonneg; omega), hv, hen, hed⟩
  · have hsplit := tdiv_mul_add_tmod n d
    have hrem : -d < n.tmod d := lt_tmod_of_pos n hd
    have hrem0 : n.tmod d ≤ 0 := by
      have hflip := tmod_nonneg d (show 0 ≤ -n by omega)
      rw [neg_tmod] at hflip
      omega
    have hq0 : n.tdiv d ≤ 0 := by
      by_contra hc
      nlinarith
    have hqn : n ≤ n.tdiv d := by nlinarith
    have hq : InRange W (n.tdiv d) := hnr.between inRange_zero hqn hq0
    have hr : InRange W (n.tmod d) := by
      refine ⟨?_, lt_of_le_of_lt hrem0 inRange_zero.2⟩
      have hdr' := hdr.2
      omega
    refine ⟨⟨n, d, n.tdiv d, n.tmod d⟩, ?_⟩
    have hrun : expand W n d = some ⟨n, d, n.tdiv d, n.tmod d⟩ := by
      rw [expand, checked_eq hq, checked_eq hr]
      rfl
    by_cases hneg : n.tmod d < 0
    · have hq1 : n ≤ n.tdiv d - 1 := by
        by_contra hc
        have heq : n.tdiv d = n := by omega
        rw [heq] at hsplit
        nlinarith
      have hq' : InRange W (n.tdiv d - 1) := hnr.between inRange_zero hq1 (by omega)
      have hr' : InRange W (n.tmod d + d) :=
        inRange_zero.between hdr (by omega) (by omega)
      refine ⟨⟨n, d, n.tdiv d - 1, n.tmod d + d⟩, hrun, ?_, ⟨?_, ?_, ?_, hdr⟩, rfl, rfl⟩
      · rw [raise, if_pos hneg, checked_eq hr', bind_some, checked_eq hq', bind_some,
          raise, if_neg (by simp only; omega)]
      · simp only
        linear_combination -hsplit
      · simp only
        omega
      · simp only
        omega
    · refine ⟨_, hrun, if_neg hneg, ⟨hsplit.symm, ?_, ?_, hdr⟩, rfl, rfl⟩
      · simp only
        omega
      · simp only
        omega

/-! ### Two expansions in lock step -/

/-- The order of the two fractions, by the products across. -/
def Expansion.Before (ts rs : Expansion) : Prop := ts.n * rs.d < rs.n * ts.d

instance (ts rs : Expansion) : Decidable (ts.Before rs) := inferInstanceAs (Decidable (_ < _))

theorem before_of_floor {ts rs : Expansion} (ht : ts.Valid W) (hr : rs.Valid W)
    (h : ts.q < rs.q) : ts.Before rs ∧ ¬ rs.Before ts := by
  have htd := ht.den_pos
  have hrd := hr.den_pos
  have hlow : ts.n < (ts.q + 1) * ts.d := by
    have hrem := ht.rem_lt
    rw [ht.split]
    linarith
  have hhigh : rs.q * rs.d ≤ rs.n := by
    have hrem := hr.rem_nonneg
    rw [hr.split]
    linarith
  have hlt : ts.n * rs.d < rs.n * ts.d :=
    calc ts.n * rs.d < (ts.q + 1) * ts.d * rs.d := mul_lt_mul_of_pos_right hlow hrd
      _ ≤ rs.q * ts.d * rs.d := by
          exact mul_le_mul_of_nonneg_right (mul_le_mul_of_nonneg_right (by omega) htd.le) hrd.le
      _ = rs.q * rs.d * ts.d := by ring
      _ ≤ rs.n * ts.d := mul_le_mul_of_nonneg_right hhigh htd.le
  exact ⟨hlt, fun hc => absurd hc (not_lt.mpr hlt.le)⟩

/-- With equal floors the remainders decide. -/
theorem before_iff_rem {ts rs : Expansion} (ht : ts.Valid W) (hr : rs.Valid W)
    (h : ts.q = rs.q) : ts.Before rs ↔ ts.r * rs.d < rs.r * ts.d := by
  have hdiff : ts.n * rs.d - rs.n * ts.d = ts.r * rs.d - rs.r * ts.d := by
    rw [ht.split, hr.split, h]
    ring
  rw [Expansion.Before]
  constructor <;> intro hlt <;> linarith

/-- **The loop** decides the order of the two fractions, the reversed one when the flag is set: a
common step takes reciprocals of the two remainders, and the remainder gets smaller. -/
theorem walk_spec (fuel : ℕ) (ts rs : Expansion) (reverse : Bool) (ht : ts.Valid W)
    (hr : rs.Valid W) (hfuel : ts.r.toNat < fuel) :
    walk W fuel ts rs reverse =
      some (if reverse then decide (rs.Before ts) else decide (ts.Before rs)) := by
  induction fuel generalizing ts rs reverse with
  | zero => omega
  | succ fuel ih =>
    rw [walk]
    by_cases hq : ts.q = rs.q
    · have htr := ht.rem_nonneg
      have hrr := hr.rem_nonneg
      have htd := ht.den_pos
      have hrd := hr.den_pos
      rw [if_neg (not_not.mpr hq)]
      simp only [before_iff_rem ht hr hq, before_iff_rem hr ht hq.symm]
      by_cases hend : ts.r = 0 ∨ rs.r = 0
      · rw [if_pos hend]
        congr 1
        rcases eq_or_ne ts.r 0 with ht0 | ht0
        · rcases eq_or_ne rs.r 0 with hr0 | hr0
          · simp [ht0, hr0]
          · have hpos : 0 < rs.r := by omega
            have hprod : 0 < rs.r * ts.d := mul_pos hpos htd
            cases reverse <;> simp [ht0, hr0.symm, hprod, hprod.le]
        · have hr0 : rs.r = 0 := hend.resolve_left ht0
          have hpos : 0 < ts.r := by omega
          have hprod : 0 < ts.r * rs.d := mul_pos hpos hrd
          cases reverse <;> simp [ht0, hr0, hprod, hprod.le]
      · rw [if_neg hend]
        have htpos : 0 < ts.r := by omega
        have hrpos : 0 < rs.r := by omega
        obtain ⟨ts', htrun, htv, htn, htd'⟩ := expand_nonneg htd.le htpos ht.den_range
          (inRange_zero.between ht.den_range htr ht.rem_lt.le)
        obtain ⟨rs', hrrun, hrv, hrn, hrd'⟩ := expand_nonneg hrd.le hrpos hr.den_range
          (inRange_zero.between hr.den_range hrr hr.rem_lt.le)
        have hlt := htv.rem_lt
        rw [htrun, bind_some, hrrun, bind_some,
          ih ts' rs' (!reverse) htv hrv (by omega)]
        simp only [Expansion.Before, htn, htd', hrn, hrd', mul_comm rs.d, mul_comm ts.d]
        cases reverse <;> rfl
    · rw [if_pos hq]
      rcases lt_or_gt_of_ne hq with hlt | hlt
      · obtain ⟨h₁, h₂⟩ := before_of_floor ht hr hlt
        cases reverse <;> simp [h₁, h₂, hlt, hlt.le]
      · obtain ⟨h₁, h₂⟩ := before_of_floor hr ht hlt
        cases reverse <;> simp [h₁, h₂, hlt, hlt.le]

/-! ### The operators -/

theorem lessThanInt_eq {a : Rational} (i : ℤ) (hden : 0 < a.den) (hnr : InRange W a.num)
    (hdr : InRange W a.den) {fuel : ℕ} (hfuel : a.den.toNat < fuel) :
    lessThanInt W fuel a i = some (decide (a.num < i * a.den)) := by
  obtain ⟨e₀, e, hrun, hraise, hv, hen, hed⟩ := start_valid hden hnr hdr (show 1 < fuel by omega)
  rw [lessThanInt, if_pos hden, hrun, bind_some, hraise, map_some]
  congr 1
  rw [decide_eq_decide, ← hen, ← hed, hv.split]
  have hd := hv.den_pos
  have hlow := hv.rem_nonneg
  have hhigh := hv.rem_lt
  constructor
  · intro hlt
    nlinarith
  · intro hlt
    by_contra hc
    nlinarith

theorem equalsInt_iff {a : Rational} (i : ℤ) (ha : 0 < a.den) (hg : Int.gcd a.num a.den = 1) :
    equalsInt a i = true ↔ a.num = i * a.den := by
  rw [equalsInt, Bool.and_eq_true, decide_eq_true_eq, decide_eq_true_eq]
  constructor
  · rintro ⟨hone, hnum⟩
    rw [hone, hnum, mul_one]
  · intro hnum
    have hden : a.den = 1 := by
      rw [hnum, Int.gcd_mul_left_left] at hg
      omega
    exact ⟨hden, by rw [hnum, hden, mul_one]⟩

/-- **The comparisons are exact** in every width and for every numerator of the type: they return,
no quotient and no remainder leaves the range, and the answer is the one over the integers.  The
comparison `>` with an integer asks for lowest terms, which every object has. -/
theorem lessThan_exact {a b : Rational} (i : ℤ) (ha : 0 < a.den) (hb : 0 < b.den)
    (han : InRange W a.num) (had : InRange W a.den) (hbn : InRange W b.num)
    (hbd : InRange W b.den) {fuel : ℕ} (hfuel : a.den.toNat < fuel) :
    lessThan W fuel a b = some (decide (a.num * b.den < b.num * a.den)) ∧
      lessThanInt W fuel a i = some (decide (a.num < i * a.den)) ∧
      (Int.gcd a.num a.den = 1 →
        greaterThanInt W fuel a i = some (decide (i * a.den < a.num))) := by
  refine ⟨?_, lessThanInt_eq i ha han had hfuel, ?_⟩
  · obtain ⟨t₀, ts, htrun, htraise, htv, htn, htd⟩ :=
      start_valid ha han had (show 1 < fuel by omega)
    obtain ⟨r₀, rs, hrrun, hrraise, hrv, hrn, hrd⟩ :=
      start_valid hb hbn hbd (show 1 < fuel by omega)
    have hlt := htv.rem_lt
    rw [lessThan, if_pos ⟨ha, hb⟩, htrun, bind_some, hrrun, bind_some, htraise,
      bind_some, hrraise, bind_some, walk_spec fuel ts rs false htv hrv (by omega)]
    simp only [Expansion.Before, htn, htd, hrn, hrd]
    rfl
  · intro hg
    rw [greaterThanInt, lessThanInt_eq i ha han had hfuel]
    by_cases heq : equalsInt a i = true
    · rw [if_pos heq, (equalsInt_iff i ha hg).mp heq]
      simp
    · have hne := mt (equalsInt_iff i ha hg).mpr heq
      rw [if_neg heq, map_some, ← decide_not]
      congr 1
      rw [decide_eq_decide]
      omega

/-- The least value of the type as a numerator. -/
theorem lessThan_exact_least :
    lessThan 8 8 ⟨-128, 7⟩ ⟨-127, 7⟩ = some true ∧ greaterThanInt 8 8 ⟨-128, 7⟩ (-19) = some true :=
  have h := lessThan_exact (W := 8) (a := ⟨-128, 7⟩) (b := ⟨-127, 7⟩) (-19) (by decide) (by decide)
    (by decide) (by decide) (by decide) (by decide) (show (7 : ℤ).toNat < 8 by decide)
  ⟨h.1, h.2.2 (by decide)⟩

end SourceLibs.Rational
