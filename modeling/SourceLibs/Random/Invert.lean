import SourceLibs.Random.ConstMod
import Mathlib.Data.Int.Basic
import Mathlib.RingTheory.Coprime.Lemmas

/-!
# Random — inverses modulo a constant

`invert` of `const_mod`, by Euclid's algorithm on the modulus and the number, two divisions a turn.
Where the modulus is the number of values of the type it does not fit in the type, and
`invert_euclidian0` starts from the largest value.  The last cofactor is the modulus itself.

* `Cofactors.turn`: a division keeps the cofactors.
* `invert_spec`: the result is an inverse, unless the type is signed, not promoted, and `m = 0`.
* `exact_iff`: when the arithmetic of `const_mod` is exact.
-/

namespace SourceLibs.Random
open Option Int

open MachineInt

variable {t : IntType} {m : ℤ} {M c s l l' p n : ℤ}

/-! ### A division -/

/-- **The cofactors** of `c` modulo `M`: `l` belongs to the dividend `p` and `l'` to the divisor `n`. -/
structure Cofactors (M c s l l' p n : ℤ) : Prop where
  total : l' * p + l * n = M
  left : c * l ≡ -s * p [ZMOD M]
  right : c * l' ≡ s * n [ZMOD M]

theorem Cofactors.swap (h : Cofactors M c s l l' p n) : Cofactors M c (-s) l' l n p := by
  obtain ⟨htotal, hleft, hright⟩ := h
  exact ⟨by rw [add_comm, htotal], by rwa [neg_neg], hleft⟩

/-- **A division** keeps the cofactors. -/
theorem Cofactors.turn (h : Cofactors M c s l l' p n) :
    Cofactors M c s (l + p / n * l') l' (p % n) n := by
  obtain ⟨htotal, hleft, hright⟩ := h
  have hdiv := mul_ediv_add_emod p n
  refine ⟨by linear_combination htotal + l' * hdiv, ?_, hright⟩
  have hsum := hleft.add (hright.mul_left (p / n))
  calc c * (l + p / n * l') = c * l + p / n * (c * l') := by ring
    _ ≡ -s * p + p / n * (s * n) [ZMOD M] := hsum
    _ = -s * (p % n) := by linear_combination s * hdiv

/-- The cofactor of the dividend is at most the modulus, and less while there is a dividend. -/
theorem Cofactors.le (h : Cofactors M c s l l' p n) (hl : 0 ≤ l) (hl' : 0 ≤ l') (hp : 0 ≤ p)
    (hn : 0 < n) : l ≤ M := by
  have hrest : 0 ≤ l' * p := mul_nonneg hl' hp
  calc l ≤ l * n := le_mul_of_one_le_right hl hn
    _ ≤ l' * p + l * n := by omega
    _ = M := h.total

theorem Cofactors.lt (h : Cofactors M c s l l' p n) (hl : 0 ≤ l) (hl' : 0 < l') (hp : 0 < p)
    (hn : 0 < n) : l < M := by
  have hrest : 0 < l' * p := mul_pos hl' hp
  calc l ≤ l * n := le_mul_of_one_le_right hl hn
    _ < l' * p + l * n := by omega
    _ = M := h.total

theorem gcd_zero_left {n g : ℤ} (hn : 0 < n) (h : (Int.gcd 0 n : ℤ) = g) : n = g := by
  rwa [Int.gcd_zero_left, natAbs_of_nonneg hn.le] at h

/-! ### A division in the type -/

/-- What the cofactors need of the type: it is promoted or unsigned, or they are values of it. -/
def Fits (t : IntType) (m : ℤ) : Prop := ¬ (m = 0 ∧ t.Strict)

theorem exists_evaluate (hm : m ≤ t.max) (hfits : Fits t m) {x : ℤ} (hx₀ : 0 ≤ x)
    (hx : x ≤ modulus t m) : ∃ y, t.evaluate x = some y := by
  by_cases hz : m = 0
  · rw [modulus, if_pos hz] at hx
    have hcard := t.card_bounds.1
    exact IntType.exists_evaluate (fun hs => hfits ⟨hz, hs⟩) (by omega) hx
  · rw [modulus_of_ne hz] at hx
    exact ⟨x, IntType.evaluate_of_mem hx₀ (hx.trans hm)⟩

theorem addTimes_spec (hm : m ≤ t.max) (hfits : Fits t m) {l q l' : ℤ} (hl : 0 ≤ l)
    (hq : 0 ≤ q) (hl' : 0 ≤ l') (hsum : l + q * l' ≤ modulus t m) :
    ∃ v, addTimes t l q l' = some v ∧ (l + q * l' ≤ t.max → v = l + q * l') := by
  have hprod₀ : 0 ≤ q * l' := mul_nonneg hq hl'
  obtain ⟨y, hy⟩ := exists_evaluate hm hfits hprod₀ (by omega)
  obtain ⟨hy₀, hyle⟩ := IntType.evaluate_bounds hprod₀ hy
  obtain ⟨z, hz⟩ := exists_evaluate hm hfits (x := l + y) (by omega) (by omega)
  refine ⟨t.convert z, by simp [addTimes, hy, hz], fun hle => ?_⟩
  rw [IntType.evaluate_of_mem hprod₀ (by omega), some_inj] at hy
  subst hy
  rw [IntType.evaluate_of_mem (by omega) hle, some_inj] at hz
  subst hz
  exact IntType.convert_of_mem (by omega) hle

theorem halfTurn_spec (hm : m ≤ t.max) (hfits : Fits t m) {l l' p n : ℤ} (hl : 0 ≤ l)
    (hl' : 0 ≤ l') (hp₀ : 0 ≤ p) (hp : p ≤ t.max) (hn : 0 < n)
    (hsum : l + p / n * l' ≤ modulus t m) :
    ∃ v, halfTurn t l l' p n = some (v, p % n) ∧ (l + p / n * l' ≤ t.max → v = l + p / n * l') := by
  have hq₀ := ediv_nonneg hp₀ hn.le
  have hq := ediv_le_self n hp₀
  have hdiv := mul_ediv_add_emod p n
  have hr₀ := emod_nonneg p hn.ne'
  have hprod : p / n * n = p - p % n := by linear_combination hdiv
  obtain ⟨v, hv, hval⟩ := addTimes_spec hm hfits hl hq₀ hl' hsum
  refine ⟨v, ?_, hval⟩
  have hsub : subTimes t p (p / n) n = some (p % n) := by
    have hconv : t.convert (p % n) = p % n :=
      IntType.convert_of_mem hr₀ ((emod_le_of_nonneg hp₀ hn.le).trans hp)
    have heval : t.evaluate (p % n) = some (p % n) :=
      IntType.evaluate_of_mem hr₀ ((emod_le_of_nonneg hp₀ hn.le).trans hp)
    have hmul : t.evaluate (p - p % n) = some (p - p % n) :=
      IntType.evaluate_of_mem (by rw [← hprod]; exact mul_nonneg hq₀ hn.le) (by omega)
    simp [subTimes, hprod, hmul, heval, hconv]
  simp [halfTurn, quotient_of_mem hp₀ hp hn, IntType.convert_of_mem hq₀ (hq.trans hp), hv, hsub]

/-! ### The loop -/

/-- An inverse of `c` up to the factor `g`, as a value of the type. -/
structure Inverse (t : IntType) (m c g y : ℤ) : Prop where
  lower : t.min ≤ y
  upper : y ≤ t.max
  residue : m ≠ 0 → Residue t m y
  inverse : c * y ≡ g [ZMOD modulus t m]

theorem modulus_sub_spec (hm : m ≤ t.max) (hfits : Fits t m) {c g l : ℤ} (hl : 0 < l)
    (hlt : l < modulus t m) (hleft : c * l ≡ -g [ZMOD modulus t m]) :
    ∃ y, t.evaluate (m - l) = some y ∧ Inverse t m c g (t.convert y) := by
  have hinv : ∀ y : ℤ, y ≡ -l [ZMOD modulus t m] → c * y ≡ g [ZMOD modulus t m] := by
    intro y hy
    have h := hleft.neg
    rw [neg_neg, ← mul_neg] at h
    exact (hy.mul_left c).trans h
  by_cases hz : m = 0
  · have hcard := t.card_bounds.1
    have hmod : modulus t m = t.card := by rw [modulus, if_pos hz]
    rw [hmod] at hlt
    obtain ⟨y, hy⟩ := IntType.exists_evaluate (x := m - l) (fun hs => hfits ⟨hz, hs⟩) (by omega)
      (by omega)
    have hbounds := t.convert_bounds y
    refine ⟨y, hy, hbounds.1, hbounds.2, fun h => absurd hz h, hinv _ ?_⟩
    have hres := (IntType.convert_modEq y).trans (IntType.evaluate_modEq hy)
    rw [hz, zero_sub] at hres
    rw [hmod]
    exact hres.of_dvd t.card_dvd
  · have hmod := modulus_of_ne (t := t) hz
    rw [hmod] at hlt
    have hconv : t.convert (m - l) = m - l := IntType.convert_of_mem (by omega) (by omega)
    have hbounds := t.convert_bounds (m - l)
    refine ⟨m - l, IntType.evaluate_of_mem (by omega) (by omega), hbounds.1, hbounds.2, fun _ => ?_,
      hinv _ ?_⟩
    · rw [residue_iff_of_ne hz, hconv]
      omega
    · rw [hconv, hmod, ← zero_sub]
      exact (Int.modEq_zero_iff_dvd.mpr dvd_rfl).sub_right l

/-- **The loops** of `invert`: the cofactors are those that are stored, up to the last of them. -/
theorem invertLoop_spec (h₀ : 0 ≤ m) (hm : m ≤ t.max) (hfits : Fits t m) {c g : ℤ} (fuel : ℕ) :
    ∀ v l₁ l₂ n p, Cofactors (modulus t m) c 1 l₁ l₂ p n → (Int.gcd p n : ℤ) = g → 0 ≤ p → p < n →
      n ≤ t.max → 0 < l₁ → 0 < l₂ → l₂ < modulus t m → (p ≠ 0 → v = l₁) → p.toNat < fuel →
      ∃ y, invertLoop t m fuel v l₂ n p = some y ∧ Inverse t m c g y := by
  induction fuel with
  | zero =>
    intro v l₁ l₂ n p _ _ _ _ _ _ _ _ _ hfuel
    omega
  | succ fuel ih =>
    intro v l₁ l₂ n p hcof hgcd hp₀ hpn hn hl₁ hl₂ hlt hv hfuel
    have hmin := t.min_le_zero
    rw [invertLoop]
    by_cases hp : p = 0
    · subst hp
      have hn := gcd_zero_left (by omega) hgcd
      refine ⟨l₂, if_pos rfl, by omega, le_max_of_lt h₀ hm hlt, fun _ => ⟨hl₂.le, hlt⟩, ?_⟩
      have hright := hcof.right
      rwa [hn, one_mul] at hright
    obtain rfl := hv hp
    have hturn := hcof.swap.turn
    have hpos : 0 < p := by omega
    have hn₀ := emod_nonneg n hp
    have hgrown : 0 < l₂ + n / p * v := by
      have hq := ediv_nonneg (by omega : 0 ≤ n) hp₀
      positivity
    have hnext : v < modulus t m := hcof.lt hl₁.le hl₂ hpos (by omega)
    have hbound : l₂ + n / p * v ≤ modulus t m := hturn.le hgrown.le hl₁.le hn₀ hpos
    obtain ⟨w, hw, hwval⟩ := halfTurn_spec hm hfits hl₂.le hl₁.le (by omega : 0 ≤ n) hn
      hpos hbound
    simp only [if_neg hp, hw, bind_eq_bind, bind_some]
    have hgcd' : (Int.gcd (n % p) p : ℤ) = g := by rw [gcd_emod, Int.gcd_comm, hgcd]
    by_cases hzero : n % p = 0
    · rw [hzero] at hgcd' hturn
      have hp := gcd_zero_left hpos hgcd'
      have hright := hturn.right
      rw [hp, neg_one_mul] at hright
      obtain ⟨y, hy, hinv⟩ := modulus_sub_spec hm hfits hl₁ hnext hright
      exact ⟨t.convert y, by simp [hzero, hy], hinv⟩
    · have hn' : 0 < n % p := lt_of_le_of_ne hn₀ (Ne.symm hzero)
      have hn'p := emod_lt_of_pos n hpos
      have hlt' : l₂ + n / p * v < modulus t m := hturn.lt hgrown.le hl₁ hn' hpos
      obtain rfl := hwval (le_max_of_lt h₀ hm hlt')
      have hturn' := hturn.swap.turn
      rw [neg_neg] at hturn'
      have hp' := emod_nonneg p hzero
      have hp'n := emod_lt_of_pos p hn'
      have hgrown' : 0 < v + p / (n % p) * (l₂ + n / p * v) := by
        have hq := ediv_nonneg hp₀ hn'.le
        positivity
      obtain ⟨w', hw', hwval'⟩ := halfTurn_spec hm hfits hl₁.le hgrown.le hp₀ (by omega) hn'
        (hturn'.le hgrown'.le hgrown.le hp' hn')
      simp only [if_neg hzero, hw', bind_some]
      have hgcd'' : (Int.gcd (p % (n % p)) (n % p) : ℤ) = g := by
        rw [gcd_emod, Int.gcd_comm, hgcd']
      refine ih w' _ _ _ _ hturn' hgcd'' hp' hp'n (by omega) hgrown' hgrown
        hlt' (fun hne => hwval' (le_max_of_lt h₀ hm ?_)) (by omega)
      exact hturn'.lt hgrown'.le hgrown (lt_of_le_of_ne hp' (Ne.symm hne)) hn'

theorem cofactors_start (M c : ℤ) : Cofactors M c 1 0 1 M c := by
  refine ⟨by ring, ?_, by rw [mul_one, one_mul]⟩
  rw [mul_zero, neg_mul, one_mul]
  exact (Int.modEq_zero_iff_dvd.mpr (dvd_neg.mpr dvd_rfl)).symm

theorem invertEuclidian_spec (hm : m ≤ t.max) {c : ℤ} (hc₀ : 0 < c) (hc : c < m) :
    ∃ y, invertEuclidian t m c = some y ∧ Inverse t m c (Int.gcd c m) y := by
  have hne : m ≠ 0 := by omega
  have hmod := modulus_of_ne (t := t) hne
  have hfits : Fits t m := fun h => hne h.1
  have hturn := (cofactors_start m c).turn
  have hq : 0 < m / c := Int.le_ediv_of_mul_le hc₀ (by omega)
  have hp₀ := emod_nonneg m hc₀.ne'
  have hp := emod_lt_of_pos m hc₀
  obtain ⟨v, hv, hval⟩ := halfTurn_spec hm hfits (le_refl (0 : ℤ)) zero_le_one (by omega) hm
    hc₀ (by rw [hmod]; exact hturn.le (by omega) (by decide) hp₀ hc₀)
  simp only [invertEuclidian, if_pos hc₀, hv, bind_eq_bind, bind_some]
  refine invertLoop_spec (by omega) hm hfits (c.toNat + 1) v (0 + m / c * 1) 1 c (m % c)
    (by rwa [hmod]) (by rw [gcd_emod, Int.gcd_comm]) hp₀ hp (by omega) (by omega) (by decide)
    (by rw [hmod]; omega) (fun hne' => hval ?_) (by omega)
  have hlt := hturn.lt (by omega) (by decide) (lt_of_le_of_ne hp₀ (Ne.symm hne')) hc₀
  omega

theorem card_divide {c : ℤ} (hc₀ : 1 < c) (hdvd : ¬ c ∣ t.card) :
    t.max % c ≠ c - 1 ∧ t.max / c = t.card / c ∧ t.max % c + 1 = t.card % c := by
  have hcard := t.card_eq_max_add_one
  have hdiv := mul_ediv_add_emod t.max c
  have hr₀ := emod_nonneg t.max (by omega : c ≠ 0)
  have hr := emod_lt_of_pos t.max (by omega : 0 < c)
  have hne : t.max % c ≠ c - 1 := by
    intro heq
    exact hdvd ⟨t.max / c + 1, by linear_combination hcard - hdiv + heq⟩
  have hsplit : t.card = t.max % c + 1 + c * (t.max / c) := by linear_combination hcard - hdiv
  have hlt : t.max % c + 1 < c := by omega
  refine ⟨hne, ?_, ?_⟩
  · rw [hsplit, add_mul_ediv_left _ _ (by omega), ediv_eq_zero_of_lt (by omega) hlt, zero_add]
  · rw [hsplit, add_mul_emod_self_left, emod_eq_of_lt (by omega) hlt]

theorem invertEuclidian0_spec (hfits : Fits t 0) {c : ℤ} (hc₀ : 0 < c) (hc : c ≤ t.max)
    (hdvd : c = 1 ∨ ¬ c ∣ t.card) :
    ∃ y, invertEuclidian0 t 0 c = some y ∧ Inverse t 0 c (Int.gcd c t.card) y := by
  have hcard := t.card_eq_max_add_one
  have hlarge := t.card_bounds.1
  have hmod : modulus t 0 = t.card := if_pos rfl
  have hmin := t.min_le_zero
  by_cases hone : c = 1
  · subst hone
    refine ⟨1, by simp [invertEuclidian0], by omega, hc, fun h => absurd rfl h, ?_⟩
    rw [Int.gcd_one_left]
    exact Int.ModEq.refl 1
  have hmax₀ : 0 ≤ t.max := by omega
  obtain ⟨hassert, hq, hr⟩ := card_divide (t := t) (by omega) (hdvd.resolve_left hone)
  have hturn := (cofactors_start t.card c).turn
  have hq₀ : 0 < t.card / c := Int.le_ediv_of_mul_le hc₀ (by omega)
  have hqle := ediv_le_self c hmax₀
  have hp₀ := emod_nonneg t.card hc₀.ne'
  have hp := emod_lt_of_pos t.card hc₀
  have hr₀ := emod_nonneg t.max hc₀.ne'
  have hrest : t.max - t.card / c * c = t.max % c := by
    rw [← hq, mul_comm]
    exact (emod_def _ _).symm
  obtain ⟨v, hv, hval⟩ := addTimes_spec (m := 0) hmax₀ hfits (le_refl (0 : ℤ)) hq₀.le
    zero_le_one (hmod ▸ hturn.le (by omega) (by decide) hp₀ hc₀)
  have hprod : t.evaluate (t.card / c * c) = some (t.card / c * c) :=
    IntType.evaluate_of_mem (mul_nonneg hq₀.le hc₀.le) (by omega)
  have hloop := invertLoop_spec (t := t) (m := 0) le_rfl hmax₀ hfits (c.toNat + 1) v
    (0 + t.card / c * 1) 1 c (t.card % c) (hmod ▸ hturn)
    (by rw [gcd_emod, Int.gcd_comm]) hp₀ hp hc (by omega) (by decide) (by rw [hmod]; omega)
      (fun hne => hval ?_) (by omega)
  · simpa [invertEuclidian0, hc₀, hone, quotient_of_mem hmax₀ le_rfl hc₀,
      remainder_of_mem hmax₀ le_rfl hc₀, hq, IntType.convert_of_mem hq₀.le (hq ▸ hqle),
      IntType.evaluate_of_mem (by omega : 0 ≤ c - 1) (by omega : c - 1 ≤ t.max), hassert, hv, hprod,
      hrest, IntType.evaluate_of_mem hr₀ (by omega : t.max % c ≤ t.max), hr,
      IntType.evaluate_of_mem hp₀ (by omega : t.card % c ≤ t.max),
      IntType.convert_of_mem hp₀ (by omega : t.card % c ≤ t.max)] using hloop
  · have hlt := hturn.lt (by omega) (by decide) (lt_of_le_of_ne hp₀ (Ne.symm hne)) hc₀
    omega

/-- **`invert`** returns an inverse up to the common factor with the modulus, unless the modulus is
that of the type and the number divides it. -/
theorem invert_spec (h₀ : 0 ≤ m) (hm : m ≤ t.max) (hfits : Fits t m) {x : ℤ} (hx : Residue t m x)
    (hpos : 0 < x) (hdvd : m = 0 → x = 1 ∨ ¬ x ∣ t.card) :
    ∃ y, invert t m x = some y ∧ Inverse t m x (Int.gcd x (modulus t m)) y := by
  have hzero : x ≠ 0 := hpos.ne'
  by_cases hz : m = 0
  · subst hz
    have hmod : modulus t 0 = t.card := if_pos rfl
    obtain ⟨y, hy, hinv⟩ := invertEuclidian0_spec hfits hpos (le_max_of_lt le_rfl hm hx.2) (hdvd rfl)
    exact ⟨y, by rw [invert, if_neg hzero, if_pos rfl, hy], by rwa [hmod]⟩
  · rw [residue_iff_of_ne hz] at hx
    obtain ⟨y, hy, hinv⟩ := invertEuclidian_spec hm hpos hx.2
    exact ⟨y, by rw [invert, if_neg hzero, if_neg hz, hy], by rwa [modulus_of_ne hz]⟩

/-- **`invert`** of what is coprime to the modulus. -/
theorem invert_coprime (h₀ : 0 ≤ m) (hm : m ≤ t.max) (hfits : Fits t m) {x : ℤ}
    (hx : Residue t m x) (hcop : IsCoprime x (modulus t m)) :
    ∃ y, invert t m x = some y ∧ x * y ≡ 1 [ZMOD modulus t m] := by
  have hgcd := isCoprime_iff_gcd_eq_one.mp hcop
  by_cases hzero : x = 0
  · subst hzero
    have hone := gcd_zero_left (modulus_bounds h₀ hm).1 (congrArg Nat.cast hgcd)
    refine ⟨0, if_pos rfl, ?_⟩
    rw [hone]
    exact Int.modEq_one
  have hdvd : m = 0 → x = 1 ∨ ¬ x ∣ t.card := by
    rintro rfl
    by_contra! h
    rcases isUnit_iff.mp (hcop.isUnit_of_dvd' dvd_rfl h.2) with hunit | hunit
    · exact h.1 hunit
    · exact absurd hx.1 (by omega)
  obtain ⟨y, hy, hinv⟩ := invert_spec h₀ hm hfits hx (lt_of_le_of_ne hx.1 (Ne.symm hzero)) hdvd
  have hinverse := hinv.inverse
  rw [hgcd] at hinverse
  exact ⟨y, hy, hinverse⟩

/-! ### Exactness -/

/-- **Exact arithmetic** modulo `m`: no operation overflows and each returns the residue of the result
in the integers, or an inverse. -/
structure Exact (t : IntType) (m : ℤ) : Prop where
  apply : ∀ x, 0 ≤ x → x ≤ t.max → apply t m x = some (x % modulus t m)
  add : ∀ x c, Residue t m x → Residue t m c → add t m x c = some ((x + c) % modulus t m)
  mult : ∀ a x, Residue t m a → Residue t m x → mult t m a x = some (a * x % modulus t m)
  multAdd : ∀ a x c, Residue t m a → Residue t m x → Residue t m c →
    multAdd t m a x c = some ((a * x + c) % modulus t m)
  pow : ∀ a exponent, Residue t m a → exponent < 2 ^ 64 →
    pow t m a exponent = some (a ^ exponent % modulus t m)
  invert : ∀ x, Residue t m x → IsCoprime x (modulus t m) →
    ∃ y, invert t m x = some y ∧ x * y ≡ 1 [ZMOD modulus t m]

/-- **The condition**: the modulus is not one (its powers start from one), nor that of an unsigned type
of 16 bits (whose products are promoted to a signed type), nor that of a signed type that is not
promoted (whose inverses overflow), and no product that is left to `mulmod` loses a bit. -/
structure Sound (t : IntType) (m : ℤ) : Prop where
  ne_one : m ≠ 1
  roomy : Roomy t m
  fits : Fits t m
  lossless : Lossless t m

theorem Sound.exact (h₀ : 0 ≤ m) (hm : m ≤ t.max) (hs : Sound t m) : Exact t m where
  apply _ hx₀ hx := apply_spec h₀ hm hx₀ hx
  add _ _ hx hc := add_spec h₀ hm hs.roomy hx hc
  mult a x ha hx := (mult_iff h₀ hm hs.roomy ha hx).mpr (hs.lossless a x ha hx)
  multAdd a x _ ha hx hc := multAdd_spec h₀ hm hs.roomy ha hx hc (hs.lossless a x ha hx)
  pow _ _ ha hexp := pow_spec h₀ hm hs.ne_one hs.roomy hs.lossless ha hexp
  invert _ hx hcop := invert_coprime h₀ hm hs.fits hx hcop

theorem Exact.ne_one (hexact : Exact t m) : m ≠ 1 := by
  rintro rfl
  have hmod : modulus t 1 = 1 := modulus_of_ne (by decide)
  have hpow := hexact.pow 0 0 ⟨le_rfl, by rw [hmod]; decide⟩ (by decide)
  rw [hmod] at hpow
  exact absurd hpow (by simp [Random.pow, powLoop])

/-- The largest value squared overflows in the promoted type. -/
theorem Exact.roomy (hexact : Exact t m) : Roomy t m := by
  rintro ⟨rfl, hbits, hsigned⟩
  obtain rfl : t = ⟨16, false, by decide⟩ := IntType.ext hbits hsigned
  obtain ⟨htest, -⟩ := mask_spec (t := ⟨16, false, by decide⟩) (m := 0) (k := 16) le_rfl (by decide)
    rfl
  have hmult := hexact.mult 65535 65535 ⟨by decide, by decide⟩ ⟨by decide, by decide⟩
  have hnone : (⟨16, false, by decide⟩ : IntType).unsigned.evaluate 4294836225 = none := rfl
  have hconv : (⟨16, false, by decide⟩ : IntType).unsigned.convert 65535 = 65535 := rfl
  simp [Random.mult, htest, hconv, hnone] at hmult

/-- The last cofactor of the largest value is the modulus, and overflows. -/
theorem Exact.fits (hexact : Exact t m) : Fits t m := by
  rintro ⟨rfl, hsigned, hbits⟩
  have hlarge : t.bits = 32 ∨ t.bits = 64 := by
    have hmem := t.bits_mem
    omega
  rcases hlarge with h | h
  · obtain rfl : t = ⟨32, true, by decide⟩ := IntType.ext h hsigned
    obtain ⟨y, hy, -⟩ := hexact.invert 2147483647 ⟨by decide, by decide⟩ ⟨-1, 1, by decide⟩
    have hnone : Random.invert ⟨32, true, by decide⟩ 0 2147483647 = none := by decide
    exact absurd (hnone.symm.trans hy) nofun
  · obtain rfl : t = ⟨64, true, by decide⟩ := IntType.ext h hsigned
    obtain ⟨y, hy, -⟩ := hexact.invert 9223372036854775807 ⟨by decide, by decide⟩ ⟨-1, 1, by decide⟩
    have hnone : Random.invert ⟨64, true, by decide⟩ 0 9223372036854775807 = none := by decide
    exact absurd (hnone.symm.trans hy) nofun

/-- **`const_mod`** is exact if and only if its modulus is sound. -/
theorem exact_iff (h₀ : 0 ≤ m) (hm : m ≤ t.max) : Exact t m ↔ Sound t m := by
  refine ⟨fun h => ⟨h.ne_one, h.roomy, h.fits, fun a x ha hx => ?_⟩, Sound.exact h₀ hm⟩
  exact (mult_iff h₀ hm h.roomy ha hx).mp (h.mult a x ha hx)

/-- Products of less than 64 bits are not left to `mulmod`. -/
theorem lossless_of_lt (h₀ : 0 ≤ m) (hm : m < 2 ^ 32) : Lossless t m := by
  intro a x _ _ hloses
  have hsq : m * m < 2 ^ 32 * 2 ^ 32 := mul_lt_mul'' hm hm h₀ h₀
  have hwide := hloses.1.2.1
  omega

theorem sound_of_lt (h₀ : 1 < m) (hm : m < 2 ^ 32) : Sound t m :=
  ⟨by omega, fun h => absurd h.1 (by omega), fun h => absurd h.1 (by omega),
    lossless_of_lt (by omega) hm⟩

theorem exact_iff_minstd : Exact ⟨32, true, by decide⟩ 2147483647 :=
  (exact_iff (by decide) (by decide)).mpr (sound_of_lt (by decide) (by decide))

/-- In 64 bits without a sign, the square of `2 ^ 64 - 2` modulo `2 ^ 64 - 1` is one; `mult` returns
another number. -/
theorem mult_loses : ¬ Exact ⟨64, false, by decide⟩ (2 ^ 64 - 1) := by
  intro hexact
  have hm : (2 : ℤ) ^ 64 - 1 ≤ (⟨64, false, by decide⟩ : IntType).max := by decide
  have hres : Residue ⟨64, false, by decide⟩ (2 ^ 64 - 1) (2 ^ 64 - 2) := ⟨by decide, by decide⟩
  have hk : ∀ k : ℕ, (2 : ℤ) ^ 64 - 1 ≠ 2 ^ k := by
    intro k hk
    cases k with
    | zero => exact absurd hk (by decide)
    | succ k =>
      rw [pow_succ] at hk
      omega
  have hlossy : LossyPair (2 ^ 64 - 1) (2 ^ 64 - 2) (2 ^ 64 - 2) := by decide
  refine (mult_iff (by decide) hm hexact.roomy hres hres).mp (hexact.mult _ _ hres hres) ?_
  exact ⟨⟨hk, by decide, by decide, by decide, fun h => absurd h.1 (by decide)⟩, hlossy⟩

end SourceLibs.Random
