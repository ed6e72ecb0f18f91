import Mathlib.Data.BitVec
import Mathlib.Data.Nat.Prime.Basic
import Mathlib.Tactic.Ring

/-!
# Integer — the binary algorithm

`gcd_binary` of `integer/common_factor_rt.hpp`, the greatest common divisor of two unsigned words
by shifts and differences, beside `gcd_euclidean` for the same type. Every loop runs with fuel and
is `none` when it runs out. The array `r` of two words is a map from its index, the index a `Bool`.

* `stripTwos_spec`: the inner loop leaves an odd word and keeps the greatest common divisor.
* `whittle_spec`: so does the outer loop, until one word is zero.
* `gcdBinary_euclidean`: both algorithms return the same word.
* `gcdOptimal_spec`: so does `gcd_optimal_evaluator` at a signed type, of the magnitudes, where the
  negations that it takes are defined.
-/

namespace SourceLibs.Integer
open Nat Function BitVec

variable {w : ℕ} (fuel : ℕ) (r : Bool → BitVec w)

theorem ne_zero_iff (x : BitVec w) : x ≠ 0 ↔ 0 < x.toNat := by
  rw [Nat.pos_iff_ne_zero, ne_eq, ne_eq, ← toNat_inj]
  simp

/-! ### The source -/

/-- `gcd_euclidean` at an unsigned type. -/
def gcdEuclideanUnsigned (a b : BitVec w) : BitVec w :=
  if a = 0 then b
  else
    let b' := b % a
    if b' = 0 then a
    else gcdEuclideanUnsigned (a % b') b'
termination_by a.toNat
decreasing_by
  rename_i ha hb
  have hb' : 0 < (b % a).toNat := (ne_zero_iff _).mp hb
  have ha' : 0 < a.toNat := (ne_zero_iff a).mp ha
  calc (a % (b % a)).toNat = a.toNat % (b % a).toNat := BitVec.toNat_umod
    _ < (b % a).toNat := Nat.mod_lt _ hb'
    _ = b.toNat % a.toNat := BitVec.toNat_umod
    _ < a.toNat := Nat.mod_lt _ ha'

/-- The first loop of `gcd_binary`: the common factors of two. -/
def stripCommon : ℕ → ℕ → BitVec w → BitVec w → Option (ℕ × BitVec w × BitVec w)
  | 0, _, _, _ => none
  | fuel + 1, shifts, u, v =>
    if u &&& 1 = 0 ∧ v &&& 1 = 0 then stripCommon fuel (shifts + 1) (u >>> 1) (v >>> 1)
    else some (shifts, u, v)

/-- The inner loop: the factors of two of the even one. -/
def stripTwos : ℕ → (Bool → BitVec w) → Bool → Option (Bool → BitVec w)
  | 0, _, _ => none
  | fuel + 1, r, which =>
    if r which &&& 1 = 0 then stripTwos fuel (Function.update r which (r which >>> 1)) which
    else some r

/-- What a turn does to the larger of the two: their difference takes its place. -/
def whittleOne (r : Bool → BitVec w) (which : Bool) : (Bool → BitVec w) × Bool :=
  let which := if r (!which) > r which then !which else which
  (Function.update r which (r which - r (!which)), which)

/-- The outer loop, which tests at its end. -/
def whittle : ℕ → (Bool → BitVec w) → Bool → Option ((Bool → BitVec w) × Bool)
  | 0, _, _ => none
  | fuel + 1, r, which =>
    (stripTwos fuel r which).bind fun r =>
      let (r, which) := whittleOne r which
      if r which ≠ 0 then whittle fuel r which else some (r, which)

/-- The residue that `gcd_binary` shifts at its end and the count it shifts by, for two words that
are not zero. -/
def residue (fuel : ℕ) (u v : BitVec w) : Option (BitVec w × ℕ) :=
  (stripCommon fuel 0 u v).bind fun (shifts, u, v) =>
    -- starts with the still-even one, if any
    (whittle fuel (fun i => if i then v else u) (u &&& 1 ≠ 0)).map fun (r, which) =>
      (r (!which), shifts)

def gcdBinary (fuel : ℕ) (u v : BitVec w) : Option (BitVec w) :=
  if u ≠ 0 ∧ v ≠ 0 then (residue fuel u v).map fun (g, shifts) => g <<< shifts
  else some (u + v)

/-! ### Words as numbers -/

theorem even_iff (x : BitVec w) : x &&& 1 = 0 ↔ x.toNat % 2 = 0 := by
  rw [← toNat_inj]
  rcases w with - | w
  · have hx : x.toNat = 0 := by
      have hlt := x.isLt
      omega
    simp [hx]
  · simp [and_one_is_mod]

theorem toNat_half (x : BitVec w) : (x >>> 1).toNat = x.toNat / 2 := by
  simp [Nat.shiftRight_eq_div_pow]

theorem gcd_half_of_odd {a b : ℕ} (ha : a % 2 = 0) (hb : b % 2 = 1) :
    (a / 2).gcd b = a.gcd b := by
  have htwo : Coprime 2 b := coprime_two_left.mpr (Nat.odd_iff.mpr hb)
  have hmul := htwo.gcd_mul_left_cancel (a / 2)
  rw [Nat.mul_div_cancel' (dvd_of_mod_eq_zero ha)] at hmul
  exact hmul.symm

/-! ### The Euclidean algorithm -/

theorem gcdEuclideanUnsigned_eq (a b : BitVec w) :
    (gcdEuclideanUnsigned a b).toNat = Nat.gcd a.toNat b.toNat := by
  induction a, b using gcdEuclideanUnsigned.induct with
  | case1 b => simp [gcdEuclideanUnsigned]
  | case2 a b ha b' hb =>
    have hz : b.toNat % a.toNat = 0 := by
      rw [← toNat_umod, show b % a = 0 from hb]
      simp
    rw [gcdEuclideanUnsigned, if_neg ha, if_pos hb, gcd_rec, hz, Nat.gcd_zero_left]
  | case3 a b ha b' hb ih =>
    rw [gcdEuclideanUnsigned, if_neg ha, if_neg hb, ih, toNat_umod, ← gcd_rec,
      toNat_umod, ← gcd_rec]

/-! ### The loops -/

/-- **The first loop** takes a power of two out of both words and leaves one of them odd. -/
theorem stripCommon_spec (fuel shifts : ℕ) (u v : BitVec w) (hu : 0 < u.toNat) (hv : 0 < v.toNat)
    (hfuel : u.toNat < fuel) :
    ∃ k u' v', stripCommon fuel shifts u v = some (shifts + k, u', v') ∧
      u.toNat = u'.toNat * 2 ^ k ∧ v.toNat = v'.toNat * 2 ^ k ∧
      ¬ (u'.toNat % 2 = 0 ∧ v'.toNat % 2 = 0) := by
  induction fuel generalizing shifts u v with
  | zero => omega
  | succ fuel ih =>
    simp only [stripCommon, even_iff]
    split
    case isTrue heven =>
      obtain ⟨k, u', v', hrun, hku, hkv, hodd⟩ := ih (shifts + 1) (u >>> 1) (v >>> 1)
        (by rw [toNat_half]; omega) (by rw [toNat_half]; omega) (by rw [toNat_half]; omega)
      rw [toNat_half] at hku hkv
      refine ⟨k + 1, u', v', ?_, ?_, ?_, hodd⟩
      · rw [hrun, Nat.add_assoc, Nat.add_comm 1 k]
      · rw [Nat.pow_succ, ← Nat.mul_assoc, ← hku]
        omega
      · rw [Nat.pow_succ, ← Nat.mul_assoc, ← hkv]
        omega
    case isFalse hodd =>
      exact ⟨0, u, v, rfl, by simp, by simp, hodd⟩

/-- What the outer loop keeps: the cell it strips next is not zero and the other one is odd. -/
structure Whittling (r : Bool → BitVec w) (which : Bool) : Prop where
  pos : 0 < (r which).toNat
  odd : (r (!which)).toNat % 2 = 1

/-- The greatest common divisor of the two cells. -/
def cellsGcd (r : Bool → BitVec w) (which : Bool) : ℕ :=
  Nat.gcd (r which).toNat (r (!which)).toNat

theorem cellsGcd_not (which : Bool) : cellsGcd r (!which) = cellsGcd r which := by
  rw [cellsGcd, cellsGcd, Bool.not_not, Nat.gcd_comm]

/-- **The inner loop** leaves two odd cells. -/
theorem stripTwos_spec (which : Bool) (h : Whittling r which) (hfuel : (r which).toNat < fuel) :
    ∃ r', stripTwos fuel r which = some r' ∧ Whittling r' which ∧ (r' which).toNat % 2 = 1 ∧
      (r' which).toNat ≤ (r which).toNat ∧ r' (!which) = r (!which) ∧
      cellsGcd r' which = cellsGcd r which := by
  induction fuel generalizing r with
  | zero => omega
  | succ fuel ih =>
    simp only [stripTwos, even_iff]
    split
    case isTrue heven =>
      have hpos := h.pos
      have hother : update r which (r which >>> 1) (!which) = r (!which) :=
        update_of_ne (by simp) ..
      have hhalf : update r which (r which >>> 1) which = r which >>> 1 :=
        update_self ..
      have hnext : Whittling (update r which (r which >>> 1)) which := by
        constructor
        · rw [hhalf, toNat_half]
          omega
        · rw [hother]
          exact h.odd
      obtain ⟨r', hrun, hw, hodd, hle, hkeep, hgcd⟩ := ih _ hnext (by
        rw [hhalf, toNat_half]
        omega)
      refine ⟨r', hrun, hw, hodd, ?_, hkeep.trans hother, hgcd.trans ?_⟩
      · rw [hhalf, toNat_half] at hle
        omega
      · rw [cellsGcd, cellsGcd, hother, hhalf, toNat_half, gcd_half_of_odd heven h.odd]
    case isFalse hodd =>
      exact ⟨r, rfl, h, by omega, Nat.le_refl _, rfl, rfl⟩

/-- A turn of two odd cells: the smaller one stays and the other holds the difference. -/
theorem whittleOne_spec (which : Bool) (h : Whittling r which) (hodd : (r which).toNat % 2 = 1) :
    ((whittleOne r which).1 (!(whittleOne r which).2)).toNat % 2 = 1 ∧
      cellsGcd (whittleOne r which).1 (whittleOne r which).2 = cellsGcd r which ∧
      ((whittleOne r which).1 (whittleOne r which).2).toNat +
        ((whittleOne r which).1 (!(whittleOne r which).2)).toNat <
          (r which).toNat + (r (!which)).toNat := by
  have hsub : ∀ i, (r (!i)).toNat % 2 = 1 → (r (!i)).toNat ≤ (r i).toNat →
      ((update r i (r i - r (!i))) (!i)).toNat % 2 = 1 ∧
      cellsGcd (update r i (r i - r (!i))) i = cellsGcd r i ∧
      ((update r i (r i - r (!i))) i).toNat +
        ((update r i (r i - r (!i))) (!i)).toNat < (r i).toNat + (r (!i)).toNat := by
    intro i hi hle
    have hother : update r i (r i - r (!i)) (!i) = r (!i) :=
      update_of_ne (by simp) ..
    have hdiff : (r i - r (!i)).toNat = (r i).toNat - (r (!i)).toNat :=
      BitVec.toNat_sub_of_le (by simpa [BitVec.le_def] using hle)
    rw [cellsGcd, cellsGcd, hother, update_self, hdiff]
    exact ⟨hi, Nat.gcd_sub_self_left hle, by omega⟩
  have hother := h.odd
  rw [whittleOne]
  split
  case isTrue hlt =>
    have hlt' : (r which).toNat < (r (!which)).toNat := lt_def.mp hlt
    obtain ⟨h₁, h₂, h₃⟩ := hsub (!which) (by simpa using hodd) (by simpa using Nat.le_of_lt hlt')
    refine ⟨h₁, h₂.trans (cellsGcd_not r which), Nat.lt_of_lt_of_eq h₃ ?_⟩
    rw [Bool.not_not, Nat.add_comm]
  case isFalse hge =>
    have hge' : ¬ (r which).toNat < (r (!which)).toNat := fun hc => hge (lt_def.mpr hc)
    exact hsub which hother (by omega)

/-- **The outer loop** ends with the greatest common divisor of the two cells in the one that is
not zero: the sum of the cells is smaller after each turn. -/
theorem whittle_spec (which : Bool) (h : Whittling r which)
    (hfuel : (r which).toNat + (r (!which)).toNat < fuel) :
    ∃ r' which', whittle fuel r which = some (r', which') ∧
      (r' (!which')).toNat = cellsGcd r which := by
  induction fuel generalizing r which with
  | zero => omega
  | succ fuel ih =>
    have hother := h.odd
    obtain ⟨r₁, hrun, hw, hodd, hle, hkeep, hgcd⟩ := stripTwos_spec fuel r which h (by omega)
    obtain ⟨hodd₂, hgcd₂, hlt⟩ := whittleOne_spec r₁ which hw hodd
    rw [hkeep] at hlt
    rw [whittle, hrun, Option.bind_some]
    simp only
    split
    case isTrue hne =>
      obtain ⟨r', which', hrun', hres⟩ := ih (whittleOne r₁ which).1 (whittleOne r₁ which).2
        ⟨(ne_zero_iff _).mp hne, hodd₂⟩ (by omega)
      exact ⟨r', which', hrun', by rw [hres, hgcd₂, hgcd]⟩
    case isFalse hz =>
      refine ⟨_, _, rfl, ?_⟩
      rw [← hgcd, ← hgcd₂, cellsGcd, not_not.mp hz]
      simp

theorem start_spec (u v : BitVec w) (hu : 0 < u.toNat) (hv : 0 < v.toNat)
    (hodd : ¬ (u.toNat % 2 = 0 ∧ v.toNat % 2 = 0)) :
    let r : Bool → BitVec w := fun i => if i then v else u
    let which : Bool := u &&& 1 ≠ 0
    Whittling r which ∧ cellsGcd r which = Nat.gcd u.toNat v.toNat ∧
      (r which).toNat + (r (!which)).toNat = u.toNat + v.toNat := by
  intro r which
  by_cases heven : u &&& 1 = 0
  · have hwhich : which = false := decide_eq_false (not_not.mpr heven)
    have hu2 := (even_iff u).mp heven
    rw [hwhich]
    exact ⟨⟨hu, show v.toNat % 2 = 1 by omega⟩, rfl, rfl⟩
  · have hwhich : which = true := decide_eq_true heven
    have hu2 := mt (even_iff u).mpr heven
    rw [hwhich]
    exact ⟨⟨hv, show u.toNat % 2 = 1 by omega⟩, Nat.gcd_comm _ _, Nat.add_comm _ _⟩

/-- **The residue** shifted back is the greatest common divisor, and the shift loses nothing. -/
theorem residue_spec (u v : BitVec w) (hu : 0 < u.toNat) (hv : 0 < v.toNat)
    (hfuel : u.toNat + v.toNat < fuel) :
    ∃ g shifts, residue fuel u v = some (g, shifts) ∧ shifts < w ∧
      g.toNat * 2 ^ shifts = Nat.gcd u.toNat v.toNat ∧ g.toNat * 2 ^ shifts < 2 ^ w := by
  obtain ⟨k, u', v', hrun, hku, hkv, hodd⟩ := stripCommon_spec fuel 0 u v hu hv (by omega)
  rw [Nat.zero_add] at hrun
  have hu' : 0 < u'.toNat := Nat.pos_of_mul_pos_right (hku ▸ hu)
  have hv' : 0 < v'.toNat := Nat.pos_of_mul_pos_right (hkv ▸ hv)
  have hule : u'.toNat ≤ u.toNat := by
    rw [hku]
    exact Nat.le_mul_of_pos_right _ (Nat.two_pow_pos k)
  have hvle : v'.toNat ≤ v.toNat := by
    rw [hkv]
    exact Nat.le_mul_of_pos_right _ (Nat.two_pow_pos k)
  obtain ⟨hstart, hcells, hsum⟩ := start_spec u' v' hu' hv' hodd
  obtain ⟨r', which', hrun', hres⟩ := whittle_spec fuel _ _ hstart
    (Nat.lt_of_le_of_lt (Nat.le_of_eq hsum) (by omega))
  have hgcd : (r' (!which')).toNat * 2 ^ k = Nat.gcd u.toNat v.toNat := by
    rw [hres, hcells, hku, hkv, Nat.gcd_mul_right]
  have hsmall : Nat.gcd u.toNat v.toNat < 2 ^ w :=
    Nat.lt_of_le_of_lt (Nat.gcd_le_left _ hu) u.isLt
  refine ⟨r' (!which'), k, ?_, ?_, hgcd, hgcd ▸ hsmall⟩
  · rw [residue, hrun, Option.bind_some]
    simp only
    rw [hrun', Option.map_some]
  · have hpow : 2 ^ k < 2 ^ w :=
      calc 2 ^ k ≤ u'.toNat * 2 ^ k := Nat.le_mul_of_pos_left _ hu'
        _ = u.toNat := hku.symm
        _ < 2 ^ w := u.isLt
    exact (Nat.pow_lt_pow_iff_right (by omega)).mp hpow

theorem gcdBinary_zero_left (v : BitVec w) : gcdBinary fuel 0 v = some v := by
  simp [gcdBinary]

theorem gcdBinary_eq (u v : BitVec w) (fuel : ℕ) (hfuel : u.toNat + v.toNat < fuel) :
    gcdBinary fuel u v = some (gcdEuclideanUnsigned u v) := by
  by_cases h : u ≠ 0 ∧ v ≠ 0
  · obtain ⟨g, shifts, hrun, -, hgcd, hsmall⟩ :=
      residue_spec fuel u v ((ne_zero_iff u).mp h.1) ((ne_zero_iff v).mp h.2) hfuel
    rw [gcdBinary, if_pos h, hrun, Option.map_some]
    refine congrArg some (eq_of_toNat_eq ?_)
    rw [gcdEuclideanUnsigned_eq, toNat_shiftLeft, Nat.shiftLeft_eq,
      mod_eq_of_lt hsmall, hgcd]
  · rw [gcdBinary, if_neg h]
    refine congrArg some (eq_of_toNat_eq ?_)
    rw [gcdEuclideanUnsigned_eq]
    rcases Classical.not_and_iff_not_or_not.mp h with hu | hv
    · simp [not_not.mp hu]
    · simp [not_not.mp hv]

/-- **The binary algorithm is the Euclidean one**: for every width and all words it ends, its last
shift loses nothing, and it returns the word that `gcd_euclidean` returns, the greatest common
divisor. -/
theorem gcdBinary_euclidean (u v : BitVec w) (fuel : ℕ) (hfuel : u.toNat + v.toNat < fuel) :
    gcdBinary fuel u v = some (gcdEuclideanUnsigned u v) ∧
      (gcdEuclideanUnsigned u v).toNat = Nat.gcd u.toNat v.toNat ∧
      (u ≠ 0 → v ≠ 0 → ∃ g shifts, residue fuel u v = some (g, shifts) ∧ shifts < w ∧
        g.toNat * 2 ^ shifts < 2 ^ w) ∧
      gcdBinary fuel 0 v = some v ∧ gcdBinary fuel (0 : BitVec w) 0 = some 0 := by
  refine ⟨gcdBinary_eq u v fuel hfuel, gcdEuclideanUnsigned_eq u v, ?_,
    gcdBinary_zero_left fuel v, gcdBinary_zero_left fuel 0⟩
  intro hu hv
  obtain ⟨g, shifts, hrun, hlt, -, hsmall⟩ :=
    residue_spec fuel u v ((ne_zero_iff u).mp hu) ((ne_zero_iff v).mp hv) hfuel
  exact ⟨g, shifts, hrun, hlt, hsmall⟩

theorem gcdBinary_euclidean_twelve :
    gcdBinary 31 12#8 18#8 = some (gcdEuclideanUnsigned 12#8 18#8) :=
  (gcdBinary_euclidean 12#8 18#8 31 (by decide)).1

/-! ### Signed types -/

/-- `-a`, at a signed type.  A type narrower than `int` is promoted; in the others the least value has
no negation. -/
def negate (a : BitVec w) : Option (BitVec w) := if 32 ≤ w ∧ a = intMin w then none else some (-a)

/-- `static_cast<Ut>( a < 0 ? -a : +a )`. -/
def magnitude (a : BitVec w) : Option (BitVec w) := if a.slt 0 then negate a else some a

/-- `gcd_optimal_evaluator` at a signed built-in type, in two's complement. -/
def gcdOptimal (fuel : ℕ) (a b : BitVec w) : Option (BitVec w) := do
  gcdBinary fuel (← magnitude a) (← magnitude b)

/-- The negation of the word is defined. -/
def Negatable (a : BitVec w) : Prop := ¬ (32 ≤ w ∧ a = intMin w)

theorem negate_eq {a : BitVec w} (h : Negatable a) : negate a = some (-a) := if_neg h

/-- **The magnitude** is unsigned, so that of the least value fits. -/
theorem magnitude_spec {a : BitVec w} (h : Negatable a) :
    ∃ u, magnitude a = some u ∧ u.toNat = a.toInt.natAbs := by
  have hlt := a.isLt
  simp only [magnitude, negate_eq h, BitVec.slt, ofNat_eq_ofNat, toInt_zero, decide_eq_true_eq]
  split
  case isTrue hneg =>
    refine ⟨_, rfl, ?_⟩
    rw [toNat_neg]
    rw [toInt_eq_toNat_cond] at hneg ⊢
    split at hneg
    case isTrue => omega
    case isFalse hbig =>
      rw [if_neg hbig, mod_eq_of_lt (by omega)]
      omega
  case isFalse hpos =>
    refine ⟨_, rfl, ?_⟩
    rw [toInt_eq_toNat_cond] at hpos ⊢
    split at hpos
    case isTrue hsmall =>
      rw [if_pos hsmall]
      omega
    case isFalse => omega

/-- The least value has no magnitude where it has no negation. -/
theorem magnitude_eq_none {a : BitVec w} (h : ¬ Negatable a) : magnitude a = none := by
  obtain ⟨hw, rfl⟩ := not_not.mp h
  have hslt : (intMin w).slt 0 = true := by
    have hpos : (0 : ℤ) < 2 ^ (w - 1) := Int.pow_pos (by decide)
    simp only [BitVec.slt, ofNat_eq_ofNat, toInt_zero, decide_eq_true_eq,
      toInt_intMin_of_pos (by omega : 0 < w)]
    omega
  rw [magnitude, if_pos hslt, negate, if_pos ⟨hw, rfl⟩]

theorem natAbs_toInt_le (a : BitVec w) : a.toInt.natAbs ≤ 2 ^ (w - 1) := by
  have hlow := a.le_toInt
  have hhigh := a.toInt_lt
  have hcast : ((2 ^ (w - 1) : ℕ) : ℤ) = 2 ^ (w - 1) := by simp
  omega

/-- **The signed evaluator** returns the greatest common divisor, as an unsigned word. -/
theorem gcdOptimal_spec {a b : BitVec w} (ha : Negatable a) (hb : Negatable b) (fuel : ℕ) (hw : 0 < w)
    (hfuel : 2 ^ w < fuel) :
    ∃ g, gcdOptimal fuel a b = some g ∧ g.toNat = Int.gcd a.toInt b.toInt := by
  have hpow : 2 ^ w = 2 ^ (w - 1) + 2 ^ (w - 1) := by
    rw [← Nat.two_mul, ← Nat.pow_succ', succ_eq_add_one, Nat.sub_add_cancel hw]
  have hale := natAbs_toInt_le a
  have hble := natAbs_toInt_le b
  obtain ⟨u, hu, hua⟩ := magnitude_spec ha
  obtain ⟨v, hv, hvb⟩ := magnitude_spec hb
  have hrun : gcdOptimal fuel a b = some (gcdEuclideanUnsigned u v) := by
    rw [gcdOptimal, hu, hv]
    exact gcdBinary_eq u v fuel (by omega)
  refine ⟨_, hrun, ?_⟩
  rw [gcdEuclideanUnsigned_eq, hua, hvb, Int.gcd]

/-- The evaluator is not defined at a word that has no negation. -/
theorem gcdOptimal_eq_none {a b : BitVec w} (h : ¬ (Negatable a ∧ Negatable b)) (fuel : ℕ) :
    gcdOptimal fuel a b = none := by
  rw [gcdOptimal]
  by_cases ha : Negatable a
  · obtain ⟨u, hu, -⟩ := magnitude_spec ha
    rw [hu, magnitude_eq_none fun hb => h ⟨ha, hb⟩]
    rfl
  · rw [magnitude_eq_none ha]
    rfl

end SourceLibs.Integer
