import SourceLibs.CppInt.LeftShift
import SourceLibs.CppInt.RightShift

/-!
# CppInt — shifts of the allocating backend

`eval_left_shift` and `eval_right_shift` on the backend that allocates.  Its `resize` never goes
beyond `max_limbs`, `2 ^ 32` bits where no `MaxBits` is given, so a left shift is exact as long as
the product fits; a right shift is exact as long as the limb offset fits `limb_type`.

* `shifts_exact`: both, for every configuration, and that the algorithms agree.
-/

namespace SourceLibs.CppInt
open Option PowersOfTwo

variable {w cap : ℕ} {x y : CppInt w} {s : ℕ}

/-! ### Which algorithm -/

theorem strategy_applies (hw : LimbWidth w) (config : ShiftConfig) (s : ℕ) :
    (strategy w config s).Applies w s := by
  have hdvd : s % w = 0 → s % 8 = 0 := fun h =>
    Nat.mod_eq_zero_of_dvd (hw.eight_dvd.trans (Nat.dvd_of_mod_eq_zero h))
  cases config with
  | littleEndian =>
    rw [strategy]
    split
    · assumption
    · rename_i h
      exact fun h₀ => h (hdvd h₀)
  | limbShift =>
    rw [strategy]
    split
    · assumption
    · split
      · assumption
      · assumption
  | bigEndian =>
    rw [strategy]
    split
    · assumption
    · assumption

/-! ### A left shift that fits -/

theorem size_le_of_fits (hw : 0 < w) (hx : x.Trimmed) (h₀ : x.mag ≠ 0)
    (hfit : x.mag * 2 ^ s < 2 ^ (w * cap)) : x.size + extraLimbs x (s % w) + s / w ≤ cap := by
  have hle := le_mag_shift hx h₀ (Nat.mod_lt s hw)
  have hmul := Nat.mul_le_mul_right (2 ^ (w * (s / w))) hle
  rw [Nat.mul_assoc, ← pow_add, ← pow_add, Nat.add_comm (s % w), Nat.div_add_mod, ← Nat.mul_add] at hmul
  have hlt := (Nat.pow_lt_pow_iff_right (by decide : 1 < 2)).mp (hmul.trans_lt hfit)
  have := lt_of_mul_lt_mul_left hlt (Nat.zero_le w)
  have := hx.1
  omega

theorem leftShift_zero (st : ShiftStrategy) (cap : ℕ) (h : x.size = 1 ∧ x.limbs 0 = 0) (s : ℕ) :
    leftShift st cap x s = some x := by
  cases st with
  | limb => exact congrArg some (if_pos h)
  | byte => exact if_pos h
  | generic => exact congrArg some (if_pos h)

/-- What the algorithms multiply by, and that a limb is there, when the product fits. -/
theorem leftExponent_of_fits (hw : LimbWidth w) (hmax : w * cap ≤ 2 ^ 32)
    (hsize : x.size + extraLimbs x (s % w) + s / w ≤ cap) (hx : 0 < x.size) {st : ShiftStrategy}
    (hst : st.Applies w s) : leftExponent cap x s st = s ∧ HasLimb x s st := by
  have hcap := Nat.mul_le_mul_right cap hw.le
  have hdm := Nat.div_add_mod s w
  have hoff : limbCast w (s / w) = s / w := limbCast_of_lt hw (by omega)
  cases st with
  | limb =>
    rw [show s % w = 0 from hst] at hdm
    exact ⟨by rw [leftExponent, hoff, hdm], trivial⟩
  | byte =>
    refine ⟨rfl, fun _ => ?_⟩
    rw [hoff, shiftedSize_eq, uint_of_lt (by omega)]
    omega
  | generic =>
    have hmis : misplaced cap x s = 0 := by
      rw [misplaced, hoff]
      refine if_neg fun h => ?_
      rw [extraLimbs, if_pos h.1] at hsize
      omega
    exact ⟨by rw [leftExponent, hoff, hmis, Nat.add_zero, hdm], trivial⟩

/-- **A left shift that fits** multiplies. -/
theorem evalLeftShiftBy_spec (hw : LimbWidth w) (hmax : w * cap ≤ 2 ^ 32) (hx : x.Canonical)
    (hcap : x.size ≤ cap) (hfit : x.mag * 2 ^ s < 2 ^ (w * cap)) {st : ShiftStrategy}
    (hst : st.Applies w s) :
    ∃ y, evalLeftShiftBy st cap x s = some y ∧ y.Represents (x.toInt * 2 ^ s) := by
  have hpos : 0 < w := by have := hw.le; omega
  unfold evalLeftShiftBy
  split
  · rename_i hs
    exact ⟨x, rfl, hx, by rw [hs, pow_zero, mul_one]⟩
  rcases Decidable.eq_or_ne x.mag 0 with h₀ | h₀
  · refine ⟨x, ?_, hx, ?_⟩
    · rw [leftShift_zero st cap (hx.1.mag_eq_zero.mp h₀), map_some, hx.1.normalize]
    · rw [toInt, h₀]
      simp
  · -- the product fits, so no algorithm cuts or misplaces anything
    have hsize := size_le_of_fits hpos hx.1 h₀ hfit
    obtain ⟨hexp, hlimb⟩ := leftExponent_of_fits hw hmax hsize hx.1.1 hst
    have hs : s < 2 ^ 67 := by
      have := Nat.lt_mul_div_succ s hpos
      have := Nat.mul_le_mul_left w (show s / w + 1 ≤ cap by have := hx.1.1; omega)
      omega
    obtain ⟨y, hy, hto⟩ := leftShift_spec hw hx.1 hcap hmax hs hst hlimb
    rw [hexp] at hto
    have hmag := hto.mag_eq
    rw [Nat.mod_eq_of_lt hfit] at hmag
    have hy₀ : y.mag ≠ 0 := by
      rw [hmag]
      exact Nat.mul_ne_zero h₀ (Nat.two_pow_pos s).ne'
    -- the sign is only lost with the value
    have hsign := hto.sign_eq.resolve_right fun h => hy₀ h.1
    obtain ⟨htrim, hnorm⟩ := normalize_spec hto.size_pos
    refine ⟨y.normalize, by rw [hy]; rfl, canonical_iff.mpr ⟨htrim, fun h => absurd (hnorm ▸ h) hy₀⟩, ?_⟩
    rw [toInt, sign_normalize, hsign, hnorm, hmag, toInt]
    split
    · push_cast
      ring
    · push_cast
      rfl

/-! ### What does not fit -/

/-- No algorithm leaves more limbs than the storage holds. -/
theorem leftShift_size_le (hcap : x.size ≤ cap) (hpos : 0 < cap) (st : ShiftStrategy)
    (h : leftShift st cap x s = some y) : y.size ≤ cap := by
  cases st with
  | limb =>
    obtain rfl : leftShiftLimb cap x s = y := some.inj h
    unfold leftShiftLimb
    dsimp only
    split
    · exact hcap
    · split
      · rwa [size_assignLimb]
      · exact Nat.min_le_right _ _
  | byte =>
    change leftShiftByte cap x s = some y at h
    unfold leftShiftByte at h
    dsimp only at h
    split at h
    · obtain rfl := some.inj h
      exact hcap
    split at h
    · cases h
    split at h
    · obtain rfl := some.inj h
      rwa [size_assignLimb]
    · obtain rfl := some.inj h
      split
      · exact Nat.min_le_right _ _
      · exact Nat.min_le_right _ _
  | generic =>
    obtain rfl : leftShiftGeneric cap x s = y := some.inj h
    unfold leftShiftGeneric
    dsimp only
    split
    · exact hcap
    split
    · rwa [size_assignLimb]
    split
    · split
      · exact Nat.min_le_right _ _
      · exact Nat.min_le_right _ _
    · exact Nat.min_le_right _ _

theorem fits_of_evalLeftShiftBy (hx : 0 < x.size) (hcap : x.size ≤ cap) {st : ShiftStrategy}
    (h : evalLeftShiftBy st cap x s = some y) (hy : y.Represents (x.toInt * 2 ^ s)) :
    x.mag * 2 ^ s < 2 ^ (w * cap) := by
  have hsize : y.size ≤ cap := by
    unfold evalLeftShiftBy at h
    split at h
    · obtain rfl := some.inj h
      exact hcap
    · obtain ⟨z, hz, rfl⟩ := map_eq_some_iff.mp h
      exact (normalize_size_le z).trans (leftShift_size_le hcap (by omega) st hz)
  have hmag : y.mag = x.mag * 2 ^ s := by
    rw [hy.mag_eq, Int.natAbs_mul, toInt_natAbs, Int.natAbs_pow]
    rfl
  rw [← hmag, pow_mul]
  exact y.mag_lt.trans_le (Nat.pow_le_pow_right (Nat.two_pow_pos w) hsize)

/-! ### Every configuration -/

/-- The same limbs, size and sign. -/
def SameNumber (x y : CppInt w) : Prop :=
  x.size = y.size ∧ x.sign = y.sign ∧ ∀ i < x.size, x.limbs i = y.limbs i

theorem Represents.same {z : ℤ} (hx : x.Represents z) (hy : y.Represents z) : SameNumber x y :=
  hx.canonical.ext hy.canonical (hx.toInt_eq.trans hy.toInt_eq.symm)

/-- **Shifts of the allocating backend** are exact in every configuration: to the left exactly where
the product fits the storage, to the right wherever the limb offset fits `limb_type`, and there the
algorithms agree. -/
theorem shifts_exact (hw : LimbWidth w) (hmax : w * cap ≤ 2 ^ 32) (hx : x.Canonical)
    (hcap : x.size ≤ cap) (s : ℕ) :
    (∀ config, (∃ y, evalLeftShift config cap x s = some y ∧ y.Represents (x.toInt * 2 ^ s)) ↔
      x.mag * 2 ^ s < 2 ^ (w * cap)) ∧
    (s / w < 2 ^ w → ∀ config, (evalRightShift config x s).Represents (x.toInt / 2 ^ s)) ∧
    ∀ st st', st.Applies w s → st'.Applies w s →
      (x.mag * 2 ^ s < 2 ^ (w * cap) → ∃ y y', evalLeftShiftBy st cap x s = some y ∧
        evalLeftShiftBy st' cap x s = some y' ∧ SameNumber y y') ∧
      (s / w < 2 ^ w → SameNumber (evalRightShiftBy st x s) (evalRightShiftBy st' x s)) := by
  have hsize : w * x.size ≤ 2 ^ 32 := (Nat.mul_le_mul_left w hcap).trans hmax
  refine ⟨fun config => ⟨?_, fun hfit => ?_⟩, fun hs config => ?_, fun st st' hst hst' => ⟨fun hfit => ?_,
    fun hs => ?_⟩⟩
  · rintro ⟨y, h, hy⟩
    exact fits_of_evalLeftShiftBy hx.1.1 hcap h hy
  · exact evalLeftShiftBy_spec hw hmax hx hcap hfit (strategy_applies hw config s)
  · exact evalRightShiftBy_spec hw hx hsize hs (strategy_applies hw config s)
  · obtain ⟨y, h, hy⟩ := evalLeftShiftBy_spec hw hmax hx hcap hfit hst
    obtain ⟨y', h', hy'⟩ := evalLeftShiftBy_spec hw hmax hx hcap hfit hst'
    exact ⟨y, y', h, h', hy.same hy'⟩
  · exact (evalRightShiftBy_spec hw hx hsize hs hst).same (evalRightShiftBy_spec hw hx hsize hs hst')

/-- One, in a single limb. -/
def one64 : CppInt 64 := ⟨fun _ => 1, 1, false⟩

/-- `-(2 ^ 64 + 5)`. -/
def minus64 : CppInt 64 := ⟨fun i => [5, 1].getD i 0, 2, true⟩

/-- Two limbs, shifted across a limb in either direction. -/
theorem shifts_exact_two_limbs :
    (∃ y, evalLeftShift .littleEndian (2 ^ 26) minus64 70 = some y ∧
      y.Represents (minus64.toInt * 2 ^ 70)) ∧
    (evalRightShift .littleEndian minus64 3).Represents (minus64.toInt / 2 ^ 3) := by
  have hmax : 64 * 2 ^ 26 ≤ 2 ^ 32 := by decide
  have hfit : minus64.mag * 2 ^ 70 < 2 ^ (64 * 2 ^ 26) :=
    (show minus64.mag * 2 ^ 70 < 2 ^ 256 by decide).trans_le (Nat.pow_le_pow_right (by decide) (by decide))
  exact ⟨((shifts_exact (Or.inr rfl) hmax (by decide) (by decide) 70).1 _).mpr hfit,
    (shifts_exact (Or.inr rfl) hmax (by decide) (by decide) 3).2.1 (by decide) _⟩

/-- `1 << 2 ^ 32` needs one limb more than `max_limbs`: zero is left. -/
theorem leftShift_past_max : ∃ y, evalLeftShift .littleEndian (2 ^ 26) one64 (64 * 2 ^ 26) = some y ∧
    y.toInt = 0 ∧ ¬ y.Represents (one64.toInt * 2 ^ (64 * 2 ^ 26)) := by
  have hone : one64.Trimmed := by decide
  have hlimb : HasLimb one64 (64 * 2 ^ 26) .byte := fun _ => by decide
  obtain ⟨y, hy, hto⟩ := leftShift_spec (Or.inr rfl) hone (by decide) (show 64 * 2 ^ 26 ≤ 2 ^ 32 by decide)
    (by decide) (show ShiftStrategy.byte.Applies 64 (64 * 2 ^ 26) from
      (by decide : 64 * 2 ^ 26 % 8 = 0)) hlimb
  have hmag : y.normalize.mag = 0 :=
    ((normalize_spec hto.size_pos).2.trans hto.mag_eq).trans (shift_past (Nat.le_refl _))
  have hzero : y.normalize.toInt = 0 := by
    rw [toInt, hmag]
    split <;> rfl
  refine ⟨y.normalize, congrArg (Option.map normalize) hy, hzero, fun hrep => ?_⟩
  have hval := hrep.toInt_eq
  rw [hzero] at hval
  exact absurd hval.symm (Int.mul_ne_zero (by decide) (pow_ne_zero _ (by decide)))

end SourceLibs.CppInt
