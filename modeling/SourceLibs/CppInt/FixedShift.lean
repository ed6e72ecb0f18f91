import SourceLibs.CppInt.UnboundedShift

/-!
# CppInt — left shifts of the fixed unsigned backend

`cpp_int_base<MinBits, MinBits, unsigned_magnitude, unchecked, void>`: `internal_limb_count` limbs,
the top one cut to `MinBits` by `normalize`.  The sign is never set.

* `normalizeFixed_spec`: the number modulo `2 ^ MinBits`.
* `leftShift_wraps_iff`: when `eval_left_shift` is the product modulo `2 ^ MinBits`.
* `leftShift_misplaces`: a carry out of a full number moves every limb one too high.
-/

namespace SourceLibs.CppInt
open Nat PowersOfTwo Words

variable {w minBits : ℕ} {x y : CppInt w} {s : ℕ}

/-! ### The storage -/

/-- The limbs of so many bits. -/
def internalLimbCount (w minBits : ℕ) : ℕ := minBits / w + if minBits % w ≠ 0 then 1 else 0

/-- The bits of the last limb that are used. -/
def upperLimbMask (w minBits : ℕ) : BitVec w :=
  if minBits % w ≠ 0 then (1#w <<< (minBits % w)) - 1 else ~~~(0#w)

/-- `normalize()` of the fixed backend: the top limb of the storage is masked in any case. -/
def normalizeFixed (minBits : ℕ) (x : CppInt w) : CppInt w :=
  let top := internalLimbCount w minBits - 1
  (x.store top (x.limbs top &&& upperLimbMask w minBits)).normalize

/-- `eval_left_shift` of the fixed backend. -/
def evalLeftShiftFixed (config : ShiftConfig) (minBits : ℕ) (result : CppInt w) (s : ℕ) :
    Option (CppInt w) :=
  if s = 0 then some result
  else (leftShift (strategy w config s) (internalLimbCount w minBits) result s).map
    (normalizeFixed minBits)

/-- A normalised number of the fixed backend. -/
structure Normalized (minBits : ℕ) (x : CppInt w) : Prop where
  trimmed : x.Trimmed
  sign_eq : x.sign = false
  mag_lt : x.mag < 2 ^ minBits

theorem limbCount_bounds (hw : 0 < w) (hmin : 0 < minBits) :
    minBits ≤ w * internalLimbCount w minBits ∧ w * (internalLimbCount w minBits - 1) < minBits :=
  roundUp_bounds hw hmin

theorem limbCount_max (hw : LimbWidth w) (hmin : minBits < 2 ^ 32) :
    w * internalLimbCount w minBits ≤ 2 ^ 32 := by
  rw [internalLimbCount]
  rcases hw with rfl | rfl
  · split <;> omega
  · split <;> omega

theorem Normalized.size_le (hw : 0 < w) (hmin : 0 < minBits) (hx : Normalized minBits x) :
    x.size ≤ internalLimbCount w minBits := by
  obtain ⟨hle, hgt⟩ := limbCount_bounds hw hmin
  refine hx.trimmed.size_le (Nat.pos_of_mul_pos_left (hmin.trans_le hle)) (hx.mag_lt.trans_le ?_)
  rw [← pow_mul]
  exact Nat.pow_le_pow_right Nat.two_pos hle

theorem getLsbD_upperLimbMask {r : ℕ} (hr : r < w) :
    (upperLimbMask w minBits).getLsbD r = decide (minBits % w = 0 ∨ r < minBits % w) := by
  have hmod := mod_lt minBits (show 0 < w by omega)
  rw [upperLimbMask]
  split
  · rename_i h
    have hmask : (lowMask w (minBits % w)).getLsbD r = decide (r < minBits % w) := getLsbD_lowMask hr
    rw [lowMask, if_neg (Nat.not_le.mpr hmod)] at hmask
    rw [hmask]
    exact decide_eq_decide.mpr (by omega)
  · rename_i h
    rw [BitVec.getLsbD_not, BitVec.getLsbD_zero, decide_eq_true hr,
      decide_eq_true (Or.inl (Classical.not_not.mp h))]
    rfl

theorem upperLimbMask_place {r : ℕ} (hr : r < w) (hmin : 0 < minBits) :
    (upperLimbMask w minBits).getLsbD r =
      decide (w * (internalLimbCount w minBits - 1) + r < minBits) := by
  have hdm := div_add_mod minBits w
  rw [getLsbD_upperLimbMask hr, internalLimbCount]
  refine decide_eq_decide.mpr ?_
  split
  · rw [Nat.add_sub_cancel]
    omega
  · rename_i h
    rw [Nat.add_zero, Nat.mul_sub, Nat.mul_one]
    have hle : w ≤ w * (minBits / w) := Nat.le_mul_of_pos_right _ (Nat.pos_of_ne_zero fun h₀ => by
      rw [h₀, Nat.mul_zero] at hdm
      omega)
    exact iff_of_true (Or.inl (Classical.not_not.mp h)) (by omega)

/-- **`normalize()` of the fixed backend** cuts the number to `MinBits`. -/
theorem normalizeFixed_spec [NeZero w] (hmin : 0 < minBits) (hy : 0 < y.size)
    (hsize : y.size ≤ internalLimbCount w minBits) :
    (normalizeFixed minBits y).Trimmed ∧ (normalizeFixed minBits y).mag = y.mag % 2 ^ minBits ∧
      (normalizeFixed minBits y).sign = y.sign := by
  obtain ⟨-, hgt⟩ := limbCount_bounds (NeZero.pos w) hmin
  obtain ⟨htrim, hmag⟩ := normalize_spec (x := y.store (internalLimbCount w minBits - 1)
    (y.limbs (internalLimbCount w minBits - 1) &&& upperLimbMask w minBits)) hy
  refine ⟨htrim, hmag.trans (eq_of_testBit_eq fun k => ?_), rfl⟩
  have hplace := fun r (hr : r < w) => upperLimbMask_place hr hmin
  have htop : y.size ≤ internalLimbCount w minBits - 1 + 1 := by omega
  generalize internalLimbCount w minBits - 1 = top at *
  rw [testBit_mod_two_pow, mag, mag, testBit_natOf, testBit_natOf, size_store, limbs_store]
  by_cases hk : k < w * y.size
  · rw [decide_eq_true hk, Bool.true_and, Bool.true_and, bitAt, bitAt]
    have hlt := Nat.div_lt_of_lt_mul hk
    have hdm := div_add_mod k w
    have hr := mod_lt k (NeZero.pos w)
    by_cases h : k / w = top
    · rw [h, Function.update_self, BitVec.getLsbD_and, hplace _ hr, ← h, hdm, Bool.and_comm]
    · have hle := Nat.mul_le_mul_left w (show k / w + 1 ≤ top by omega)
      rw [Nat.mul_succ] at hle
      rw [Function.update_of_ne h, decide_eq_true (by omega), Bool.true_and]
  · rw [decide_eq_false hk, Bool.false_and, Bool.false_and, Bool.and_false]

/-! ### Exactness -/

/-- A left shift leaves the normalised product modulo `2 ^ MinBits`. -/
def LeavesProduct (config : ShiftConfig) (minBits : ℕ) (x : CppInt w) (s : ℕ) : Prop :=
  ∃ y, evalLeftShiftFixed config minBits x s = some y ∧
    y.Represents (x.mag * 2 ^ s % 2 ^ minBits : ℕ)

/-- The condition for an algorithm: the limb count does not wrap to zero, and the power of two it
multiplies by is the one asked for, or both products vanish. -/
def LeftShiftExact (minBits : ℕ) (x : CppInt w) (s : ℕ) : ShiftStrategy → Prop
  | .byte => x.mag = 0 ∨ ¬ 2 ^ 32 ∣ x.size + extraLimbs x (s % w) + limbCast w (s / w)
  | st =>
    leftExponent (internalLimbCount w minBits) x s st = s ∨
      2 ^ minBits ∣ x.mag * 2 ^ min (leftExponent (internalLimbCount w minBits) x s st) s

theorem leftShift_normalizeFixed (hw : LimbWidth w) (hmin : 0 < minBits) (hmax : minBits < 2 ^ 32)
    (hx : Normalized minBits x) (hs : s < 2 ^ 64) {st : ShiftStrategy} (hst : st.Applies w s)
    (hlimb : HasLimb x s st) :
    ∃ y, leftShift st (internalLimbCount w minBits) x s = some y ∧
      (normalizeFixed minBits y).Represents
        (x.mag * 2 ^ leftExponent (internalLimbCount w minBits) x s st % 2 ^ minBits : ℕ) := by
  have := hw.neZero
  obtain ⟨hle, -⟩ := limbCount_bounds (NeZero.pos w) hmin
  obtain ⟨y, hy, hto⟩ := leftShift_spec hw hx.trimmed (hx.size_le (NeZero.pos w) hmin)
    (limbCount_max hw hmax) (show s < 2 ^ 67 by omega) hst hlimb
  obtain ⟨htrim, hmag, hsign⟩ := normalizeFixed_spec hmin hto.size_pos hto.size_le
  have hneg : y.sign = false := by
    rcases hto.sign_eq with h | h
    · rw [h, hx.sign_eq]
    · exact h.2
  have hrep := htrim.represents (hsign.trans hneg)
  rw [hmag, hto.mag_eq, mod_mod_of_dvd _ (Nat.pow_dvd_pow 2 hle)] at hrep
  exact ⟨y, hy, hrep⟩

theorem leftShiftByte_eq_none {cap : ℕ} (h₀ : x.mag ≠ 0) (hx : x.Trimmed)
    (h : shiftedSize x (limbCast w (s / w)) (s % w) = 0) : leftShift .byte cap x s = none := by
  show leftShiftByte cap x s = none
  rw [leftShiftByte]
  simp only [if_neg fun h => h₀ (hx.mag_eq_zero.mpr h), h]
  exact if_pos (Nat.zero_min cap)

theorem hasLimb_byte_iff :
    HasLimb x s .byte ↔ x.mag = 0 ∨ ¬ 2 ^ 32 ∣ x.size + extraLimbs x (s % w) + limbCast w (s / w) := by
  rw [HasLimb, shiftedSize_eq, uint, or_iff_not_imp_left]
  simp only [dvd_iff_mod_eq_zero, ne_eq]

theorem leftShiftExact_zero (hx : 0 < x.size) (hsize : x.size < 2 ^ 32) {st : ShiftStrategy}
    (hst : st.Applies w 0) : LeftShiftExact minBits x 0 st := by
  have hzero : limbCast w (0 / w) = 0 := by
    rw [Nat.zero_div]
    exact zero_mod _
  cases st with
  | limb =>
    refine Or.inl ?_
    rw [leftExponent, hzero, Nat.mul_zero]
  | byte =>
    refine Or.inr fun h => ?_
    rw [hzero, zero_mod, extraLimbs_zero] at h
    have := Nat.le_of_dvd (by omega) h
    omega
  | generic => exact absurd (zero_mod w) hst

/-- **Left shifts of the fixed backend**: the product modulo `2 ^ MinBits` is left exactly under the
condition of the algorithm that runs. -/
theorem leftShift_wraps_iff (hw : LimbWidth w) (hmin : w < minBits) (hmax : minBits < 2 ^ 32)
    (hx : Normalized minBits x) (hs : s < 2 ^ 64) (config : ShiftConfig) :
    LeavesProduct config minBits x s ↔ LeftShiftExact minBits x s (strategy w config s) := by
  have := hw.neZero
  have hst := strategy_applies hw config s
  rw [LeavesProduct, evalLeftShiftFixed]
  generalize strategy w config s = st at hst
  rcases Decidable.eq_or_ne s 0 with rfl | hs₀
  · have hrep := hx.trimmed.represents hx.sign_eq
    have hsize := hx.size_le (NeZero.pos w) (by omega)
    have hle := limbCount_max hw hmax
    have := Nat.mul_le_mul_right (internalLimbCount w minBits) hw.le
    rw [if_pos rfl, pow_zero, Nat.mul_one, mod_eq_of_lt hx.mag_lt]
    exact iff_of_true ⟨x, rfl, hrep⟩ (leftShiftExact_zero hx.trimmed.1 (by omega) hst)
  rw [if_neg hs₀]
  by_cases hlimb : HasLimb x s st
  · obtain ⟨y, hy, hrep⟩ := leftShift_normalizeFixed hw (by omega) hmax hx hs hst hlimb
    -- what is left is the product with another power of two, cut to the bits
    have hiff := shift_mod_eq_iff x.mag (leftExponent (internalLimbCount w minBits) x s st) s minBits
    have hleaves : (∃ z, Option.map (normalizeFixed minBits)
        (leftShift st (internalLimbCount w minBits) x s) = some z ∧
          z.Represents (x.mag * 2 ^ s % 2 ^ minBits : ℕ)) ↔
        x.mag * 2 ^ leftExponent (internalLimbCount w minBits) x s st % 2 ^ minBits =
          x.mag * 2 ^ s % 2 ^ minBits := by
      rw [hy]
      constructor
      · rintro ⟨z, hz, hrep'⟩
        obtain rfl := Option.some.inj hz
        exact Int.natCast_inj.mp (hrep.toInt_eq.symm.trans hrep'.toInt_eq)
      · intro e
        rw [e] at hrep
        exact ⟨_, rfl, hrep⟩
    rw [hleaves, hiff]
    cases st with
    | limb => exact Iff.rfl
    | byte => exact iff_of_true (Or.inl rfl) (hasLimb_byte_iff.mp hlimb)
    | generic => exact Iff.rfl
  · cases st with
    | limb => exact absurd trivial hlimb
    | byte =>
      -- the store to `pr[rs - 1]` is outside the storage
      have h := Classical.not_imp.mp hlimb
      rw [leftShiftByte_eq_none h.1 hx.trimmed (Classical.not_not.mp h.2)]
      refine iff_of_false ?_ fun hexact => hlimb (hasLimb_byte_iff.mpr hexact)
      rintro ⟨y, hy, -⟩
      cases hy
    | generic => exact absurd trivial hlimb

/-- Seven in a number of 256 bits, by more than a limb. -/
theorem leftShift_wraps_iff_seven :
    LeavesProduct .littleEndian 256 (⟨fun _ => 7, 1, false⟩ : CppInt 64) 70 :=
  (leftShift_wraps_iff (Or.inr rfl) (by decide) (by decide) ⟨by decide, rfl, by decide⟩ (by decide)
    .littleEndian).mpr (Or.inl (by decide))

/-- Four limbs of 64 bits, the highest and the lowest bit set. -/
def ends256 : CppInt 64 := ⟨fun i => [1, 0, 0, 0x8000000000000000#64].getD i 0, 4, false⟩

/-- `(2 ^ 255 + 1) << 1` leaves `2 ^ 65`. -/
theorem leftShift_misplaces : ¬ LeavesProduct .littleEndian 256 ends256 1 := by
  have hs : strategy 64 .littleEndian 1 = .generic := rfl
  obtain ⟨y, hy, hrep⟩ := leftShift_normalizeFixed (s := 1) (Or.inr rfl) (by decide) (by decide)
    (⟨by decide, rfl, by decide⟩ : Normalized 256 ends256) (by decide)
    (strategy_applies (Or.inr rfl) .littleEndian 1) trivial
  rintro ⟨z, hz, hrep'⟩
  rw [hs] at hy hrep
  rw [evalLeftShiftFixed, if_neg Nat.one_ne_zero, hs, hy] at hz
  obtain rfl := Option.some.inj hz
  have h := Int.natCast_inj.mp (hrep.toInt_eq.symm.trans hrep'.toInt_eq)
  exact absurd h (by decide)

end SourceLibs.CppInt
