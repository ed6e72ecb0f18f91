import SourceLibs.CppInt.Add

/-!
# CppInt — increment, decrement and complement

`eval_increment`, `eval_decrement` of `cpp_int/add.hpp`, `eval_complement` of `cpp_int/bitwise.hpp` and
`eval_eq` with a limb, on the unbounded backend.  Each of the first two changes the lowest limb alone
where no carry or borrow leaves it, without looking at the sign again.

* `mag_store_zero`, `Trimmed.store_zero`: what a change of the lowest limb does.
* `evalIncrement_spec`, `evalIncrement_neg_one`: the increment, and the negative zero it makes of `-1`.
* `increment_exact_iff`: the three operations are exact where the result fits, the increment not of `-1`.
-/

namespace SourceLibs.CppInt
open Bool BitVec

variable {w : ℕ} {x r : CppInt w}

/-- `eval_increment`. -/
def evalIncrement (result : CppInt w) : CppInt w :=
  if !result.sign && decide (result.limbs 0 < BitVec.allOnes w) then
    result.store 0 (result.limbs 0 + 1)
  else if result.sign && result.limbs 0 != 0 then result.store 0 (result.limbs 0 - 1)
  else evalAddLimb result .result 1

/-- `eval_complement`: `result = o; eval_increment(result); result.negate();`. -/
def evalComplement (result : CppInt w) (o : Operand w) : CppInt w :=
  (evalIncrement (copyFrom result o)).negate

/-- `eval_eq` with a limb. -/
def evalEqLimb (a : CppInt w) (b : BitVec w) : Bool :=
  a.sign == false && a.size == 1 && a.limbs 0 == b

/-! ### The lowest limb -/

theorem mag_store_zero (hx : 0 < x.size) (v : BitVec w) :
    (x.store 0 v).mag + (x.limbs 0).toNat = x.mag + v.toNat := by
  have h := natOf_update_of_lt x.limbs hx v
  rwa [pow_zero, Nat.mul_one, Nat.mul_one] at h

theorem Trimmed.store_zero (h : x.Trimmed) (v : BitVec w) : (x.store 0 v).Trimmed := by
  refine ⟨h.1, ?_⟩
  by_cases h₁ : x.size = 1
  · exact Or.inl h₁
  · refine Or.inr ?_
    have hpos := h.1
    rw [size_store, limbs_store, Function.update_of_ne (by omega)]
    exact h.2.resolve_left h₁

theorem Trimmed.represents_toInt (h : x.Trimmed) (hz : x.mag = 0 → x.sign = false) :
    x.Represents x.toInt := ⟨canonical_iff.mpr ⟨h, hz⟩, rfl⟩

/-- **`eval_eq` with a limb** decides equality. -/
theorem Represents.evalEqLimb_iff {z : ℤ} (h : x.Represents z) (b : BitVec w) :
    evalEqLimb x b = true ↔ z = b.toNat := by
  have hs := h.canonical.sign_eq
  have hm := h.mag_eq
  have hz := h.toInt_eq
  rw [evalEqLimb, and_eq_true, and_eq_true, beq_iff_eq, beq_iff_eq, beq_iff_eq]
  constructor
  · rintro ⟨⟨hsign, hsize⟩, hlimb⟩
    rw [toInt_of_sign hsign, mag, hsize, natOf_one, hlimb] at hz
    exact hz.symm
  · intro hzb
    have hsign : x.sign = false := h.sign_of_nonneg (by omega)
    have hmag : x.mag = b.toNat := by omega
    have hsize : x.size = 1 := by
      have hle := h.canonical.1.size_le Nat.one_pos (by rw [pow_one, hmag]; exact b.isLt)
      have hpos := h.canonical.1.1
      omega
    refine ⟨⟨hsign, hsize⟩, eq_of_toNat_eq ?_⟩
    rw [← hmag, mag, hsize, natOf_one]

/-! ### One more, one less -/

/-- An increment has at most `max_limbs` limbs, or the two of a double limb. -/
theorem size_evalIncrement_le (hxm : x.size ≤ maxLimbs w) : (evalIncrement x).size ≤ max 2 (maxLimbs w) := by
  have hle := hxm.trans (Nat.le_max_right 2 _)
  unfold evalIncrement
  split
  · exact hle
  split
  · exact hle
  · unfold evalAddLimb
    split
    · exact size_subtractUnsignedLimb_le.trans (Nat.le_max_right _ _)
    · exact size_addUnsignedLimb_le

section
variable (hw : 0 < w)
include hw

theorem toNat_one_limb : (1 : BitVec w).toNat = 1 := by
  rw [ofNat_eq_ofNat, toNat_ofNat, Nat.mod_eq_of_lt (Nat.one_lt_two_pow hw.ne')]

theorem toNat_succ {v : BitVec w} (h : v < BitVec.allOnes w) : (v + 1).toNat = v.toNat + 1 := by
  rw [lt_def, toNat_allOnes] at h
  rw [BitVec.toNat_add, toNat_one_limb hw]
  exact Nat.mod_eq_of_lt (by omega)

theorem toNat_pred {v : BitVec w} (h : v ≠ 0) : (v - 1).toNat + 1 = v.toNat := by
  have hpos : v.toNat ≠ 0 := fun e => h (toNat_eq_zero.mp e)
  rw [BitVec.toNat_sub_of_le (BitVec.le_def.mpr (by rw [toNat_one_limb hw]; omega)),
    toNat_one_limb hw]
  omega

/-- A carry does not leave the lowest limb. -/
theorem store_succ (hx : x.Trimmed) (h : x.limbs 0 < BitVec.allOnes w) :
    (x.store 0 (x.limbs 0 + 1)).Represents (if x.sign then x.toInt - 1 else x.toInt + 1) := by
  have hm := mag_store_zero hx.1 (x.limbs 0 + 1)
  rw [toNat_succ hw h] at hm
  have ht : (x.store 0 (x.limbs 0 + 1)).Represents (x.store 0 (x.limbs 0 + 1)).toInt :=
    (hx.store_zero _).represents_toInt fun h₀ => by omega
  have e : (x.store 0 (x.limbs 0 + 1)).toInt = if x.sign then x.toInt - 1 else x.toInt + 1 := by
    rw [toInt, toInt, sign_store, show (x.store 0 (x.limbs 0 + 1)).mag = x.mag + 1 by omega]
    split <;> push_cast <;> ring
  rwa [e] at ht

/-- No borrow leaves the lowest limb; a number that becomes zero must not be negative. -/
theorem store_pred (hx : x.Trimmed) (h : x.limbs 0 ≠ 0) (hz : x.toInt ≠ -1) :
    (x.store 0 (x.limbs 0 - 1)).Represents (if x.sign then x.toInt + 1 else x.toInt - 1) := by
  have hm := mag_store_zero hx.1 (x.limbs 0 - 1)
  have hp := toNat_pred hw h
  have ht : (x.store 0 (x.limbs 0 - 1)).Represents (x.store 0 (x.limbs 0 - 1)).toInt := by
    refine (hx.store_zero _).represents_toInt fun h₀ => ?_
    rw [sign_store]
    by_contra hs
    have : x.sign = true := by simpa using hs
    refine hz ?_
    rw [toInt, this, if_pos rfl, show x.mag = 1 by omega]
    rfl
  have e : (x.store 0 (x.limbs 0 - 1)).toInt = if x.sign then x.toInt + 1 else x.toInt - 1 := by
    have hm' : ((x.store 0 (x.limbs 0 - 1)).mag : ℤ) = x.mag - 1 := by omega
    rw [toInt, toInt, sign_store, hm']
    split <;> ring
  rwa [e] at ht

/-- **The increment of `-1`** is a zero that keeps the sign. -/
theorem evalIncrement_neg_one (hx : x.Canonical) (hz : x.toInt = -1) :
    evalIncrement x = x.store 0 0 ∧ (evalIncrement x).sign = true ∧ (evalIncrement x).size = 1 := by
  have hsign : x.sign = true := by
    rw [hx.sign_eq, hz]
    rfl
  have hmag : x.mag = 1 := by
    rw [← toInt_natAbs, hz]
    rfl
  have hsize : x.size = 1 := by
    have hle := hx.1.size_le Nat.one_pos (by
      rw [pow_one, hmag]
      exact Nat.one_lt_two_pow hw.ne')
    have hpos := hx.1.1
    omega
  have hlimb : x.limbs 0 = 1 := by
    refine eq_of_toNat_eq ?_
    rw [mag, hsize, natOf_one] at hmag
    rw [hmag, toNat_one_limb hw]
  have e : evalIncrement x = x.store 0 0 := by
    unfold evalIncrement
    rw [hsign, hlimb]
    simp [hw.ne']
  exact ⟨e, by rw [e]; exact hsign, by rw [e]; exact hsize⟩

variable (hw' : w < 2 ^ 30)
include hw'

/-- **`eval_increment`**, of a number other than `-1`. -/
theorem evalIncrement_iff (hx : x.Canonical) (hxm : x.size ≤ maxLimbs w) (hz : x.toInt ≠ -1) :
    (evalIncrement x).Represents (x.toInt + 1) ↔ Fits w (x.toInt + 1) := by
  refine represents_iff_fits hw' (size_evalIncrement_le hxm) fun hfit => ?_
  unfold evalIncrement
  split
  · rename_i h
    rw [and_eq_true, not_eq_true', decide_eq_true_eq] at h
    have := store_succ hw hx.1 h.2
    rwa [h.1, if_neg Bool.false_ne_true] at this
  · split
    · rename_i h
      rw [and_eq_true, bne_iff_ne] at h
      have := store_pred hw hx.1 h.2 hz
      rwa [h.1, if_pos rfl] at this
    · have h := evalAddLimb_iff (r := x) (a := .result) (o := 1) hw' hx.1 hxm
      rw [toNat_one_limb hw] at h
      exact h.mpr hfit

/-- **`eval_decrement`**, also of a negative zero. -/
theorem evalDecrement_iff (hx : x.Trimmed) (hxm : x.size ≤ maxLimbs w) :
    (evalDecrement x).Represents (x.toInt - 1) ↔ Fits w (x.toInt - 1) := by
  have hle := hxm.trans (Nat.le_max_right 2 _)
  unfold evalDecrement
  split
  · rename_i h
    rw [and_eq_true, not_eq_true', bne_iff_ne] at h
    have hnonneg : x.toInt ≠ -1 := by
      rw [toInt_of_sign h.1]
      omega
    have := store_pred hw hx h.2 hnonneg
    rw [h.1, if_neg Bool.false_ne_true] at this
    exact represents_iff_fits hw' hle fun _ => this
  · split
    · rename_i h
      rw [and_eq_true, decide_eq_true_eq] at h
      have := store_succ hw hx h.2
      rw [h.1, if_pos rfl] at this
      exact represents_iff_fits hw' hle fun _ => this
    · have h := evalSubtractLimb_iff (r := x) (a := .result) (o := 1) hw' hx hxm
      rwa [toNat_one_limb hw] at h

/-- **`eval_complement`**, also of `-1`: the negation takes the sign off again. -/
theorem evalComplement_iff (r : CppInt w) (o : Operand w) (ho : (o.get r).Canonical)
    (hom : (o.get r).size ≤ maxLimbs w) :
    (evalComplement r o).Represents (-(o.get r).toInt - 1) ↔ Fits w (-(o.get r).toInt - 1) := by
  have hcopy := copyFrom_spec r o ho
  have hcm := hcopy.size_le (by rw [Fits, toInt_natAbs]; exact mag_lt_max hom)
  obtain ⟨hc, hv⟩ := hcopy
  refine represents_iff_fits hw' (size_evalIncrement_le hcm) fun hfit => ?_
  unfold evalComplement
  by_cases hz : (copyFrom r o).toInt = -1
  · obtain ⟨e, hs, hn⟩ := evalIncrement_neg_one hw hc hz
    have hn' : (copyFrom r o).size = 1 := by rw [e] at hn; exact hn
    rw [← hv, hz, negate, hs, e]
    have ht : ((copyFrom r o).store 0 0).Trimmed := hc.1.store_zero 0
    have h := ht.setSign_represents false
    have hm : ((copyFrom r o).store 0 0).mag = 0 := by
      rw [mag, size_store, hn', natOf_one, limbs_store, Function.update_self]
      exact toNat_eq_zero.mpr rfl
    rw [hm] at h
    exact h
  · have h := ((evalIncrement_iff hw hw' hc hcm hz).mpr (by rw [Fits, hv] at *; omega)).negate
    rw [hv] at h
    rwa [show -(o.get r).toInt - 1 = -((o.get r).toInt + 1) by ring]

/-- **Increment, decrement and complement are exact where the result fits**, the increment not of `-1`:
then each yields the canonical representation, and `eval_eq` with a limb decides equality on it.  The
increment of `-1` is a negative zero. -/
theorem increment_exact_iff (hx : x.Canonical) (hxm : x.size ≤ maxLimbs w) :
    ((evalIncrement x).Represents (x.toInt + 1) ∧
      (∀ b, evalEqLimb (evalIncrement x) b = true ↔ x.toInt + 1 = b.toNat) ↔
        x.toInt ≠ -1 ∧ Fits w (x.toInt + 1)) ∧
    ((evalDecrement x).Represents (x.toInt - 1) ∧
      (∀ b, evalEqLimb (evalDecrement x) b = true ↔ x.toInt - 1 = b.toNat) ↔ Fits w (x.toInt - 1)) ∧
    ∀ (r : CppInt w) (o : Operand w), o.get r = x →
      ((evalComplement r o).Represents (-x.toInt - 1) ↔ Fits w (-x.toInt - 1)) := by
  refine ⟨⟨?_, fun ⟨hz, hfit⟩ => ?_⟩, ⟨fun h => (evalDecrement_iff hw hw' hx.1 hxm).mp h.1, fun hfit => ?_⟩,
    fun r o ho => ho ▸ evalComplement_iff hw hw' r o (ho ▸ hx) (ho ▸ hxm)⟩
  · rintro ⟨h, -⟩
    have hz : x.toInt ≠ -1 := fun hz => by
      obtain ⟨-, hs, -⟩ := evalIncrement_neg_one hw hx hz
      rw [hz] at h
      rw [h.sign_of_nonneg (by decide)] at hs
      cases hs
    exact ⟨hz, (evalIncrement_iff hw hw' hx hxm hz).mp h⟩
  · have h := (evalIncrement_iff hw hw' hx hxm hz).mpr hfit
    exact ⟨h, h.evalEqLimb_iff⟩
  · have h := (evalDecrement_iff hw hw' hx.1 hxm).mpr hfit
    exact ⟨h, h.evalEqLimb_iff⟩

end

/-- `eval_increment` of `-1` in limbs of 8 bits: not canonical, and not equal to zero. -/
theorem evalIncrement_negative_zero :
    (⟨fun _ => 1, 1, true⟩ : CppInt 8).Canonical ∧
      (⟨fun _ => 1, 1, true⟩ : CppInt 8).toInt = -1 ∧
      ¬ (evalIncrement (⟨fun _ => 1, 1, true⟩ : CppInt 8)).Canonical ∧
      evalEqLimb (evalIncrement (⟨fun _ => 1, 1, true⟩ : CppInt 8)) 0 = false := by
  decide

/-- The increment of `-256`, where a borrow leaves the lowest limb. -/
theorem increment_exact_iff_borrow :
    (evalIncrement (⟨fun i => BitVec.ofNat 8 i, 2, true⟩ : CppInt 8)).Represents (-255) := by
  have hfit : Fits 8 (-255) := (show (-255 : ℤ).natAbs < (2 ^ 8) ^ 1 by decide).trans_le
    (Nat.pow_le_pow_right (by decide) maxLimbs_pos)
  have h := ((increment_exact_iff (w := 8) (by decide) (by decide) (x := ⟨fun i => BitVec.ofNat 8 i, 2, true⟩)
    (by decide) (by decide)).1.mpr ⟨by decide, hfit⟩).1
  rwa [show (⟨fun i => BitVec.ofNat 8 i, 2, true⟩ : CppInt 8).toInt + 1 = -255 by decide] at h

end SourceLibs.CppInt
