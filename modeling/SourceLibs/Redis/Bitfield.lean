import SourceLibs.Support.Bits
import Mathlib.Data.Int.ModEq
import Mathlib.Tactic.NormNum

/-!
# Redis — overflow of bit fields

`checkUnsignedBitfieldOverflow` and `checkSignedBitfieldOverflow` of `bitops.c`.  The values are the
64 bits of a `uint64_t` or an `int64_t`.  A shift by 64 or more is undefined (`none`), and so is a
signed subtraction that overflows.

The signed check takes the differences `maxincr` and `minincr` of its bounds and the value before it
looks at the value, so it is defined only where neither difference overflows.  A field of 64 bits
leaves no room: of its values only zero has both differences.

* `checkUnsigned_detects`: the check of unsigned fields.
* `checkSigned_detects`: the check of signed fields, where the differences are defined.
* `checks_detect_iff`: the values for which both are exact.
-/

namespace SourceLibs.Bitfield
open Option

/-- `BFOVERFLOW_WRAP`, `BFOVERFLOW_SAT` and `BFOVERFLOW_FAIL`. -/
inductive OverflowType where
  | wrap
  | sat
  | fail
  deriving DecidableEq

/-- The value returned, and what is written to `*limit`. -/
structure Outcome where
  result : ℤ
  limit : Option (BitVec 64) := none
  deriving DecidableEq

/-- `x << n`. -/
def shiftLeft (x : BitVec 64) (n : ℕ) : Option (BitVec 64) := if n < 64 then some (x <<< n) else none

/-- The block `if (limit)` and the `return` after it; `goto handle_wrap` ends in `wrapped`. -/
def report (owtype : OverflowType) (limit : Bool) (wrapped : Option Outcome) (result : ℤ)
    (bound : BitVec 64) : Option Outcome :=
  match owtype, limit with
  | .wrap, true => wrapped
  | .sat, true => some ⟨result, some bound⟩
  | _, _ => some ⟨result, none⟩

/-- `handle_wrap`, of unsigned fields. -/
def handleWrapUnsigned (value incr : BitVec 64) (bits : ℕ) : Option Outcome := do
  let mask ← shiftLeft (.allOnes 64) bits
  let res := value + incr
  some ⟨1, some (res &&& ~~~mask)⟩

/-- `max` of an unsigned field. -/
def unsignedMax (bits : ℕ) : Option (BitVec 64) :=
  if bits = 64 then some (.allOnes 64) else (shiftLeft 1#64 bits).map (· - 1#64)

/-- `checkUnsignedBitfieldOverflow`; `limit` says whether the pointer is not null. -/
def checkUnsignedBitfieldOverflow (value incr : BitVec 64) (bits : ℕ) (owtype : OverflowType)
    (limit : Bool) : Option Outcome := do
  let max ← unsignedMax bits
  let maxincr := max - value
  let minincr := -value
  if max.toNat < value.toNat ∨ (0 < incr.toInt ∧ maxincr.toInt < incr.toInt) then
    report owtype limit (handleWrapUnsigned value incr bits) 1 max
  else if incr.toInt < 0 ∧ incr.toInt < minincr.toInt then
    report owtype limit (handleWrapUnsigned value incr bits) (-1) 0
  else some ⟨0, none⟩

/-- A signed subtraction. -/
def signedSub (x y : BitVec 64) : Option (BitVec 64) := if x.ssubOverflow y then none else some (x - y)

/-- `handle_wrap`, of signed fields. -/
def handleWrapSigned (value incr : BitVec 64) (bits : ℕ) : Option Outcome := do
  let mask ← shiftLeft (.allOnes 64) bits
  let msb ← shiftLeft 1#64 (bits - 1)
  let c := value + incr
  some ⟨1, some (if c &&& msb ≠ 0 then c ||| mask else c &&& ~~~mask)⟩

/-- `max` of a signed field. -/
def signedMax (bits : ℕ) : Option (BitVec 64) :=
  if bits = 64 then some (.intMax 64) else (shiftLeft 1#64 (bits - 1)).map (· - 1#64)

/-- `checkSignedBitfieldOverflow`; `limit` says whether the pointer is not null. -/
def checkSignedBitfieldOverflow (value incr : BitVec 64) (bits : ℕ) (owtype : OverflowType)
    (limit : Bool) : Option Outcome := do
  let max ← signedMax bits
  let min := -max - 1#64
  let maxincr ← signedSub max value
  let minincr ← signedSub min value
  if max.toInt < value.toInt ∨ (bits ≠ 64 ∧ maxincr.toInt < incr.toInt) ∨
      (0 ≤ value.toInt ∧ 0 < incr.toInt ∧ maxincr.toInt < incr.toInt) then
    report owtype limit (handleWrapSigned value incr bits) 1 max
  else if value.toInt < min.toInt ∨ (bits ≠ 64 ∧ incr.toInt < minincr.toInt) ∨
      (value.toInt < 0 ∧ incr.toInt < 0 ∧ incr.toInt < minincr.toInt) then
    report owtype limit (handleWrapSigned value incr bits) (-1) min
  else some ⟨0, none⟩

/-! ### What the checks promise -/

/-- Overflow of `sum` over the range from `low` to `high` is detected; `read` is the value of 64 bits
as the type of the field. -/
structure Detects (low high : ℤ) (bits : ℕ) (read : BitVec 64 → ℤ) (sum : ℤ) (owtype : OverflowType)
    (limit : Bool) (o : Outcome) : Prop where
  fits : o.result = 0 ↔ low ≤ sum ∧ sum ≤ high
  above : high < sum → o.result = 1
  below : sum < low → o.result = -1 ∨ owtype = .wrap ∧ o.result = 1
  saturates : owtype = .sat → limit = true →
    (high < sum → o.limit.map read = some high) ∧ (sum < low → o.limit.map read = some low)
  wraps : owtype = .wrap → limit = true → sum < low ∨ high < sum →
    ∃ r, o.limit.map read = some r ∧ low ≤ r ∧ r ≤ high ∧ r ≡ sum [ZMOD 2 ^ bits]

/-- What the check of an unsigned field promises. -/
def DetectsUnsigned (value incr : BitVec 64) (bits : ℕ) (owtype : OverflowType) (limit : Bool)
    (o : Outcome) : Prop :=
  Detects 0 (2 ^ bits - 1) bits (fun x => x.toNat) (value.toNat + incr.toInt) owtype limit o

/-- What the check of a signed field promises. -/
def DetectsSigned (value incr : BitVec 64) (bits : ℕ) (owtype : OverflowType) (limit : Bool)
    (o : Outcome) : Prop :=
  Detects (-2 ^ (bits - 1)) (2 ^ (bits - 1) - 1) bits BitVec.toInt (value.toInt + incr.toInt) owtype
    limit o

/-! ### The words of the checks -/

section

variable {bits : ℕ}

theorem two_pow_le {n m : ℕ} (h : n ≤ m) : (2 : ℤ) ^ n ≤ 2 ^ m := by
  exact_mod_cast Nat.pow_le_pow_right (by omega) h

theorem two_pow_succ_pred (h : 1 ≤ bits) : (2 : ℤ) ^ bits = 2 * 2 ^ (bits - 1) := by
  obtain ⟨k, rfl⟩ := Nat.exists_eq_add_of_le h
  rw [Nat.add_sub_cancel_left, pow_add, pow_one]

theorem toNat_ones {n : ℕ} (h : n < 64) : (1#64 <<< n - 1#64).toNat = 2 ^ n - 1 := by
  have hlt : 2 ^ n < 2 ^ 64 := Nat.pow_lt_pow_right (by omega) h
  have hpos : 0 < 2 ^ n := Nat.pow_pos (by omega)
  have hone : (1#64 <<< n).toNat = 2 ^ n := by
    rw [BitVec.toNat_shiftLeft, Nat.shiftLeft_eq]
    exact (congrArg (· % 2 ^ 64) (Nat.one_mul _)).trans (Nat.mod_eq_of_lt hlt)
  rw [BitVec.toNat_sub_of_le, hone]
  · rfl
  · rw [BitVec.le_def, hone]
    exact hpos

theorem exists_max (h₁ : bits ≤ 63) :
    ∃ m, unsignedMax bits = some m ∧ (m.toNat : ℤ) = 2 ^ bits - 1 := by
  refine ⟨1#64 <<< bits - 1#64, ?_, ?_⟩
  · rw [unsignedMax, if_neg (by omega), shiftLeft, if_pos (by omega), map_some]
  · have hpos : 0 < 2 ^ bits := Nat.pow_pos (by omega)
    rw [toNat_ones (by omega), Nat.cast_sub hpos]
    norm_cast

/-- The largest and the smallest signed value. -/
theorem exists_max_min (h₀ : 1 ≤ bits) (h₁ : bits ≤ 64) :
    ∃ m, signedMax bits = some m ∧ m.toInt = 2 ^ (bits - 1) - 1 ∧
      (-m - 1#64).toInt = -2 ^ (bits - 1) := by
  have hmin : ∀ {m : BitVec 64} {M : ℤ}, 0 < M → M ≤ 2 ^ 63 → m.toInt = M - 1 →
      (-m - 1#64).toInt = -M := by
    intro m M hpos hle hm
    rw [BitVec.toInt_sub, BitVec.toInt_neg, hm]
    have hone : (1#64).toInt = 1 := by decide
    rw [hone, Int.bmod_eq_of_le (n := -(M - 1)) (by omega) (by omega),
      Int.bmod_eq_of_le (by omega) (by omega)]
    omega
  have hpow : (2 : ℤ) ^ (bits - 1) ≤ 2 ^ 63 := two_pow_le (by omega)
  have hpos : (0 : ℤ) < 2 ^ (bits - 1) := by positivity
  by_cases h : bits = 64
  · subst h
    exact ⟨.intMax 64, rfl, by decide, by decide⟩
  · have hones := toNat_ones (n := bits - 1) (by omega)
    have hlt : (2 : ℕ) ^ (bits - 1) ≤ 2 ^ 62 := Nat.pow_le_pow_right (by omega) (by omega)
    have hpos' : 0 < 2 ^ (bits - 1) := Nat.pow_pos (by omega)
    have hm : (1#64 <<< (bits - 1) - 1#64).toInt = 2 ^ (bits - 1) - 1 := by
      rw [BitVec.toInt_eq_toNat_of_lt (by rw [hones]; omega), hones, Nat.cast_sub hpos',
        Nat.cast_pow, Nat.cast_ofNat, Nat.cast_one]
    refine ⟨1#64 <<< (bits - 1) - 1#64, ?_, hm, hmin hpos hpow hm⟩
    rw [signedMax, if_neg h, shiftLeft, if_pos (by omega), map_some]

theorem signedSub_spec (x y : BitVec 64) :
    (-2 ^ 63 ≤ x.toInt - y.toInt ∧ x.toInt - y.toInt < 2 ^ 63 ∧
      ∃ z, signedSub x y = some z ∧ z.toInt = x.toInt - y.toInt) ∨
    (¬ (-2 ^ 63 ≤ x.toInt - y.toInt ∧ x.toInt - y.toInt < 2 ^ 63) ∧ signedSub x y = none) := by
  have hover : x.ssubOverflow y = true ↔
      ¬ (-2 ^ 63 ≤ x.toInt - y.toInt ∧ x.toInt - y.toInt < 2 ^ 63) := by
    simp only [BitVec.ssubOverflow, Bool.or_eq_true, decide_eq_true_eq]
    omega
  by_cases h : x.ssubOverflow y = true
  · exact Or.inr ⟨hover.mp h, if_pos h⟩
  · obtain ⟨hlo, hhi⟩ := not_not.mp (mt hover.mpr h)
    exact Or.inl ⟨hlo, hhi, _, if_neg h, BitVec.toInt_sub_of_not_ssubOverflow h⟩

theorem toNat_modEq_toInt (x : BitVec 64) : (x.toNat : ℤ) ≡ x.toInt [ZMOD 2 ^ 64] := by
  rw [BitVec.toInt_eq_toNat_bmod]
  exact (Int.bmod_emod).symm

/-- **Wrapping an unsigned field.** -/
theorem handleWrapUnsigned_spec (value incr : BitVec 64) (h₁ : bits ≤ 63) :
    ∃ x, handleWrapUnsigned value incr bits = some ⟨1, some x⟩ ∧ (0 : ℤ) ≤ x.toNat ∧
      (x.toNat : ℤ) ≤ 2 ^ bits - 1 ∧ (x.toNat : ℤ) ≡ value.toNat + incr.toInt [ZMOD 2 ^ bits] := by
  have hpos : (0 : ℤ) < 2 ^ bits := by positivity
  have hmod : (((value + incr).setWidth bits).setWidth 64).toNat =
      (value.toNat + incr.toNat) % 2 ^ 64 % 2 ^ bits := by
    have hlt : (value.toNat + incr.toNat) % 2 ^ 64 % 2 ^ bits < 2 ^ 64 :=
      (Nat.mod_lt _ (Nat.pow_pos (by omega))).trans_le (Nat.pow_le_pow_right (by omega) (by omega))
    rw [BitVec.toNat_setWidth, BitVec.toNat_setWidth, BitVec.toNat_add, Nat.mod_eq_of_lt hlt]
  refine ⟨(value + incr) &&& ~~~(BitVec.allOnes 64 <<< bits), ?_, Int.natCast_nonneg _, ?_, ?_⟩
  · rw [handleWrapUnsigned, shiftLeft, if_pos (by omega)]
    rfl
  · rw [and_not_mask, hmod]
    push_cast
    have := Int.emod_lt_of_pos (((value.toNat : ℤ) + incr.toNat) % 2 ^ 64) hpos
    omega
  · have hdvd : (2 : ℤ) ^ bits ∣ 2 ^ 64 := pow_dvd_pow 2 (by omega)
    rw [and_not_mask, hmod]
    push_cast
    calc ((value.toNat : ℤ) + incr.toNat) % 2 ^ 64 % 2 ^ bits
        ≡ ((value.toNat : ℤ) + incr.toNat) % 2 ^ 64 [ZMOD 2 ^ bits] := Int.mod_modEq _ _
      _ ≡ (value.toNat : ℤ) + incr.toNat [ZMOD 2 ^ bits] := (Int.mod_modEq _ _).of_dvd hdvd
      _ ≡ value.toNat + incr.toInt [ZMOD 2 ^ bits] := ((toNat_modEq_toInt incr).of_dvd hdvd).add_left _

/-- **Wrapping a signed field** narrower than 64 bits. -/
theorem handleWrapSigned_spec (value incr : BitVec 64) (h₀ : 1 ≤ bits) (h₁ : bits ≤ 63) :
    ∃ x, handleWrapSigned value incr bits = some ⟨1, some x⟩ ∧ -2 ^ (bits - 1) ≤ x.toInt ∧
      x.toInt ≤ 2 ^ (bits - 1) - 1 ∧ x.toInt ≡ value.toInt + incr.toInt [ZMOD 2 ^ bits] := by
  have hwide := two_pow_succ_pred h₀
  have hpos : (0 : ℤ) < 2 ^ (bits - 1) := by positivity
  have hx : ((value + incr).setWidth bits |>.signExtend 64).toInt =
      ((value + incr).toNat : ℤ).bmod (2 ^ bits) := by
    rw [BitVec.toInt_signExtend_of_le (by omega), BitVec.toInt_setWidth]
  refine ⟨((value + incr).setWidth bits).signExtend 64, ?_, ?_⟩
  · rw [handleWrapSigned, shiftLeft, if_pos (by omega), shiftLeft, if_pos (by omega),
      ← signExtend_eq_mask _ h₀]
    simp only [bind_eq_bind, bind_some]
    have hmsb := and_shift_ne_zero (value + incr) (bits - 1)
    by_cases hm : (value + incr).getLsbD (bits - 1) = true
    · rw [if_pos (hmsb.mpr hm), if_pos hm]
    · rw [if_neg fun h => hm (hmsb.mp h), if_neg hm]
  · have hhalf : ((2 ^ bits : ℕ) : ℤ) = 2 * 2 ^ (bits - 1) := by
      push_cast
      exact hwide
    have hdvd : (2 : ℤ) ^ bits ∣ 2 ^ 64 := pow_dvd_pow 2 (by omega)
    have hle := Int.le_bmod (x := ((value + incr).toNat : ℤ)) (m := 2 ^ bits) (Nat.pow_pos (by omega))
    have hlt := Int.bmod_lt (x := ((value + incr).toNat : ℤ)) (m := 2 ^ bits) (Nat.pow_pos (by omega))
    rw [hx]
    refine ⟨by omega, by omega, ?_⟩
    have hmod : ((value + incr).toNat : ℤ).bmod (2 ^ bits) ≡ (value + incr).toNat [ZMOD 2 ^ bits] := by
      have hself := Int.bmod_emod (x := ((value + incr).toNat : ℤ)) (m := 2 ^ bits)
      push_cast at hself
      exact hself
    calc ((value + incr).toNat : ℤ).bmod (2 ^ bits)
        ≡ (value + incr).toNat [ZMOD 2 ^ bits] := hmod
      _ ≡ (value + incr).toInt [ZMOD 2 ^ bits] := (toNat_modEq_toInt _).of_dvd hdvd
      _ ≡ value.toInt + incr.toInt [ZMOD 2 ^ bits] := by
          rw [BitVec.toInt_add]
          have hself := Int.bmod_emod (x := value.toInt + incr.toInt) (m := 2 ^ 64)
          push_cast at hself
          exact Int.ModEq.of_dvd hdvd hself

/-! ### Detection -/

variable {low high sum : ℤ} {read : BitVec 64 → ℤ} {owtype : OverflowType} {limit : Bool}
  {wrapped : Option Outcome} {value incr : BitVec 64}

theorem detects_zero (h₀ : low ≤ sum) (h₁ : sum ≤ high) :
    Detects low high bits read sum owtype limit ⟨0, none⟩ where
  fits := ⟨fun _ => ⟨h₀, h₁⟩, fun _ => rfl⟩
  above h := absurd h (by omega)
  below h := absurd h (by omega)
  saturates _ _ := ⟨fun h => absurd h (by omega), fun h => absurd h (by omega)⟩
  wraps _ _ h := absurd h (by omega)

/-- **An overflow is reported**: above the range with 1, below it with -1, or with 1 when wrapping. -/
theorem report_detects {result : ℤ} {bound : BitVec 64} (hlow : low ≤ high)
    (hres : (result = 1 ∧ high < sum ∧ read bound = high) ∨
      (result = -1 ∧ sum < low ∧ read bound = low) ∨ (result = 1 ∧ sum < low ∧ owtype = .wrap))
    (hwrap : owtype = .wrap → limit = true → ∃ x, wrapped = some ⟨1, some x⟩ ∧ low ≤ read x ∧
      read x ≤ high ∧ read x ≡ sum [ZMOD 2 ^ bits]) :
    ∃ o, report owtype limit wrapped result bound = some o ∧
      Detects low high bits read sum owtype limit o := by
  have hout : ¬ (low ≤ sum ∧ sum ≤ high) := by omega
  by_cases hw : owtype = .wrap ∧ limit = true
  · obtain ⟨rfl, rfl⟩ := hw
    obtain ⟨x, hx, h₀, h₁, hmod⟩ := hwrap rfl rfl
    refine ⟨⟨1, some x⟩, hx, ⟨fun h => absurd (show (1 : ℤ) = 0 from h) (by decide),
      fun h => absurd h hout⟩, fun _ => rfl, fun _ => Or.inr ⟨rfl, rfl⟩, fun h => absurd h (by decide),
      fun _ _ _ => ⟨read x, rfl, h₀, h₁, hmod⟩⟩
  · obtain ⟨l, hl, hsat⟩ : ∃ l, report owtype limit wrapped result bound = some ⟨result, l⟩ ∧
        (owtype = .sat → limit = true → l = some bound) := by
      cases owtype <;> cases limit
      case wrap.true => exact absurd ⟨rfl, rfl⟩ hw
      case sat.true => exact ⟨_, rfl, fun _ _ => rfl⟩
      all_goals exact ⟨_, rfl, by simp⟩
    refine ⟨_, hl, ⟨fun h => ?_, fun h => absurd h hout⟩, fun h => ?_, fun h => ?_,
      fun hs ht => ?_, fun hs ht => absurd ⟨hs, ht⟩ hw⟩
    · have h : result = 0 := h
      omega
    · show result = 1
      omega
    · show result = -1 ∨ owtype = .wrap ∧ result = 1
      rcases hres with hres | hres | hres
      · omega
      · exact Or.inl hres.1
      · exact Or.inr ⟨hres.2.2, hres.1⟩
    · have hbound : (high < sum ∧ read bound = high) ∨ (sum < low ∧ read bound = low) := by
        rcases hres with hres | hres | hres
        · exact Or.inl hres.2
        · exact Or.inr hres.2
        · exact absurd (hs.symm.trans hres.2.2) (by decide)
      rw [show Outcome.limit ⟨result, l⟩ = some bound from hsat hs ht, map_some]
      refine ⟨fun h => congrArg some ?_, fun h => congrArg some ?_⟩ <;> omega

/-- **The check of unsigned fields** is exact. -/
theorem checkUnsigned_detects (value incr : BitVec 64) (h₁ : bits ≤ 63) (owtype : OverflowType)
    (limit : Bool) (hin : incr ≠ 0 → value.toNat < 2 ^ bits) :
    ∃ o, checkUnsignedBitfieldOverflow value incr bits owtype limit = some o ∧
      DetectsUnsigned value incr bits owtype limit o := by
  obtain ⟨m, hm, hmax⟩ := exists_max h₁
  have hpow : (2 : ℤ) ^ bits ≤ 2 ^ 63 := two_pow_le h₁
  have hpos : (0 : ℤ) < 2 ^ bits := by positivity
  -- The differences are exact for a value of the field.
  have hdiff : (value.toNat : ℤ) < 2 ^ bits → (m - value).toInt = 2 ^ bits - 1 - value.toNat ∧
      (-value).toInt = -value.toNat := by
    intro hv
    have hv' : value.toInt = value.toNat := BitVec.toInt_eq_toNat_of_lt (by omega)
    have hm' : m.toInt = m.toNat := BitVec.toInt_eq_toNat_of_lt (by omega)
    rw [BitVec.toInt_sub, BitVec.toInt_neg, hv', hm', hmax]
    exact ⟨Int.bmod_eq_of_le (by omega) (by omega), Int.bmod_eq_of_le (by omega) (by omega)⟩
  have hzero : ¬ incr ≠ 0 → incr.toInt = 0 := fun h => by
    rw [not_not.mp h]
    decide
  have hfield : incr ≠ 0 → (value.toNat : ℤ) < 2 ^ bits := fun h => by exact_mod_cast hin h
  rw [checkUnsignedBitfieldOverflow, hm]
  simp only [bind_eq_bind, bind_some]
  have hwrap := handleWrapUnsigned_spec value incr h₁
  split
  · rename_i h
    refine report_detects (by omega) (Or.inl ⟨rfl, ?_, hmax⟩) fun _ _ => hwrap
    by_cases hne : incr ≠ 0
    · have := hdiff (hfield hne)
      have := hfield hne
      omega
    · have := hzero hne
      omega
  · rename_i h
    have hv : (value.toNat : ℤ) < 2 ^ bits := by omega
    have := hdiff hv
    split
    · rename_i h'
      exact report_detects (by omega) (Or.inr (Or.inl ⟨rfl, by omega, rfl⟩)) fun _ _ => hwrap
    · exact ⟨_, rfl, detects_zero (by omega) (by omega)⟩

/-- Both bounds of a signed field lie within reach of the value: neither difference overflows. -/
def WithinReach (value : BitVec 64) (bits : ℕ) : Prop :=
  2 ^ (bits - 1) - 2 ^ 63 ≤ value.toInt ∧ value.toInt ≤ 2 ^ 63 - 2 ^ (bits - 1)

/-- **The differences** are defined exactly within reach. -/
theorem differences_spec {m value : BitVec 64} {M : ℤ} (hpos : 0 < M) (hle : M ≤ 2 ^ 63)
    (hmax : m.toInt = M - 1) (hmin : (-m - 1#64).toInt = -M) :
    (M - 2 ^ 63 ≤ value.toInt ∧ value.toInt ≤ 2 ^ 63 - M ∧
      ∃ x y, signedSub m value = some x ∧ signedSub (-m - 1#64) value = some y ∧
        x.toInt = M - 1 - value.toInt ∧ y.toInt = -M - value.toInt) ∨
    (¬ (M - 2 ^ 63 ≤ value.toInt ∧ value.toInt ≤ 2 ^ 63 - M) ∧
      (signedSub m value = none ∨ signedSub (-m - 1#64) value = none)) := by
  have hvle := BitVec.le_toInt value
  have hvlt := BitVec.toInt_lt (x := value)
  have hup := signedSub_spec m value
  have hdown := signedSub_spec (-m - 1#64) value
  rw [hmax] at hup
  rw [hmin] at hdown
  rcases hup with ⟨-, hhi, x, hx, hxv⟩ | ⟨hout, hx⟩
  · rcases hdown with ⟨hlo', -, y, hy, hyv⟩ | ⟨hout, hy⟩
    · exact Or.inl ⟨by omega, by omega, x, y, hx, hy, hxv, hyv⟩
    · exact Or.inr ⟨by omega, Or.inr hy⟩
  · exact Or.inr ⟨by omega, Or.inl hx⟩

/-- The conditions of the check of a field with the bounds `-M` and `M - 1`; `full` says that the field
is a whole word. -/
theorem signed_conditions {M v i : ℤ} (full : Prop) (hfull : full → v = 0 ∧ -M ≤ i ∧ i < M)
    (hi : i ≠ 0 → -M ≤ v ∧ v < M) :
    (M - 1 < v ∨ (¬ full ∧ M - 1 - v < i) ∨ (0 ≤ v ∧ 0 < i ∧ M - 1 - v < i) ↔ M - 1 < v + i) ∧
    (v < -M ∨ (¬ full ∧ i < -M - v) ∨ (v < 0 ∧ i < 0 ∧ i < -M - v) ↔ v + i < -M) := by
  by_cases hb : full
  · obtain ⟨rfl, hi₀, hi₁⟩ := hfull hb
    simp only [hb, not_true_eq_false, false_and, false_or]
    exact ⟨by omega, by omega⟩
  · simp only [hb, not_false_eq_true, true_and]
    exact ⟨by omega, by omega⟩

/-- **The check of signed fields** is exact where both differences are defined. -/
theorem checkSigned_detects (value incr : BitVec 64) (h₀ : 1 ≤ bits) (h₁ : bits ≤ 64)
    (owtype : OverflowType) (limit : Bool)
    (hin : incr ≠ 0 → -2 ^ (bits - 1) ≤ value.toInt ∧ value.toInt < 2 ^ (bits - 1))
    (hreach : WithinReach value bits) :
    ∃ o, checkSignedBitfieldOverflow value incr bits owtype limit = some o ∧
      DetectsSigned value incr bits owtype limit o := by
  obtain ⟨m, hm, hmax, hmin⟩ := exists_max_min h₀ h₁
  have hpow : (2 : ℤ) ^ (bits - 1) ≤ 2 ^ 63 := two_pow_le (by omega)
  have hpos : (0 : ℤ) < 2 ^ (bits - 1) := by positivity
  have hile := BitVec.le_toInt incr
  have hilt := BitVec.toInt_lt (x := incr)
  obtain ⟨-, -, x, y, hx, hy, hxv, hyv⟩ :=
    (differences_spec hpos hpow hmax hmin).resolve_right fun hout => hout.1 hreach
  obtain ⟨hlo, hhi⟩ := hreach
  have hfull : bits = 64 → value.toInt = 0 ∧ -2 ^ (bits - 1) ≤ incr.toInt ∧
      incr.toInt < 2 ^ (bits - 1) := by
    rintro rfl
    exact ⟨by omega, hile, hilt⟩
  obtain ⟨hup, hdown⟩ := signed_conditions (bits = 64) hfull
    fun hi => hin fun h => hi (by rw [h]; decide)
  -- A field of 64 bits holds zero, and zero plus a number of 64 bits does not overflow.
  have hwrap : ¬ (-2 ^ (bits - 1) ≤ value.toInt + incr.toInt ∧
      value.toInt + incr.toInt ≤ 2 ^ (bits - 1) - 1) → ∃ x, handleWrapSigned value incr bits =
      some ⟨1, some x⟩ ∧ -2 ^ (bits - 1) ≤ x.toInt ∧ x.toInt ≤ 2 ^ (bits - 1) - 1 ∧
      x.toInt ≡ value.toInt + incr.toInt [ZMOD 2 ^ bits] := by
    intro hout
    refine handleWrapSigned_spec value incr h₀ ?_
    by_contra hwide
    have := hfull (by omega)
    omega
  rw [checkSignedBitfieldOverflow, hm]
  simp only [bind_eq_bind, bind_some, hx, hy, hxv, hyv, hmax, hmin, DetectsSigned]
  clear hfull hin hxv hyv
  generalize (2 : ℤ) ^ (bits - 1) = M at *
  split
  · rename_i h
    have hsum := hup.mp h
    exact report_detects (by omega) (Or.inl ⟨rfl, hsum, hmax⟩) fun _ _ => hwrap (by omega)
  · rename_i h
    have hle := mt hup.mpr h
    split
    · rename_i h'
      have hsum := hdown.mp h'
      exact report_detects (by omega) (Or.inr (Or.inl ⟨rfl, hsum, hmin⟩)) fun _ _ => hwrap (by omega)
    · rename_i h'
      have hge := mt hdown.mpr h'
      exact ⟨_, rfl, detects_zero (by omega) (by omega)⟩

/-- Out of reach, a difference overflows. -/
theorem checkSigned_eq_none {value : BitVec 64} (h₀ : 1 ≤ bits) (h₁ : bits ≤ 64)
    (hreach : ¬ WithinReach value bits) (incr : BitVec 64) (owtype : OverflowType) (limit : Bool) :
    checkSignedBitfieldOverflow value incr bits owtype limit = none := by
  obtain ⟨m, hm, hmax, hmin⟩ := exists_max_min h₀ h₁
  have hpow : (2 : ℤ) ^ (bits - 1) ≤ 2 ^ 63 := two_pow_le (by omega)
  have hpos : (0 : ℤ) < 2 ^ (bits - 1) := by positivity
  rw [checkSignedBitfieldOverflow, hm]
  have hdiff := @differences_spec m value _ hpos hpow hmax hmin
  rcases hdiff with h | ⟨-, h | h⟩
  · exact absurd ⟨h.1, h.2.1⟩ hreach
  · simp only [bind_eq_bind, bind_some, h, bind_none]
  · simp only [bind_eq_bind, bind_some, h, bind_none]
    cases signedSub m value <;> rfl

/-- **Overflow of bit fields**: unsigned fields always, and signed fields exactly where both bounds are
within reach of the value. -/
theorem checks_detect_iff (value incr : BitVec 64) (bits : ℕ) (owtype : OverflowType) (limit : Bool)
    (h₀ : 1 ≤ bits) :
    (bits ≤ 63 → (incr ≠ 0 → value.toNat < 2 ^ bits) →
      ∃ o, checkUnsignedBitfieldOverflow value incr bits owtype limit = some o ∧
        DetectsUnsigned value incr bits owtype limit o) ∧
    (bits ≤ 64 → (incr ≠ 0 → -2 ^ (bits - 1) ≤ value.toInt ∧ value.toInt < 2 ^ (bits - 1)) →
      ((∃ o, checkSignedBitfieldOverflow value incr bits owtype limit = some o ∧
          DetectsSigned value incr bits owtype limit o) ↔ WithinReach value bits)) := by
  refine ⟨fun h₁ hin => checkUnsigned_detects value incr h₁ owtype limit hin, fun h₁ hin =>
    ⟨fun h => ?_, checkSigned_detects value incr h₀ h₁ owtype limit hin⟩⟩
  obtain ⟨o, ho, -⟩ := h
  refine not_not.mp fun hreach => ?_
  rw [checkSigned_eq_none h₀ h₁ hreach] at ho
  cases ho

/-- An unsigned field of 8 bits, a signed one, and a signed one of 64 bits. -/
theorem checks_detect_iff_fields :
    (∃ o, checkUnsignedBitfieldOverflow 255 1 8 .wrap true = some o ∧
      DetectsUnsigned 255 1 8 .wrap true o) ∧
    (∃ o, checkSignedBitfieldOverflow 127 1 8 .sat true = some o ∧
      DetectsSigned 127 1 8 .sat true o) ∧
    ∃ o, checkSignedBitfieldOverflow 0 (.intMin 64) 64 .sat true = some o ∧
      DetectsSigned 0 (.intMin 64) 64 .sat true o :=
  ⟨(checks_detect_iff 255 1 8 .wrap true (by decide)).1 (by decide) fun _ => by decide,
    ((checks_detect_iff 127 1 8 .sat true (by decide)).2 (by decide) fun _ => by decide).mpr
      ⟨by decide, by decide⟩,
    ((checks_detect_iff 0 (.intMin 64) 64 .sat true (by decide)).2 (by decide) fun _ => by decide).mpr
      ⟨by decide, by decide⟩⟩

/-- `BITFIELD key OVERFLOW SAT INCRBY i64 0 -1` at the smallest number: `max - value` overflows. -/
theorem checkSigned_overflows :
    checkSignedBitfieldOverflow (.intMin 64) (-1) 64 .sat true = none ∧
      ¬ ∃ o, checkSignedBitfieldOverflow (.intMin 64) (-1) 64 .sat true = some o ∧
        DetectsSigned (.intMin 64) (-1) 64 .sat true o := by
  have hnone : checkSignedBitfieldOverflow (.intMin 64) (-1) 64 .sat true = none := by decide
  refine ⟨hnone, ?_⟩
  rintro ⟨o, ho, -⟩
  rw [hnone] at ho
  cases ho

end

end SourceLibs.Bitfield
