import SourceLibs.CppInt.UnboundedShift
import SourceLibs.Integer.BinaryGcd

/-!
# CppInt — greatest common divisors

`eval_gcd` of `cpp_int/misc.hpp`: factors of two are shifted out, then the larger of two odd numbers
is replaced by the odd part of the difference; on numbers of two limbs in `double_limb_type`, of one
limb in `limb_type`.  Loops run with fuel and are `none` when it runs out, as where `eval_lsb` throws.

* `integerGcdReduce_spec`, `integerGcdReduceDouble_spec`: the loops on words.
* `gcdLimbLoop_spec`, `gcdLoop_spec`: the loops on numbers.
-/

namespace SourceLibs.CppInt
open Option Integer PowersOfTwo

variable {w : ℕ}

/-! ### Words -/

/-- The loop of `find_lsb`. -/
def findLsbLoop : ℕ → BitVec w → ℕ → Option ℕ
  | 0, _, _ => none
  | fuel + 1, mask, result =>
    if mask &&& 1 = 0 then findLsbLoop fuel (mask >>> 1) (result + 1) else some result

/-- `find_lsb`, without result where no bit is set. -/
def findLsb (mask : BitVec w) : Option ℕ := findLsbLoop w mask 0

/-- `if(u > v) std::swap(u, v);`. -/
def ordered {α : Type} [LT α] [DecidableLT α] (u v : α) : α × α := if v < u then (v, u) else (u, v)

/-- `integer_gcd_reduce` of `limb_type`. -/
def integerGcdReduce : ℕ → BitVec w → BitVec w → Option (BitVec w)
  | 0, _, _ => none
  | fuel + 1, u, v =>
    let p := ordered u v
    if p.1 = p.2 then some p.1
    else
      let v := p.2 - p.1
      (findLsb v).bind fun lsb => integerGcdReduce fuel p.1 (v >>> lsb)

/-- `while((static_cast<unsigned>(v) & 1u) == 0) v >>= 1;`. -/
def dropTwos : ℕ → ℕ → Option ℕ
  | 0, _ => none
  | fuel + 1, v => if v % 2 = 0 then dropTwos fuel (v / 2) else some v

/-- `integer_gcd_reduce` of `double_limb_type`. -/
def integerGcdReduceDouble (w : ℕ) : ℕ → ℕ → ℕ → Option ℕ
  | 0, _, _ => none
  | fuel + 1, u, v =>
    let p := ordered u v
    if p.1 = p.2 then some p.1
    else if p.2 < 2 ^ w then
      (integerGcdReduce fuel (BitVec.ofNat w p.2) (BitVec.ofNat w p.1)).map BitVec.toNat
    else (dropTwos fuel (p.2 - p.1)).bind (integerGcdReduceDouble w fuel p.1)

/-! ### Numbers -/

/-- The search of `eval_lsb` for a limb that is not zero. -/
def lsbIndex (a : CppInt w) : ℕ → ℕ → ℕ
  | 0, index => index
  | n + 1, index => if a.limbs index = 0 ∧ index < a.size then lsbIndex a n (index + 1) else index

/-- `eval_lsb`: the lowest bit that is set. -/
def evalLsb (a : CppInt w) : Option ℕ :=
  if evalGetSign a = 0 then none
  else if a.sign then none
  else
    let index := lsbIndex a a.size 0
    (findLsb (a.limbs index)).map fun result => uint (result + index * w)

/-- Both limbs of a number, as `double_limb_type`. -/
def lowLimbs (x : CppInt w) : ℕ := twoLimbs (x.limbs 1) (x.limbs 0)

/-- The loop of `eval_gcd` with a limb. -/
def gcdLimbLoop (config : ShiftConfig) : ℕ → CppInt w → BitVec w → Option (BitVec w)
  | 0, _, _ => none
  | fuel + 1, u, v =>
    if u.size ≤ 2 then
      if u.size = 1 then integerGcdReduce fuel (u.limbs 0) v
      else (integerGcdReduceDouble w fuel (lowLimbs u) v.toNat).map (BitVec.ofNat w)
    else
      let u := evalSubtractLimb u .result v
      (evalLsb u).bind fun us => gcdLimbLoop config fuel (evalRightShift config u us) v

/-- `eval_left_shift(result, shift)`, `shift` an `int` that holds an `unsigned`. -/
def shiftBack (config : ShiftConfig) (cap : ℕ) (result : CppInt w) (shift : ℕ) : Option (CppInt w) :=
  evalLeftShift config cap result (toIntType shift % 2 ^ (2 * w)).toNat

/-- `eval_gcd` with a limb. -/
def evalGcdLimb (config : ShiftConfig) (cap fuel : ℕ) (result a : CppInt w) (v : BitVec w) :
    Option (CppInt w) :=
  let s := evalGetSign a
  if s = 0 then some (result.assignLimb v)
  else
    let u := if s < 0 then a.negate else a
    if v = 0 then some (result.assign u)
    else
      (evalLsb u).bind fun us => (findLsb v).bind fun vs =>
        let u := evalRightShift config u us
        let v := if vs ≠ 0 then v >>> vs else v
        (gcdLimbLoop config fuel u v).bind fun v =>
          shiftBack config cap (result.assignLimb v) (min us vs)

/-- A turn of the loop of `eval_gcd` on different numbers, the smaller one in `u`; `next` are the turns
after it. -/
def gcdTurn (config : ShiftConfig) (fuel : ℕ) (next : CppInt w → CppInt w → Option (CppInt w))
    (u v : CppInt w) : Option (CppInt w) :=
  if v.size ≤ 2 then
    if v.size = 1 then (integerGcdReduce fuel (v.limbs 0) (u.limbs 0)).map u.assignLimb
    else
      let j := if u.size = 1 then (u.limbs 0).toNat else lowLimbs u
      (integerGcdReduceDouble w fuel (lowLimbs v) j).map u.assignDouble
  else
    let v := evalSubtract v .result (.object u)
    (evalLsb v).bind fun vs => next u (evalRightShift config v vs)

/-- The loop of `eval_gcd`. -/
def gcdLoop (config : ShiftConfig) : ℕ → CppInt w → CppInt w → Option (CppInt w)
  | 0, _, _ => none
  | fuel + 1, u, v =>
    let s := compare u v
    let p := if 0 < s then (v, u) else (u, v)
    if s = 0 then some p.1 else gcdTurn config fuel (gcdLoop config fuel) p.1 p.2

def evalGcd (config : ShiftConfig) (cap fuel : ℕ) (result a b : CppInt w) : Option (CppInt w) :=
  if a.size = 1 then evalGcdLimb config cap fuel result b (a.limbs 0)
  else if b.size = 1 then evalGcdLimb config cap fuel result a (b.limbs 0)
  else
    let s := evalGetSign a
    if s = 0 then some (result.assign b)
    else
      let u := if s < 0 then a.negate else a
      let s := evalGetSign b
      if s = 0 then some (result.assign u)
      else
        let v := if s < 0 then b.negate else b
        (evalLsb u).bind fun us => (evalLsb v).bind fun vs =>
          let u := evalRightShift config u us
          let v := evalRightShift config v vs
          (gcdLoop config fuel u v).bind fun u => shiftBack config cap (result.assign u) (min us vs)

/-! ### Loops on words -/

/-- **`find_lsb`** of a word that is not zero. -/
theorem findLsbLoop_spec (fuel : ℕ) (mask : BitVec w) (result : ℕ) (h₀ : mask.toNat ≠ 0)
    (hlt : mask.toNat < 2 ^ fuel) :
    ∃ k < fuel, findLsbLoop fuel mask result = some (result + k) ∧ LowestAt mask.toNat k := by
  induction fuel generalizing mask result with
  | zero =>
    rw [pow_zero] at hlt
    omega
  | succ fuel ih =>
    rw [pow_succ'] at hlt
    simp only [findLsbLoop, even_iff]
    split
    · rename_i heven
      obtain ⟨k, hk, hrun, hlow⟩ := ih (mask >>> 1) (result + 1) (by rw [toNat_half]; omega)
        (by rw [toNat_half]; omega)
      rw [toNat_half] at hlow
      exact ⟨k + 1, by omega, by rw [hrun, Nat.add_assoc, Nat.add_comm 1 k], hlow.succ heven⟩
    · exact ⟨0, Nat.succ_pos fuel, rfl, lowestAt_zero (by omega)⟩

theorem findLsb_spec {mask : BitVec w} (h₀ : mask.toNat ≠ 0) :
    ∃ k < w, findLsb mask = some k ∧ LowestAt mask.toNat k ∧ (mask >>> k).toNat = mask.toNat / 2 ^ k := by
  obtain ⟨k, hk, hrun, hlow⟩ := findLsbLoop_spec w mask 0 h₀ mask.isLt
  rw [Nat.zero_add] at hrun
  exact ⟨k, hk, hrun, hlow, by rw [BitVec.toNat_ushiftRight, Nat.shiftRight_eq_div_pow]⟩

theorem dropTwos_spec (fuel v : ℕ) (h₀ : v ≠ 0) (hfuel : v < fuel) :
    ∃ k, dropTwos fuel v = some (v / 2 ^ k) ∧ LowestAt v k := by
  induction fuel generalizing v with
  | zero => omega
  | succ fuel ih =>
    rw [dropTwos]
    split
    · rename_i heven
      obtain ⟨k, hrun, hlow⟩ := ih (v / 2) (by omega) (by omega)
      exact ⟨k + 1, by rw [hrun, pow_succ', Nat.div_div_eq_div_mul], hlow.succ heven⟩
    · exact ⟨0, by rw [pow_zero, Nat.div_one], lowestAt_zero (by omega)⟩

theorem ordered_nat (u v : ℕ) : ordered u v = (min u v, max u v) := by
  rw [ordered]
  split
  · rename_i h
    rw [min_eq_right h.le, max_eq_left h.le]
  · rename_i h
    rw [min_eq_left (Nat.le_of_not_lt h), max_eq_right (Nat.le_of_not_lt h)]

theorem ordered_word (u v : BitVec w) :
    (ordered u v).1.toNat = min u.toNat v.toNat ∧ (ordered u v).2.toNat = max u.toNat v.toNat := by
  rw [ordered]
  split
  · rename_i h
    have hlt := (BitVec.lt_def.mp h).le
    exact ⟨(min_eq_right hlt).symm, (max_eq_left hlt).symm⟩
  · rename_i h
    have hle := Nat.le_of_not_lt fun hlt => h (BitVec.lt_def.mpr hlt)
    exact ⟨(min_eq_left hle).symm, (max_eq_right hle).symm⟩

/-- **`integer_gcd_reduce` of `limb_type`** on odd words. -/
theorem integerGcdReduce_spec (fuel : ℕ) (u v : BitVec w) (hu : u.toNat % 2 = 1) (hv : v.toNat % 2 = 1)
    (hfuel : u.toNat + v.toNat < fuel) :
    ∃ g, integerGcdReduce fuel u v = some g ∧ g.toNat = u.toNat.gcd v.toNat := by
  induction fuel generalizing u v with
  | zero => omega
  | succ fuel ih =>
    obtain ⟨h₁, h₂⟩ := ordered_word u v
    obtain ⟨hp, hgcd, hsum⟩ := oddPair_min_max hu hv
    rw [← hgcd]
    rw [← hsum] at hfuel
    rw [← h₁, ← h₂] at hp hfuel ⊢
    rw [integerGcdReduce]
    generalize ordered u v = p at hp hfuel
    dsimp only
    split
    · rename_i heq
      exact ⟨p.1, rfl, by rw [heq, Nat.gcd_self]⟩
    · -- the difference is even: the odd part takes the place of the larger word
      rename_i hne
      have hsub : (p.2 - p.1).toNat = p.2.toNat - p.1.toNat :=
        BitVec.toNat_sub_of_le (BitVec.le_def.mpr hp.le)
      have hdiff : p.2.toNat - p.1.toNat ≠ 0 := fun h =>
        hne (BitVec.eq_of_toNat_eq (by have := hp.le; omega))
      obtain ⟨k, -, hlsb, hlow, hshift⟩ := findLsb_spec (show (p.2 - p.1).toNat ≠ 0 by rwa [hsub])
      rw [hsub] at hlow hshift
      obtain ⟨hodd, hlt, hkeep⟩ := hp.turn hlow
      obtain ⟨g, hrun, hg⟩ := ih p.1 ((p.2 - p.1) >>> k) hp.left (by rwa [hshift]) (by rw [hshift]; omega)
      exact ⟨g, by rw [hlsb, bind_some, hrun], by rw [hg, hshift, hkeep]⟩

/-- **`integer_gcd_reduce` of `double_limb_type`** on odd numbers. -/
theorem integerGcdReduceDouble_spec (fuel u v : ℕ) (hu : u % 2 = 1) (hv : v % 2 = 1)
    (hfuel : u + v + 1 < fuel) : integerGcdReduceDouble w fuel u v = some (u.gcd v) := by
  induction fuel generalizing u v with
  | zero => omega
  | succ fuel ih =>
    obtain ⟨hp, hgcd, hsum⟩ := oddPair_min_max hu hv
    rw [integerGcdReduceDouble, ordered_nat, ← hgcd]
    generalize min u v = a at hp hgcd hsum
    generalize max u v = b at hp hgcd hsum
    dsimp only
    split
    · rename_i heq
      rw [heq, Nat.gcd_self]
    have hle := hp.le
    split
    · -- both fit a limb, where the routine for limbs goes on
      rename_i hsmall
      have ha : (BitVec.ofNat w a).toNat = a :=
        (BitVec.toNat_ofNat a w).trans (Nat.mod_eq_of_lt (by omega))
      have hb : (BitVec.ofNat w b).toNat = b :=
        (BitVec.toNat_ofNat b w).trans (Nat.mod_eq_of_lt hsmall)
      obtain ⟨g, hrun, hg⟩ := integerGcdReduce_spec fuel (BitVec.ofNat w b) (BitVec.ofNat w a)
        (by rw [hb]; exact hp.right) (by rw [ha]; exact hp.left) (by rw [ha, hb]; omega)
      rw [hrun, map_some, hg, ha, hb, Nat.gcd_comm]
    · have hpos := hp.left
      obtain ⟨k, hdrop, hlow⟩ := dropTwos_spec fuel (b - a) (by omega) (by omega)
      obtain ⟨hodd, hlt, hkeep⟩ := hp.turn hlow
      rw [hdrop, bind_some, ih a _ hp.left hodd (by omega), hkeep]

/-! ### The lowest bit of a number -/

theorem evalGetSign_eq {x : CppInt w} (hx : x.Canonical) : evalGetSign x = x.toInt.sign := by
  have hz := hx.1.mag_eq_zero
  rw [evalGetSign, evalIsZero]
  by_cases h₀ : x.size = 1 ∧ x.limbs 0 = 0
  · simp [toInt, hz.mpr h₀, h₀.1, h₀.2]
  · have hpos : 0 < x.mag := Nat.pos_of_ne_zero fun h => h₀ (hz.mp h)
    have hne : (x.size == 1 && x.limbs 0 == 0) = false := by
      rw [Bool.and_eq_false_imp]
      exact fun h => beq_eq_false_iff_ne.mpr fun h' => h₀ ⟨beq_iff_eq.mp h, h'⟩
    rw [hne, toInt]
    cases x.sign with
    | true => exact (Int.sign_eq_neg_one_of_neg (by simpa using hpos)).symm
    | false => exact (Int.sign_eq_one_of_pos (by simpa using hpos)).symm

theorem evalGetSign_eq_zero {x : CppInt w} (hx : x.Canonical) : evalGetSign x = 0 ↔ x.mag = 0 := by
  rw [evalGetSign_eq hx, Int.sign_eq_zero_iff_zero, ← toInt_natAbs, Int.natAbs_eq_zero]

/-- A number, or its negation where it is negative. -/
theorem absolute_represents {x : CppInt w} (hx : x.Canonical) :
    (if evalGetSign x < 0 then x.negate else x).Represents x.toInt.natAbs := by
  rw [evalGetSign_eq hx]
  by_cases h : x.toInt < 0
  · rw [if_pos (Int.sign_neg_iff.mpr h), Int.ofNat_natAbs_of_nonpos h.le]
    exact hx.negate
  · rw [if_neg fun h' => h (Int.sign_neg_iff.mp h'), Int.natAbs_of_nonneg (Int.not_lt.mp h)]
    exact ⟨hx, rfl⟩

theorem lsbIndex_spec (a : CppInt w) (n index : ℕ) (hn : index + n = a.size)
    (hz : ∀ j < index, a.limbs j = 0) :
    (∀ j < lsbIndex a n index, a.limbs j = 0) ∧ lsbIndex a n index ≤ a.size ∧
      (lsbIndex a n index < a.size → a.limbs (lsbIndex a n index) ≠ 0) := by
  induction n generalizing index with
  | zero => exact ⟨hz, hn.le, fun h => absurd h (by rw [lsbIndex]; omega)⟩
  | succ n ih =>
    rw [lsbIndex]
    split
    · rename_i h
      exact ih (index + 1) (by omega) fun j hj =>
        (Nat.lt_succ_iff_lt_or_eq.mp hj).elim (hz j) fun e => e ▸ h.1
    · rename_i h
      exact ⟨hz, by omega, fun hlt h₀ => h ⟨h₀, hlt⟩⟩

/-- **`eval_lsb`** of a positive number. -/
theorem evalLsb_spec [NeZero w] {x : CppInt w} {n : ℕ} (hx : x.Represents n) (h₀ : n ≠ 0)
    (hsize : w * x.size ≤ 2 ^ 32) : ∃ k < w * x.size, evalLsb x = some k ∧ LowestAt n k := by
  have hpos := NeZero.pos w
  have hmag : x.mag = n := by rw [hx.mag_eq, Int.natAbs_natCast]
  have hsign := hx.sign_of_nonneg (Int.natCast_nonneg n)
  have hget : evalGetSign x ≠ 0 := by
    rw [evalGetSign_eq hx.canonical, hx.toInt_eq, ne_eq, Int.sign_eq_zero_iff_zero]
    exact Int.natCast_ne_zero.mpr h₀
  obtain ⟨hbelow, hle, hat⟩ :=
    lsbIndex_spec x x.size 0 (Nat.zero_add _) fun j hj => absurd hj (Nat.not_lt_zero j)
  rw [evalLsb, if_neg hget, if_neg (by rw [hsign]; exact Bool.false_ne_true)]
  dsimp only
  generalize lsbIndex x x.size 0 = index at hbelow hle hat
  -- a positive number has a limb that is not zero
  have hlt : index < x.size := by
    refine Nat.lt_of_le_of_ne hle fun h => h₀ ?_
    rw [← hmag, mag, ← h]
    exact (Radix.value_of_zero_above _ (Nat.zero_le index) fun i _ hi =>
      toNat_eq_zero.mpr (hbelow i hi)).trans (natOf_zero x.limbs)
  obtain ⟨r, hr, hlsb, hlow, -⟩ := findLsb_spec (fun h => hat hlt (toNat_eq_zero.mp h))
  have hk : r + index * w < w * x.size := by
    have := Nat.mul_le_mul_left w hlt
    rw [Nat.mul_succ, Nat.mul_comm] at this
    omega
  refine ⟨r + index * w, hk, ?_, ?_⟩
  · rw [hlsb, map_some, uint_of_lt (by omega)]
  · obtain ⟨hset, hclear⟩ := lowestAt_iff_testBit.mp hlow
    have hbit : ∀ j, x.mag.testBit j = (decide (j / w < x.size) && (x.limbs (j / w)).getLsbD (j % w)) :=
      testBit_mag_eq x
    rw [← hmag, lowestAt_iff_testBit]
    constructor
    · rw [hbit, Nat.add_mul_div_right _ _ hpos, Nat.div_eq_of_lt hr, Nat.zero_add, Nat.add_mul_mod_self_right,
        Nat.mod_eq_of_lt hr, decide_eq_true hlt, Bool.true_and]
      exact hset
    · intro j hj
      rw [hbit]
      have hdm := Nat.div_add_mod j w
      have hmod := Nat.mod_lt j hpos
      rcases Nat.lt_trichotomy (j / w) index with h | h | h
      · rw [hbelow _ h]
        exact (congrArg _ BitVec.getLsbD_zero).trans (Bool.and_false _)
      · rw [h, Nat.mul_comm] at hdm
        rw [h, show (x.limbs index).getLsbD (j % w) = false from hclear _ (by omega), Bool.and_false]
      · have := Nat.mul_le_mul_left w h
        rw [Nat.mul_succ, Nat.mul_comm w index] at this
        omega

/-! ### Loops on numbers -/

section Loops
variable {cap : ℕ} (hw : LimbWidth w) (hmax : w * cap ≤ 2 ^ 32) (hcap : 0 < cap)
  (config : ShiftConfig)
include hw hmax hcap

omit hw in
theorem size_le_cap {x : CppInt w} {n : ℕ} (hx : x.Represents n) (hlt : n < 2 ^ (w * cap)) :
    w * x.size ≤ 2 ^ 32 := by
  have hmag : x.mag = n := by rw [hx.mag_eq, Int.natAbs_natCast]
  have hle := hx.canonical.1.size_le hcap (by rwa [hmag, ← pow_mul])
  exact (Nat.mul_le_mul_left w hle).trans hmax

/-- **The factors of two** of a positive number shifted out. -/
theorem oddPart_spec {x : CppInt w} {n : ℕ} (hx : x.Represents n) (h₀ : n ≠ 0)
    (hlt : n < 2 ^ (w * cap)) :
    ∃ k < 2 ^ 32, evalLsb x = some k ∧ LowestAt n k ∧ n / 2 ^ k < 2 ^ (w * cap) ∧
      (evalRightShift config x k).Represents (n / 2 ^ k : ℕ) := by
  have := hw.neZero
  have hsize := size_le_cap hmax hcap hx hlt
  obtain ⟨k, hk, hlsb, hlow⟩ := evalLsb_spec hx h₀ hsize
  have hdiv : k / w < 2 ^ w := (Nat.div_le_self k w).trans_lt ((hk.trans_le hsize).trans_le hw.limb_le)
  have hrep := evalRightShiftBy_spec hw hx.canonical hsize hdiv (strategy_applies hw config k)
  rw [hx.toInt_eq] at hrep
  exact ⟨k, hk.trans_le hsize, hlsb, hlow, (Nat.div_le_self _ _).trans_lt hlt, by exact_mod_cast hrep⟩

omit hw hmax hcap in
theorem limbs_of_size_le {x : CppInt w} {n : ℕ} (hx : x.Represents n) (hsize : x.size ≤ 2) :
    (x.size = 1 → (x.limbs 0).toNat = n) ∧ (x.size ≠ 1 → lowLimbs x = n) ∧ n < 2 ^ w * 2 ^ w := by
  have hmag : x.mag = n := by rw [hx.mag_eq, Int.natAbs_natCast]
  have hlt := x.mag_lt
  have hpos := hx.canonical.1.1
  rw [hmag] at hlt
  refine ⟨fun h => ?_, fun h => ?_, hlt.trans_le ?_⟩
  · rw [← hmag, mag, h, natOf_one]
  · rw [← hmag, mag, show x.size = 2 by omega, natOf_succ, natOf_one, pow_one, lowLimbs, twoLimbs,
      Nat.add_comm]
  · rw [← pow_two]
    exact Nat.pow_le_pow_right (Nat.two_pow_pos w) hsize

theorem size_le_of_lt {u : CppInt w} {m : ℕ} (hu : u.Represents m) (hm : m < 2 ^ (w * cap)) :
    u.size ≤ maxLimbs w := by
  have hle : cap ≤ maxLimbs w := le_maxLimbs (by have := hw.le; omega) (by have := hw.le; omega)
  refine (hu.canonical.1.size_le hcap ?_).trans hle
  rw [hu.mag_eq, Int.natAbs_natCast, ← pow_mul]
  exact hm

/-- **The loop of `eval_gcd` with a limb.** -/
theorem gcdLimbLoop_spec (fuel : ℕ) (u : CppInt w) (m : ℕ) (v : BitVec w) (hu : u.Represents m)
    (hm : m % 2 = 1) (hv : v.toNat % 2 = 1) (hlt : m < 2 ^ (w * cap))
    (hfuel : m + v.toNat + 2 < fuel) :
    ∃ g, gcdLimbLoop config fuel u v = some g ∧ g.toNat = m.gcd v.toNat := by
  induction fuel generalizing u m with
  | zero => omega
  | succ fuel ih =>
    rw [gcdLimbLoop]
    split
    · rename_i hsize
      obtain ⟨hone, htwo, -⟩ := limbs_of_size_le hu hsize
      split
      · rename_i h
        have hlimb := hone h
        obtain ⟨g, hrun, hg⟩ := integerGcdReduce_spec fuel (u.limbs 0) v (by rwa [hlimb]) hv
          (by rw [hlimb]; omega)
        exact ⟨g, hrun, by rw [hg, hlimb]⟩
      · -- two limbs: the result is narrowed to `limb_type`, and divides a limb
        rename_i h
        have hle : m.gcd v.toNat ≤ v.toNat := Nat.gcd_le_right _ (by omega)
        rw [htwo h, integerGcdReduceDouble_spec fuel m v.toNat hm hv (by omega)]
        refine ⟨_, rfl, ?_⟩
        rw [BitVec.toNat_ofNat]
        exact Nat.mod_eq_of_lt (hle.trans_lt v.isLt)
    · -- more than two limbs, so more than the limb `v`
      rename_i hsize
      have hmag : u.mag = m := by rw [hu.mag_eq, Int.natAbs_natCast]
      have hbig : v.toNat < m := by
        have hle := hu.canonical.1.pow_le (by omega)
        rw [hmag] at hle
        have := Nat.pow_le_pow_right (Nat.two_pow_pos w) (show 1 ≤ u.size - 1 by omega)
        rw [pow_one] at this
        exact v.isLt.trans_le (this.trans hle)
      have hsub : (evalSubtractLimb u .result v).Represents (m - v.toNat : ℕ) := by
        have hum := size_le_of_lt hw hmax hcap hu hlt
        have h := evalSubtractLimb_iff (r := u) (a := .result) (o := v) hw.lt hu.canonical.1 hum
        rw [show ((Operand.result : Operand w).get u).toInt = u.toInt from rfl, hu.toInt_eq,
          ← Nat.cast_sub hbig.le] at h
        exact h.mpr ((Nat.sub_le m _).trans_lt (hu.fits hum))
      obtain ⟨k, -, hlsb, hlow, hlt', hrep⟩ :=
        oddPart_spec hw hmax hcap config hsub (by omega) (by omega)
      obtain ⟨hodd, hsum, hkeep⟩ := (⟨hv, hm, hbig.le⟩ : OddPair v.toNat m).turn hlow
      obtain ⟨g, hrun, hg⟩ := ih _ _ hrep hodd hlt' (by omega)
      refine ⟨g, ?_, by rw [hg, Nat.gcd_comm, hkeep, Nat.gcd_comm]⟩
      dsimp only
      rw [hlsb, bind_some, hrun]

/-- **A turn of the loop of `eval_gcd`**, where the turns after it find the divisor. -/
theorem gcdTurn_spec (config : ShiftConfig) {fuel m n : ℕ} {u v : CppInt w}
    {next : CppInt w → CppInt w → Option (CppInt w)} (hu : u.Represents m) (hv : v.Represents n)
    (hp : OddPair m n) (hlt : m < n) (hn : n < 2 ^ (w * cap)) (hfuel : m + n + 1 < fuel)
    (hnext : ∀ (v' : CppInt w) (n' : ℕ), v'.Represents n' → n' % 2 = 1 → n' < 2 ^ (w * cap) →
      m + n' < m + n → ∃ y, next u v' = some y ∧ y.Represents (m.gcd n' : ℕ)) :
    ∃ y, gcdTurn config fuel next u v = some y ∧ y.Represents (m.gcd n : ℕ) := by
  have hum : u.mag = m := by rw [hu.mag_eq, Int.natAbs_natCast]
  have hvm : v.mag = n := by rw [hv.mag_eq, Int.natAbs_natCast]
  have hle : u.size ≤ v.size := by
    have h := v.mag_lt
    rw [hvm] at h
    exact hu.canonical.1.size_le hv.canonical.1.1 (by rw [hum]; omega)
  rw [gcdTurn]
  split
  · rename_i hsize
    obtain ⟨hvone, hvtwo, hvlt⟩ := limbs_of_size_le hv hsize
    obtain ⟨huone, hutwo, -⟩ := limbs_of_size_le hu (hle.trans hsize)
    split
    · rename_i h
      have hv₀ := hvone h
      have hu₀ := huone (by have := hu.canonical.1.1; omega)
      obtain ⟨g, hrun, hg⟩ := integerGcdReduce_spec fuel (v.limbs 0) (u.limbs 0) (by rw [hv₀]; exact hp.right)
        (by rw [hu₀]; exact hp.left) (by rw [hv₀, hu₀]; omega)
      have hrep := assignLimb_spec u g
      rw [hg, hv₀, hu₀, Nat.gcd_comm] at hrep
      exact ⟨_, by rw [hrun]; rfl, hrep⟩
    · -- `v` has two limbs, `u` one or two
      rename_i h
      have hj : (if u.size = 1 then (u.limbs 0).toNat else lowLimbs u) = m := by
        split
        · exact huone ‹_›
        · exact hutwo ‹_›
      have hgcd : n.gcd m < 2 ^ w * 2 ^ w := (Nat.gcd_le_left m (by omega)).trans_lt hvlt
      have hrep := assignDouble_spec u hgcd
      rw [Nat.gcd_comm] at hrep
      refine ⟨_, ?_, hrep⟩
      dsimp only
      rw [hj, hvtwo h, integerGcdReduceDouble_spec fuel n m hp.right hp.left (by omega), Nat.gcd_comm]
      rfl
  · -- the difference is even, and its odd part takes the place of `v`
    have hsub : (evalSubtract v .result (.object u)).Represents (n - m : ℕ) := by
      have hvm := size_le_of_lt hw hmax hcap hv hn
      have h := evalSubtract_iff (r := v) (a := .result) (b := .object u) hw.lt hv.canonical.1
        hu.canonical.1 hvm (hle.trans hvm)
      rw [show ((Operand.result : Operand w).get v).toInt = v.toInt from rfl,
        show ((Operand.object u).get v).toInt = u.toInt from rfl, hv.toInt_eq, hu.toInt_eq,
        ← Nat.cast_sub hlt.le] at h
      exact h.mpr ((Nat.sub_le n m).trans_lt (hv.fits hvm))
    obtain ⟨k, -, hlsb, hlow, hlt', hrep⟩ := oddPart_spec hw hmax hcap config hsub (by omega) (by omega)
    obtain ⟨hodd, hsum, hkeep⟩ := hp.turn hlow
    obtain ⟨y, hrun, hy⟩ := hnext _ _ hrep hodd hlt' hsum
    refine ⟨y, ?_, by rwa [hkeep] at hy⟩
    dsimp only
    rw [hlsb, bind_some, hrun]

/-- **The loop of `eval_gcd`.** -/
theorem gcdLoop_spec (fuel : ℕ) (u v : CppInt w) (m n : ℕ) (hu : u.Represents m)
    (hv : v.Represents n) (hm : m % 2 = 1) (hn : n % 2 = 1) (hm' : m < 2 ^ (w * cap))
    (hn' : n < 2 ^ (w * cap)) (hfuel : m + n + 2 < fuel) :
    ∃ y, gcdLoop config fuel u v = some y ∧ y.Represents (m.gcd n : ℕ) := by
  induction fuel generalizing u v m n with
  | zero => omega
  | succ fuel ih =>
    rw [gcdLoop, compare_spec hu.canonical hv.canonical, hu.toInt_eq, hv.toInt_eq]
    -- after the exchange `u` is the smaller one; the sum falls with every turn
    rcases Nat.lt_trichotomy m n with h | rfl | h
    · have hs : ((m : ℤ) - n).sign = -1 := Int.sign_eq_neg_one_of_neg (by omega)
      rw [hs]
      exact gcdTurn_spec hw hmax hcap config hu hv ⟨hm, hn, h.le⟩ h hn' (by omega)
        fun v' n' hv' hodd hlt hsum => ih u v' m n' hu hv' hm hodd hm' hlt (by omega)
    · rw [Int.sub_self]
      exact ⟨u, rfl, by rwa [Nat.gcd_self]⟩
    · have hs : ((m : ℤ) - n).sign = 1 := Int.sign_eq_one_of_pos (by omega)
      rw [hs, Nat.gcd_comm]
      exact gcdTurn_spec hw hmax hcap config hv hu ⟨hn, hm, h.le⟩ h hm' (by omega)
        fun v' n' hv' hodd hlt hsum => ih v v' n n' hv hv' hn hodd hn' hlt (by omega)

end Loops

/-! ### The shift back -/

section ShiftBack
variable {cap shift : ℕ} {x y : CppInt w} (hw : LimbWidth w) (hmax : w * cap ≤ 2 ^ 32)
include hw hmax

omit hmax in
/-- An `int` that holds an `unsigned`, as `double_limb_type`. -/
theorem shiftCount_eq (h : shift < 2 ^ 32) :
    (toIntType shift % 2 ^ (2 * w)).toNat =
      if shift < 2 ^ 31 then shift else 2 ^ (2 * w) - (2 ^ 32 - shift) := by
  have hint : toIntType shift = if shift < 2 ^ 31 then (shift : ℤ) else shift - 2 ^ 32 := by
    rw [toIntType, Int.bmod_def]
    split <;> split <;> omega
  rw [hint]
  rcases hw with rfl | rfl
  · split <;> omega
  · split <;> omega

theorem leftShift_negative (hx : x.Trimmed) (h₀ : x.mag ≠ 0) (hcap : x.size ≤ cap) {t : ℕ} (ht : 0 < t)
    (ht' : t ≤ 2 ^ 31) {st : ShiftStrategy} (hst : st.Applies w (2 ^ (2 * w) - t))
    (h : leftShift st cap x (2 ^ (2 * w) - t) = some y) : 0 < y.size ∧ y.mag = 0 := by
  have := hw.neZero
  have hwcap := Nat.mul_le_mul_right cap hw.le
  have hpos := hx.1
  have hcap' : 2 * cap < 2 ^ 32 := by omega
  -- by limbs and by bytes the count stays past the storage, also narrowed
  have hoff : cap ≤ limbCast w ((2 ^ (2 * w) - t) / w) := by
    rw [limbCast]
    rcases hw with rfl | rfl
    · omega
    · omega
  have hbytes : cap * (w / 8) ≤ sizeCast ((2 ^ (2 * w) - t) / 8) := by
    rw [sizeCast]
    rcases hw with rfl | rfl
    · omega
    · omega
  generalize 2 ^ (2 * w) - t = s at *
  have hexp : w * cap ≤ w * limbCast w (s / w) := Nat.mul_le_mul_left w hoff
  cases st with
  | limb =>
    obtain rfl := some.inj h
    have hto := leftShiftLimb_spec hx hcap hcap' hst
    exact ⟨hto.size_pos, hto.mag_eq.trans (shift_past (by omega))⟩
  | byte =>
    change leftShiftByte cap x s = some y at h
    rw [leftShiftByte, if_neg fun hz => h₀ (hx.mag_eq_zero.mpr hz)] at h
    dsimp only at h
    split at h
    · cases h
    · have hle : (x.grow cap (shiftedSize x (limbCast w (s / w)) (s % w))).size * (w / 8) ≤ sizeCast
        (s / 8) :=
        (Nat.mul_le_mul_right _ (Nat.min_le_right _ _)).trans hbytes
      rw [if_pos hle] at h
      obtain rfl := some.inj h
      exact ⟨by simp, (assignLimb_spec _ 0).mag_eq⟩
  | generic =>
    obtain rfl := some.inj h
    have hto := leftShiftGeneric_spec hx hcap hcap' s
    have hmis := Nat.mul_le_mul_left w (Nat.le_add_right (limbCast w (s / w)) (misplaced cap x s))
    exact ⟨hto.size_pos, hto.mag_eq.trans (shift_past (by omega))⟩

/-- **The shift back** is exact while the count fits `int`. -/
theorem shiftBack_spec (config : ShiftConfig) {g : ℕ} (hx : x.Represents g) (hcap : 0 < cap)
    (hfit : g * 2 ^ shift < 2 ^ (w * cap)) (hshift : shift < 2 ^ 31) :
    ∃ y, shiftBack config cap x shift = some y ∧ y.Represents (g * 2 ^ shift : ℕ) := by
  have hmag : x.mag = g := by rw [hx.mag_eq, Int.natAbs_natCast]
  have hle : g ≤ g * 2 ^ shift := Nat.le_mul_of_pos_right g (Nat.two_pow_pos shift)
  have hsize : x.size ≤ cap := hx.canonical.1.size_le hcap (by rw [hmag, ← pow_mul]; omega)
  rw [shiftBack, shiftCount_eq hw (by omega), if_pos hshift]
  obtain ⟨y, hy, hrep⟩ := evalLeftShiftBy_spec hw hmax hx.canonical hsize (by rwa [hmag])
    (strategy_applies hw config shift)
  rw [hx.toInt_eq] at hrep
  exact ⟨y, hy, by exact_mod_cast hrep⟩

/-- Otherwise nothing is left of the number. -/
theorem shiftBack_negative (config : ShiftConfig) (hx : x.Trimmed) (h₀ : x.mag ≠ 0) (hcap : x.size ≤ cap)
    (hshift : 2 ^ 31 ≤ shift) (hshift' : shift < 2 ^ 32) (h : shiftBack config cap x shift = some y) :
    y.mag = 0 := by
  rw [shiftBack, shiftCount_eq hw hshift', if_neg (by omega), evalLeftShift, evalLeftShiftBy] at h
  have happ := strategy_applies hw config (2 ^ (2 * w) - (2 ^ 32 - shift))
  split at h
  · rename_i hz
    rcases hw with rfl | rfl
    · omega
    · omega
  · obtain ⟨z, hz, rfl⟩ := map_eq_some_iff.mp h
    obtain ⟨hpos, hmag⟩ := leftShift_negative hw hmax hx h₀ hcap (by omega) (by omega) happ hz
    rw [(normalize_spec hpos).2, hmag]

end ShiftBack

/-! ### The whole routine -/

/-- With enough fuel, the result is the greatest common divisor. -/
def YieldsGcd (config : ShiftConfig) (cap : ℕ) (result a b : CppInt w) : Prop :=
  ∃ n, ∀ fuel, n ≤ fuel → ∃ y, evalGcd config cap fuel result a b = some y ∧
    y.Represents (Int.gcd a.toInt b.toInt)

/-- The count of common factors of two is an `int`. -/
def CommonTwosFit (a b : CppInt w) : Prop :=
  a.mag = 0 ∨ b.mag = 0 ∨ ∀ k, 2 ^ k ∣ a.mag → 2 ^ k ∣ b.mag → k < 2 ^ 31

section Gcd
variable {cap : ℕ} (hw : LimbWidth w) (hmax : w * cap ≤ 2 ^ 32)
include hw hmax

/-- **`eval_gcd` with a limb.** -/
theorem evalGcdLimb_spec (config : ShiftConfig) {fuel : ℕ} (result : CppInt w) {a : CppInt w}
    (ha : a.Canonical)
    (hcap : a.size ≤ cap) (v : BitVec w) (hfuel : a.mag + v.toNat + 2 < fuel) :
    ∃ y, evalGcdLimb config cap fuel result a v = some y ∧ y.Represents (a.mag.gcd v.toNat : ℕ) := by
  have := hw.neZero
  have hcap₀ : 0 < cap := ha.1.1.trans_le hcap
  have hu := absolute_represents ha
  have hlt := a.mag_lt.trans_le (Nat.pow_le_pow_right (Nat.two_pow_pos w) hcap)
  rw [← pow_mul] at hlt
  rw [toInt_natAbs] at hu
  rw [evalGcdLimb]
  dsimp only
  by_cases hs : evalGetSign a = 0
  · rw [if_pos hs, (evalGetSign_eq_zero ha).mp hs, Nat.gcd_zero_left]
    exact ⟨_, rfl, assignLimb_spec result v⟩
  rw [if_neg hs]
  by_cases hv : v = 0
  · have hrep := assign_spec result hu.canonical
    rw [hu.toInt_eq] at hrep
    rw [if_pos hv, hv, show (0 : BitVec w).toNat = 0 from toNat_eq_zero.mpr rfl, Nat.gcd_zero_right]
    exact ⟨_, rfl, hrep⟩
  rw [if_neg hv]
  generalize (if evalGetSign a < 0 then a.negate else a) = u at hu
  have hmag : a.mag ≠ 0 := mt (evalGetSign_eq_zero ha).mpr hs
  have hv₀ : v.toNat ≠ 0 := fun h => hv (toNat_eq_zero.mp h)
  obtain ⟨us, -, hlsb, hlow, hlt', hrep⟩ := oddPart_spec hw hmax hcap₀ config hu hmag hlt
  obtain ⟨vs, hvs, hfind, hlow', hshift⟩ := findLsb_spec hv₀
  have hv' : (if vs ≠ 0 then v >>> vs else v).toNat = v.toNat / 2 ^ vs := by
    split
    · exact hshift
    · rename_i h
      rw [not_not.mp h, pow_zero, Nat.div_one]
  have hle₁ := Nat.div_le_self a.mag (2 ^ us)
  have hle₂ := Nat.div_le_self v.toNat (2 ^ vs)
  obtain ⟨g, hrun, hg⟩ := gcdLimbLoop_spec hw hmax hcap₀ config fuel _ _ (if vs ≠ 0 then v >>> vs else v) hrep
    hlow.2 (by rw [hv']; exact hlow'.2) hlt' (by rw [hv']; omega)
  rw [hv'] at hg
  have hgcd := gcd_of_lowestAt hlow hlow'
  rw [← hg] at hgcd
  have hfit : g.toNat * 2 ^ min us vs < 2 ^ (w * cap) := by
    rw [← hgcd]
    exact (Nat.gcd_le_left _ (Nat.pos_of_ne_zero hmag)).trans_lt hlt
  -- a limb has at most `w` factors of two, so the count is no danger here
  have hshift : min us vs < 2 ^ 31 := by
    rcases hw with rfl | rfl
    · omega
    · omega
  obtain ⟨y, hy, hrep'⟩ := shiftBack_spec hw hmax config (assignLimb_spec result g) hcap₀ hfit hshift
  rw [hgcd]
  exact ⟨y, by rw [hlsb, bind_some, hfind, bind_some, hrun, bind_some, hy], hrep'⟩

omit hmax in
/-- A single limb has few factors of two. -/
theorem twos_lt_of_size_one {x : CppInt w} (hx : x.size = 1) (h₀ : x.mag ≠ 0) {k : ℕ} (h : 2 ^ k ∣ x.mag) :
    k < 2 ^ 31 := by
  have hlt := x.mag_lt
  rw [hx, pow_one] at hlt
  have hk := (Nat.pow_lt_pow_iff_right (by decide : 1 < 2)).mp ((Nat.le_of_dvd (by omega) h).trans_lt hlt)
  rcases hw with rfl | rfl
  · omega
  · omega

/-- **`eval_gcd` of numbers of several limbs**, up to the shift at the end. -/
theorem evalGcd_run (config : ShiftConfig) (result : CppInt w) {a b : CppInt w} (ha : a.Canonical)
    (hb : b.Canonical) (hacap : a.size ≤ cap) (hbcap : b.size ≤ cap) (ha₁ : a.size ≠ 1) (hb₁ : b.size ≠ 1) :
    ∃ us vs g, us < 2 ^ 32 ∧ LowestAt a.mag us ∧ LowestAt b.mag vs ∧ a.mag.gcd b.mag = g * 2 ^ min us vs ∧
      g * 2 ^ min us vs < 2 ^ (w * cap) ∧ ∀ fuel, a.mag + b.mag + 2 < fuel →
        ∃ x : CppInt w, x.Represents (g : ℕ) ∧
          evalGcd config cap fuel result a b = shiftBack config cap x (min us vs) := by
  have hcap₀ : 0 < cap := ha.1.1.trans_le hacap
  have ha₀ : a.mag ≠ 0 := fun h => ha₁ (ha.1.mag_eq_zero.mp h).1
  have hb₀ : b.mag ≠ 0 := fun h => hb₁ (hb.1.mag_eq_zero.mp h).1
  have hu := absolute_represents ha
  have hv := absolute_represents hb
  rw [toInt_natAbs] at hu hv
  have halt := a.mag_lt.trans_le (Nat.pow_le_pow_right (Nat.two_pow_pos w) hacap)
  have hblt := b.mag_lt.trans_le (Nat.pow_le_pow_right (Nat.two_pow_pos w) hbcap)
  rw [← pow_mul] at halt hblt
  obtain ⟨us, hus, hlsb, hlow, hult, hurep⟩ := oddPart_spec hw hmax hcap₀ config hu ha₀ halt
  obtain ⟨vs, -, hlsb', hlow', hvlt, hvrep⟩ := oddPart_spec hw hmax hcap₀ config hv hb₀ hblt
  have hle₁ := Nat.div_le_self a.mag (2 ^ us)
  have hle₂ := Nat.div_le_self b.mag (2 ^ vs)
  have hgcd := gcd_of_lowestAt hlow hlow'
  have hfit := (Nat.gcd_le_left b.mag (Nat.pos_of_ne_zero ha₀)).trans_lt halt
  rw [hgcd] at hfit
  refine ⟨us, vs, _, hus, hlow, hlow', hgcd, hfit, fun fuel hfuel => ?_⟩
  obtain ⟨y, hrun, hy⟩ := gcdLoop_spec hw hmax hcap₀ config fuel _ _ _ _ hurep hvrep hlow.2 hlow'.2 hult hvlt
    (by omega)
  have hassign := assign_spec result hy.canonical
  rw [hy.toInt_eq] at hassign
  refine ⟨_, hassign, ?_⟩
  rw [evalGcd, if_neg ha₁, if_neg hb₁]
  dsimp only
  rw [if_neg (mt (evalGetSign_eq_zero ha).mp ha₀), if_neg (mt (evalGetSign_eq_zero hb).mp hb₀), hlsb,
    bind_some, hlsb', bind_some, hrun, bind_some]

/-- Too many common factors of two are not shifted back. -/
theorem fits_of_yieldsGcd {config : ShiftConfig} {result a b : CppInt w} (ha : a.Canonical)
    (hb : b.Canonical) (hacap : a.size ≤ cap) (hbcap : b.size ≤ cap)
    (h : YieldsGcd config cap result a b) : CommonTwosFit a b := by
  by_contra hnot
  obtain ⟨ha₀, hnot⟩ := not_or.mp hnot
  obtain ⟨hb₀, hnot⟩ := not_or.mp hnot
  refine hnot fun k hka hkb => ?_
  by_cases ha₁ : a.size = 1
  · exact twos_lt_of_size_one hw ha₁ ha₀ hka
  by_cases hb₁ : b.size = 1
  · exact twos_lt_of_size_one hw hb₁ hb₀ hkb
  obtain ⟨us, vs, g, hus, hlow, hlow', hgcd, hfit, hrun⟩ :=
    evalGcd_run hw hmax config result ha hb hacap hbcap ha₁ hb₁
  obtain ⟨n, hn⟩ := h
  obtain ⟨y, hy, hrep⟩ := hn (n + (a.mag + b.mag + 3)) (Nat.le_add_right _ _)
  obtain ⟨x, hx, heq⟩ := hrun (n + (a.mag + b.mag + 3)) (by omega)
  -- with `2 ^ 31` common factors or more, the count turns negative and the result is zero
  have hk : k ≤ min us vs := le_min ((hlow.dvd_iff k).mp hka) ((hlow'.dvd_iff k).mp hkb)
  by_contra hge
  have hd : a.mag.gcd b.mag ≠ 0 := (Nat.gcd_pos_of_pos_left _ (Nat.pos_of_ne_zero ha₀)).ne'
  have hg : g ≠ 0 := fun h => hd (by rw [hgcd, h, Nat.zero_mul])
  have hxmag : x.mag = g := by rw [hx.mag_eq, Int.natAbs_natCast]
  have hle : g ≤ g * 2 ^ min us vs := Nat.le_mul_of_pos_right g (Nat.two_pow_pos _)
  have hxcap : x.size ≤ cap :=
    hx.canonical.1.size_le (ha.1.1.trans_le hacap) (by rw [hxmag, ← pow_mul]; omega)
  rw [heq] at hy
  have hzero := shiftBack_negative hw hmax config hx.canonical.1 (by rwa [hxmag]) hxcap (by omega)
    (by omega) hy
  rw [hrep.mag_eq, Int.natAbs_natCast, Int.gcd, toInt_natAbs, toInt_natAbs] at hzero
  exact hd hzero

/-- **`eval_gcd`**: it ends with the greatest common divisor, exactly where the count of common factors
of two is an `int`. -/
theorem evalGcd_iff (config : ShiftConfig) (result : CppInt w) {a b : CppInt w} (ha : a.Canonical)
    (hb : b.Canonical) (hacap : a.size ≤ cap) (hbcap : b.size ≤ cap) :
    YieldsGcd config cap result a b ↔ CommonTwosFit a b := by
  refine ⟨fits_of_yieldsGcd hw hmax ha hb hacap hbcap, fun hfit => ?_⟩
  have hcap₀ : 0 < cap := ha.1.1.trans_le hacap
  have hgcd : Int.gcd a.toInt b.toInt = a.mag.gcd b.mag := by rw [Int.gcd, toInt_natAbs, toInt_natAbs]
  rw [YieldsGcd, hgcd]
  refine ⟨a.mag + b.mag + 3, fun fuel hfuel => ?_⟩
  by_cases ha₁ : a.size = 1
  · have hlimb : (a.limbs 0).toNat = a.mag := by rw [mag, ha₁, natOf_one]
    obtain ⟨y, hy, hrep⟩ := evalGcdLimb_spec hw hmax config result hb hbcap (a.limbs 0)
      (show b.mag + (a.limbs 0).toNat + 2 < fuel by omega)
    rw [hlimb, Nat.gcd_comm] at hrep
    exact ⟨y, by rw [evalGcd, if_pos ha₁, hy], hrep⟩
  by_cases hb₁ : b.size = 1
  · have hlimb : (b.limbs 0).toNat = b.mag := by rw [mag, hb₁, natOf_one]
    obtain ⟨y, hy, hrep⟩ := evalGcdLimb_spec hw hmax config result ha hacap (b.limbs 0)
      (show a.mag + (b.limbs 0).toNat + 2 < fuel by omega)
    rw [hlimb] at hrep
    exact ⟨y, by rw [evalGcd, if_neg ha₁, if_pos hb₁, hy], hrep⟩
  obtain ⟨us, vs, g, hus, hlow, hlow', hd, hlt, hrun⟩ :=
    evalGcd_run hw hmax config result ha hb hacap hbcap ha₁ hb₁
  obtain ⟨x, hx, heq⟩ := hrun fuel (by omega)
  have hshift : min us vs < 2 ^ 31 := by
    rcases hfit with h | h | h
    · exact absurd (ha.1.mag_eq_zero.mp h).1 ha₁
    · exact absurd (hb.1.mag_eq_zero.mp h).1 hb₁
    · exact h _ ((hlow.dvd_iff _).mpr (min_le_left _ _)) ((hlow'.dvd_iff _).mpr (min_le_right _ _))
  obtain ⟨y, hy, hrep⟩ := shiftBack_spec hw hmax config hx hcap₀ hlt hshift
  rw [hd, heq]
  exact ⟨y, hy, hrep⟩

end Gcd

/-- Twelve and eighteen. -/
theorem evalGcd_iff_twelve :
    YieldsGcd .littleEndian (2 ^ 26) (zero 64) (⟨fun _ => 12, 1, false⟩ : CppInt 64) ⟨fun _ => 18, 1, true⟩ :=
  (evalGcd_iff (Or.inr rfl) (by decide) .littleEndian (zero 64) (by decide) (by decide) (by decide)
    (by decide)).mpr (Or.inr (Or.inr fun _ hk _ =>
      twos_lt_of_size_one (Or.inr rfl) rfl (by decide) hk))

theorem pow_dvd_powerOfLimb (n : ℕ) : 2 ^ (64 * n) ∣ (powerOfLimb n).mag := by
  have hlow : natOf (powerOfLimb n).limbs n = 0 :=
    (Radix.value_of_zero_above _ (Nat.zero_le n) fun i _ hi =>
      toNat_eq_zero.mpr (if_neg hi.ne)).trans (natOf_zero _)
  rw [mag, show (powerOfLimb n).size = n + 1 from rfl, natOf_succ, hlow, Nat.zero_add, ← pow_mul]
  exact Nat.dvd_mul_left _ _

/-- Of `2 ^ (2 ^ 31)` and itself, the divisor is not returned. -/
theorem evalGcd_loses_power :
    ¬ YieldsGcd .littleEndian (2 ^ 26) (zero 64) (powerOfLimb (2 ^ 25)) (powerOfLimb (2 ^ 25)) := by
  obtain ⟨hcan, h₀, -⟩ := powerOfLimb_spec (2 ^ 25)
  have hdvd := pow_dvd_powerOfLimb (2 ^ 25)
  have hsize : (powerOfLimb (2 ^ 25)).size ≤ 2 ^ 26 := Nat.le_of_ble_eq_true rfl
  generalize powerOfLimb (2 ^ 25) = x at hcan h₀ hdvd hsize
  intro h
  rcases fits_of_yieldsGcd (Or.inr rfl) (by decide) hcan hcan hsize hsize h with hz | hz | hfit
  · exact h₀ hz
  · exact h₀ hz
  · exact absurd (hfit (64 * 2 ^ 25) hdvd hdvd) (by decide)

end SourceLibs.CppInt
