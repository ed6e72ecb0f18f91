import SourceLibs.Support.Pass
import Mathlib.Data.Int.Order.Basic
import Mathlib.Algebra.Order.Ring.Int

/-!
# CppInt — the unbounded signed-magnitude backend

`cpp_int_base<0, 0, signed_magnitude, unchecked, Allocator>`: a pointer to limbs of `w` bits, a
limb count and a sign.  The storage behind `limbs()` is a function of the position: the entries
below `size` are the number, the entries at and past `size` are whatever the buffer holds there,
so `resize` exposes arbitrary limbs and an operation has to write a limb before it may rely on
it.  Unbounded means that `MaxBits` is `UINT_MAX`: `resize` clips to `max_limbs`, and no object has
more limbs.  A limb stored behind them is outside of the buffer, and not part of the number.

`mag` is the magnitude, `toInt` the integer meant.  A number is *trimmed* when its top limb is
not zero, or it is the single limb `0`, and *canonical* when, besides, zero is not negative.

An operation writes to an object `result` that may also be one of its operands.  An `Operand` is
`result` itself or another object; two other objects are never written, so whether they coincide
does not matter.

`limb_type` is `BitVec w`.  A `double_limb_type` is a natural number reduced modulo `2 ^ (2 w)`
by every operation on it (`dbl`); a narrowing cast keeps the low limb (`BitVec.ofNat w`), and
`>> limb_bits` is the division by `2 ^ w`.
-/

namespace SourceLibs
open Function Radix

/-- `limbs()`, `size()` and `sign()` of a backend object; limbs have `w` bits. -/
structure CppInt (w : ℕ) where
  limbs : ℕ → BitVec w
  size : ℕ
  sign : Bool

namespace CppInt
variable {w : ℕ} {x : CppInt w} (p : ℕ → BitVec w)

/-- The value a `double_limb_type` variable holds. -/
def dbl (w n : ℕ) : ℕ := n % 2 ^ (2 * w)

theorem dbl_eq {n : ℕ} (h : n < 2 ^ w * 2 ^ w) : dbl w n = n := by
  rw [dbl, two_mul, pow_add]
  exact Nat.mod_eq_of_lt h

/-- The low limb and what `>> limb_bits` leaves are the two digits of a double limb. -/
theorem lo_add_hi (w n : ℕ) : (BitVec.ofNat w n).toNat + 2 ^ w * (n / 2 ^ w) = n := by
  rw [BitVec.toNat_ofNat]
  exact Nat.mod_add_div n (2 ^ w)

theorem toNat_eq_zero {d : BitVec w} : d.toNat = 0 ↔ d = 0 := by
  rw [← BitVec.toNat_inj]
  simp

/-! ### The integer an object means -/

/-- The number the limbs at positions below `n` denote, least significant first. -/
def natOf (p : ℕ → BitVec w) (n : ℕ) : ℕ := value (2 ^ w) (fun i => (p i).toNat) n

/-- The magnitude. -/
def mag (x : CppInt w) : ℕ := natOf x.limbs x.size

/-- Sign and magnitude. -/
def toInt (x : CppInt w) : ℤ := if x.sign then -(x.mag : ℤ) else x.mag

/-- No leading zero limb. -/
def Trimmed (x : CppInt w) : Prop := 0 < x.size ∧ (x.size = 1 ∨ x.limbs (x.size - 1) ≠ 0)

/-- Trimmed, and zero carries a false sign. -/
def Canonical (x : CppInt w) : Prop :=
  x.Trimmed ∧ (x.size = 1 → x.limbs 0 = 0 → x.sign = false)

/-- `x` is the canonical representation of `z`. -/
structure Represents (x : CppInt w) (z : ℤ) : Prop where
  canonical : x.Canonical
  toInt_eq : x.toInt = z

instance (x : CppInt w) : Decidable x.Trimmed := inferInstanceAs (Decidable (_ ∧ _))

instance (x : CppInt w) : Decidable x.Canonical := inferInstanceAs (Decidable (_ ∧ _))

@[simp] theorem natOf_zero : natOf p 0 = 0 := value_zero _ _

@[simp] theorem natOf_one : natOf p 1 = (p 0).toNat := value_one _ _

theorem natOf_succ (n : ℕ) :
    natOf p (n + 1) = natOf p n + (p n).toNat * (2 ^ w) ^ n := value_succ _ _ _

theorem natOf_congr {p q : ℕ → BitVec w} {n : ℕ} (h : ∀ i < n, p i = q i) : natOf p n = natOf q n :=
  value_congr _ fun i hi => by rw [h i hi]

theorem natOf_lt (n : ℕ) : natOf p n < (2 ^ w) ^ n :=
  value_lt fun i _ => (p i).isLt

/-- A limb stored at or past position `n` is not seen. -/
theorem natOf_update {p : ℕ → BitVec w} {n i : ℕ} (h : n ≤ i) (v : BitVec w) :
    natOf (update p i v) n = natOf p n :=
  natOf_congr fun j hj => update_of_ne (by omega) _ _

theorem natOf_update_of_lt {n i : ℕ} (h : i < n) (v : BitVec w) :
    natOf (update p i v) n + (p i).toNat * (2 ^ w) ^ i =
      natOf p n + v.toNat * (2 ^ w) ^ i := by
  have e : (fun j => (update p i v j).toNat) =
      update (fun j => (p j).toNat) i v.toNat := by
    funext j
    by_cases hj : j = i
    · subst hj
      simp
    · simp [update_of_ne hj]
  rw [natOf, e]
  exact value_update _ _ _ h

theorem natOf_inj {p q : ℕ → BitVec w} {n : ℕ} (h : natOf p n = natOf q n) : ∀ i < n, p i = q i :=
  fun i hi => BitVec.eq_of_toNat_eq (value_inj (fun j _ => (p j).isLt) (fun j _ => (q j).isLt) h i hi)

theorem natOf_lt_of_limb {p q : ℕ → BitVec w} {n i : ℕ} (hi : i < n) (hlt : p i < q i)
    (heq : ∀ j, i < j → j < n → p j = q j) : natOf p n < natOf q n :=
  value_lt_of_digit hi (fun j _ => (p j).isLt) (BitVec.lt_def.mp hlt)
    fun j h₁ h₂ => by rw [heq j h₁ h₂]

theorem mag_lt (x : CppInt w) : x.mag < (2 ^ w) ^ x.size := natOf_lt _ _

theorem Trimmed.pow_le (h : x.Trimmed) (h₁ : x.size ≠ 1) : (2 ^ w) ^ (x.size - 1) ≤ x.mag := by
  have htop : (x.limbs (x.size - 1)).toNat ≠ 0 := fun e =>
    h.2.resolve_left h₁ (toNat_eq_zero.mp e)
  have := pow_le_value (B := 2 ^ w) (f := fun i => (x.limbs i).toNat) htop
  rwa [Nat.sub_add_cancel h.1] at this

theorem Trimmed.pow_le_of_ne_zero (h : x.Trimmed) (h₀ : x.mag ≠ 0) :
    (2 ^ w) ^ (x.size - 1) ≤ x.mag := by
  by_cases h₁ : x.size = 1
  · rw [h₁, Nat.sub_self, pow_zero]
    exact Nat.pos_of_ne_zero h₀
  · exact h.pow_le h₁

/-- A magnitude that needs all the limbs has no leading zero limb. -/
theorem trimmed_of_pow_le (h : 0 < x.size) (h₁ : x.size = 1 ∨ (2 ^ w) ^ (x.size - 1) ≤ x.mag) :
    x.Trimmed := by
  refine ⟨h, h₁.imp id fun hle htop => ?_⟩
  have hlt := natOf_lt x.limbs (x.size - 1)
  have e := natOf_succ x.limbs (x.size - 1)
  rw [Nat.sub_add_cancel h, htop, toNat_eq_zero.mpr rfl] at e
  rw [mag] at hle
  omega

theorem mag_lt_of_size {x y : CppInt w} (hx : x.Trimmed) (hy : y.Trimmed) (h : y.size < x.size) :
    y.mag < x.mag := by
  have h₁ := hx.pow_le (by have := hy.1; omega)
  have h₂ : (2 ^ w) ^ y.size ≤ (2 ^ w) ^ (x.size - 1) :=
    Nat.pow_le_pow_right (Nat.two_pow_pos w) (by omega)
  exact (y.mag_lt.trans_le h₂).trans_le h₁

theorem Trimmed.mag_eq_zero (h : x.Trimmed) : x.mag = 0 ↔ x.size = 1 ∧ x.limbs 0 = 0 := by
  constructor
  · intro h₀
    have h₁ : x.size = 1 := by
      by_contra h₁
      have := h.pow_le h₁
      rw [h₀] at this
      exact absurd this (by simp)
    rw [mag, h₁, natOf_one, toNat_eq_zero] at h₀
    exact ⟨h₁, h₀⟩
  · rintro ⟨h₁, h₀⟩
    rw [mag, h₁, natOf_one, h₀]
    rfl

theorem canonical_iff : x.Canonical ↔ x.Trimmed ∧ (x.mag = 0 → x.sign = false) := by
  refine and_congr_right fun h => ?_
  rw [h.mag_eq_zero, and_imp]

@[simp] theorem toInt_natAbs (x : CppInt w) : x.toInt.natAbs = x.mag := by
  unfold toInt
  split <;> simp

theorem toInt_of_sign (h : x.sign = false) : x.toInt = x.mag := by
  simp [toInt, h]

theorem Canonical.sign_eq (h : x.Canonical) : x.sign = decide (x.toInt < 0) := by
  have hz := (canonical_iff.mp h).2
  unfold toInt
  cases hs : x.sign with
  | false => simp
  | true =>
    have : x.mag ≠ 0 := fun e => by rw [hz e] at hs; cases hs
    simp only [if_true]
    exact (decide_eq_true (by omega)).symm

theorem Trimmed.represents (h : x.Trimmed) (hs : x.sign = false) : x.Represents x.mag :=
  ⟨canonical_iff.mpr ⟨h, fun _ => hs⟩, toInt_of_sign hs⟩

theorem Represents.sign_of_nonneg {z : ℤ} (h : x.Represents z) (hz : 0 ≤ z) : x.sign = false := by
  rw [h.canonical.sign_eq, h.toInt_eq]
  exact decide_eq_false (by omega)

theorem Trimmed.size_le (h : x.Trimmed) {n : ℕ} (hn : 0 < n) (hlt : x.mag < (2 ^ w) ^ n) :
    x.size ≤ n := by
  by_contra hgt
  have h₁ := h.pow_le (by omega)
  have h₂ : (2 ^ w) ^ n ≤ (2 ^ w) ^ (x.size - 1) :=
    Nat.pow_le_pow_right (Nat.two_pow_pos w) (by omega)
  omega

theorem Represents.mag_eq {z : ℤ} (h : x.Represents z) : x.mag = z.natAbs := by
  rw [← toInt_natAbs, h.toInt_eq]

/-- **Canonical objects of one value have the same limbs, size and sign.** -/
theorem Canonical.ext {x y : CppInt w} (hx : x.Canonical) (hy : y.Canonical)
    (h : x.toInt = y.toInt) :
    x.size = y.size ∧ x.sign = y.sign ∧ ∀ i < x.size, x.limbs i = y.limbs i := by
  have hm : x.mag = y.mag := by rw [← toInt_natAbs, h, toInt_natAbs]
  have hsize : x.size = y.size := by
    have h₁ := mag_lt_of_size (w := w) hx.1 hy.1
    have h₂ := mag_lt_of_size (w := w) hy.1 hx.1
    omega
  refine ⟨hsize, by rw [hx.sign_eq, hy.sign_eq, h], fun i hi => ?_⟩
  rw [mag, mag, ← hsize] at hm
  exact natOf_inj hm i hi

/-! ### The members that change an object -/

/-- `limbs()[i] = v`. -/
def store (x : CppInt w) (i : ℕ) (v : BitVec w) : CppInt w :=
  { x with limbs := update x.limbs i v }

/-- The buffer after a loop that left the limbs `p` in it. -/
def setLimbs (x : CppInt w) (p : ℕ → BitVec w) : CppInt w := { x with limbs := p }

/-- `for(; i < x; ++i) p[i] = 0;`. -/
def zeroFill (p : ℕ → BitVec w) (i x : ℕ) : ℕ → BitVec w := fun j => if i ≤ j ∧ j < x then 0 else p j

/-- `max_limbs`, with `MaxBits` the greatest `unsigned` of 32 bits. -/
def maxLimbs (w : ℕ) : ℕ := (2 ^ 32 - 1) / w + if (2 ^ 32 - 1) % w ≠ 0 then 1 else 0

/-- `m_limbs = n`. -/
def setSize (x : CppInt w) (n : ℕ) : CppInt w := { x with size := n }

/-- `resize(n, n)`, never beyond `max_limbs`: the limbs between the old and the new size are whatever
the buffer holds. -/
def resize (x : CppInt w) (n : ℕ) : CppInt w := x.setSize (min n (maxLimbs w))

/-- `sign(b)`: zero stays unsigned, provided it is a single limb. -/
def setSign (x : CppInt w) (b : Bool) : CppInt w :=
  { x with sign := if b && x.size == 1 then x.limbs 0 != 0 else b }

/-- `negate()`. -/
def negate (x : CppInt w) : CppInt w := x.setSign (!x.sign)

/-- The count `normalize()` leaves: `while((m_limbs-1) && !p[m_limbs - 1]) --m_limbs;`. -/
def normalizeSize (p : ℕ → BitVec w) : ℕ → ℕ
  | 0 => 0
  | 1 => 1
  | n + 2 => if p (n + 1) = 0 then normalizeSize p (n + 1) else n + 2

/-- `normalize()`. -/
def normalize (x : CppInt w) : CppInt w := { x with size := normalizeSize x.limbs x.size }

/-- `operator=(limb_type)`. -/
def assignLimb (x : CppInt w) (i : BitVec w) : CppInt w := ((x.resize 1).store 0 i).setSign false

/-- `operator=(double_limb_type)`: both limbs are stored, the size follows the upper one. -/
def assignDouble (x : CppInt w) (i : ℕ) : CppInt w :=
  let p := (x.store 0 (BitVec.ofNat w i)).store 1 (BitVec.ofNat w (i / 2 ^ w))
  (p.setSize (if p.limbs 1 ≠ 0 then 2 else 1)).setSign false

/-- `operator=(const cpp_int_backend&)`, through `assign`: the limbs below `o.size()` are copied.  An
object has at most `max_limbs` limbs, so that its size is granted. -/
def assign (x o : CppInt w) : CppInt w :=
  { limbs := fun i => if i < o.size then o.limbs i else x.limbs i, size := o.size, sign := o.sign }

@[simp] theorem limbs_store (x : CppInt w) (i : ℕ) (v : BitVec w) :
    (x.store i v).limbs = update x.limbs i v := rfl
@[simp] theorem size_store (x : CppInt w) (i : ℕ) (v : BitVec w) : (x.store i v).size = x.size := rfl
@[simp] theorem sign_store (x : CppInt w) (i : ℕ) (v : BitVec w) : (x.store i v).sign = x.sign := rfl
@[simp] theorem limbs_setLimbs (x : CppInt w) (p : ℕ → BitVec w) : (x.setLimbs p).limbs = p := rfl
@[simp] theorem size_setLimbs (x : CppInt w) (p : ℕ → BitVec w) : (x.setLimbs p).size = x.size := rfl
@[simp] theorem sign_setLimbs (x : CppInt w) (p : ℕ → BitVec w) : (x.setLimbs p).sign = x.sign := rfl
@[simp] theorem limbs_setSize (x : CppInt w) (n : ℕ) : (x.setSize n).limbs = x.limbs := rfl
@[simp] theorem size_setSize (x : CppInt w) (n : ℕ) : (x.setSize n).size = n := rfl
@[simp] theorem limbs_resize (x : CppInt w) (n : ℕ) : (x.resize n).limbs = x.limbs := rfl
@[simp] theorem size_resize (x : CppInt w) (n : ℕ) : (x.resize n).size = min n (maxLimbs w) := rfl
@[simp] theorem limbs_setSign (x : CppInt w) (b : Bool) : (x.setSign b).limbs = x.limbs := rfl
@[simp] theorem size_setSign (x : CppInt w) (b : Bool) : (x.setSign b).size = x.size := rfl
@[simp] theorem limbs_normalize (x : CppInt w) : x.normalize.limbs = x.limbs := rfl
@[simp] theorem sign_normalize (x : CppInt w) : x.normalize.sign = x.sign := rfl
@[simp] theorem mag_setSign (x : CppInt w) (b : Bool) : (x.setSign b).mag = x.mag := rfl

theorem maxLimbs_pos : 0 < maxLimbs w := by
  rw [maxLimbs]
  split
  · exact Nat.succ_pos _
  · rename_i h
    exact Nat.add_pos_left (Nat.div_pos (Nat.le_of_dvd (by decide) (Nat.dvd_of_mod_eq_zero
      (Classical.not_not.mp h))) (Nat.pos_of_ne_zero fun hw => h (by rw [hw]; decide))) _

/-- The limbs hold as many bits as `UINT_MAX` counts. -/
theorem le_mul_maxLimbs (hw : 0 < w) : 2 ^ 32 - 1 ≤ w * maxLimbs w := by
  have hdiv := Nat.div_add_mod (2 ^ 32 - 1) w
  have hlt := Nat.mod_lt (2 ^ 32 - 1) hw
  rw [maxLimbs, Nat.mul_add]
  split <;> omega

/-- The bits are granted, up to those of a limb more. -/
theorem le_maxLimbs (hw : 0 < w) {n : ℕ} (h : w * n < 2 ^ 32 - 1 + w) : n ≤ maxLimbs w := by
  have hle := le_mul_maxLimbs hw
  refine Nat.le_of_lt_succ (Nat.lt_of_mul_lt_mul_left (a := w) ?_)
  rw [Nat.mul_succ]
  omega

theorem four_le_maxLimbs (hw : 0 < w) (hw' : w < 2 ^ 30) : 4 ≤ maxLimbs w := le_maxLimbs hw (by omega)

theorem resize_of_le {n : ℕ} (h : n ≤ maxLimbs w) : x.resize n = x.setSize n := by
  rw [resize, Nat.min_eq_left h]

@[simp] theorem size_assignLimb (x : CppInt w) (i : BitVec w) : (x.assignLimb i).size = 1 :=
  Nat.min_eq_left maxLimbs_pos

theorem Trimmed.sign_setSign (h : x.Trimmed) (b : Bool) :
    (x.setSign b).sign = (b && decide (x.mag ≠ 0)) := by
  have hz := h.mag_eq_zero
  cases b with
  | false => rfl
  | true =>
    by_cases h₁ : x.size = 1
    · by_cases h₀ : x.limbs 0 = 0
      · simp [setSign, h₁, h₀, hz]
      · simp [setSign, h₁, hz, bne, beq_eq_decide]
    · simp [setSign, h₁, hz]

/-- **`sign(b)` makes a trimmed object canonical.** -/
theorem Trimmed.canonical_setSign (h : x.Trimmed) (b : Bool) : (x.setSign b).Canonical := by
  refine canonical_iff.mpr ⟨h, fun h₀ => ?_⟩
  rw [h.sign_setSign]
  simp [show x.mag = 0 from h₀]

theorem Trimmed.toInt_setSign (h : x.Trimmed) (b : Bool) :
    (x.setSign b).toInt = if b then -(x.mag : ℤ) else x.mag := by
  unfold toInt
  rw [h.sign_setSign, mag_setSign]
  cases b with
  | false => simp
  | true =>
    by_cases h₀ : x.mag = 0
    · simp [h₀]
    · simp [h₀]

theorem Trimmed.setSign_represents (h : x.Trimmed) (b : Bool) :
    (x.setSign b).Represents (if b then -(x.mag : ℤ) else x.mag) :=
  ⟨h.canonical_setSign b, h.toInt_setSign b⟩

/-- **`negate()` on a canonical object.** -/
theorem Canonical.negate (h : x.Canonical) : x.negate.Represents (-x.toInt) := by
  refine ⟨h.1.canonical_setSign _, ?_⟩
  rw [CppInt.negate, h.1.toInt_setSign]
  unfold toInt
  cases x.sign <;> simp

theorem Represents.negate {z : ℤ} (h : x.Represents z) : x.negate.Represents (-z) := by
  rw [← h.toInt_eq]
  exact h.canonical.negate

theorem normalizeSize_spec (p : ℕ → BitVec w) : ∀ n, 0 < n →
    0 < normalizeSize p n ∧ normalizeSize p n ≤ n ∧
      (normalizeSize p n = 1 ∨ p (normalizeSize p n - 1) ≠ 0) ∧
      ∀ i, normalizeSize p n ≤ i → i < n → p i = 0
  | 1, _ => ⟨Nat.one_pos, le_rfl, Or.inl rfl, fun i h₁ h₂ => by
    simp only [normalizeSize] at h₁; omega⟩
  | n + 2, _ => by
    unfold normalizeSize
    split
    · rename_i h₀
      obtain ⟨h₁, h₂, h₃, h₄⟩ := normalizeSize_spec p (n + 1) (by omega)
      refine ⟨h₁, by omega, h₃, fun i hi hn => ?_⟩
      by_cases e : i = n + 1
      · rw [e, h₀]
      · exact h₄ i hi (by omega)
    · rename_i h₀
      exact ⟨by omega, le_rfl, Or.inr h₀, fun i h₁ h₂ => by omega⟩

theorem normalize_size_le (x : CppInt w) : x.normalize.size ≤ x.size := by
  rcases Nat.eq_zero_or_pos x.size with h | h
  · rw [normalize, h]
    exact Nat.le_refl _
  · exact (normalizeSize_spec x.limbs x.size h).2.1

/-- **`normalize()` trims and keeps the magnitude.** -/
theorem normalize_spec (h : 0 < x.size) : x.normalize.Trimmed ∧ x.normalize.mag = x.mag := by
  obtain ⟨h₁, h₂, h₃, h₄⟩ := normalizeSize_spec x.limbs x.size h
  refine ⟨⟨h₁, h₃⟩, (value_of_zero_above _ h₂ fun i hi hn => ?_).symm⟩
  show (x.limbs i).toNat = 0
  rw [h₄ i hi hn]
  rfl

theorem normalize_represents (h : 0 < x.size) (hs : x.sign = false) :
    x.normalize.Represents x.mag := by
  obtain ⟨ht, hm⟩ := normalize_spec h
  have hrep := ht.represents hs
  rwa [hm] at hrep

theorem normalize_setSign (h : 0 < x.size) (b : Bool) :
    (x.normalize.setSign b).Represents (if b then -(x.mag : ℤ) else x.mag) := by
  obtain ⟨ht, hm⟩ := normalize_spec h
  have := ht.setSign_represents b
  rwa [hm] at this

theorem setSign_normalize (h : 0 < x.size) {b : Bool} (hb : b = true → x.mag ≠ 0) :
    (x.setSign b).normalize.Represents (if b then -(x.mag : ℤ) else x.mag) := by
  obtain ⟨ht, hm⟩ := normalize_spec (x := x.setSign b) h
  rw [mag_setSign] at hm
  have hs : (x.setSign b).normalize.sign = b := by
    cases b with
    | false => rfl
    | true =>
      show (if true && x.size == 1 then x.limbs 0 != 0 else true) = true
      split
      · rename_i h₁
        simp only [Bool.true_and, beq_iff_eq] at h₁
        have := hb rfl
        rw [mag, h₁, natOf_one] at this
        simpa [bne_iff_ne, toNat_eq_zero] using this
      · rfl
  refine ⟨canonical_iff.mpr ⟨ht, fun h₀ => ?_⟩, ?_⟩
  · rw [hm] at h₀
    rw [hs]
    exact Bool.eq_false_iff.mpr fun h₁ => hb h₁ h₀
  · rw [toInt, hs, hm]

theorem Trimmed.normalize (h : x.Trimmed) : x.normalize = x := by
  obtain ⟨limbs, size, sign⟩ := x
  obtain ⟨h₁, h₂⟩ := h
  simp only [CppInt.normalize, mk.injEq, and_true, true_and]
  match size, h₁, h₂ with
  | 1, _, _ => rfl
  | n + 2, _, h₂ =>
    have h₂' : limbs (n + 1) ≠ 0 := h₂.resolve_left (by simp)
    exact if_neg h₂'

theorem Trimmed.store (h : x.Trimmed) (i : ℕ) {v : BitVec w} (hv : v ≠ 0) :
    (x.store i v).Trimmed := by
  refine ⟨h.1, h.2.imp id fun htop => ?_⟩
  by_cases hi : x.size - 1 = i
  · rwa [size_store, limbs_store, hi, update_self]
  · rwa [size_store, limbs_store, update_of_ne hi]

/-- **`operator=(limb_type)`.** -/
theorem assignLimb_spec (x : CppInt w) (i : BitVec w) :
    (x.assignLimb i).Represents i.toNat := by
  have h : ((x.setSize 1).store 0 i).Trimmed := ⟨Nat.one_pos, Or.inl rfl⟩
  refine ⟨?_, ?_⟩ <;> rw [assignLimb, resize_of_le maxLimbs_pos]
  · exact h.canonical_setSign _
  rw [h.toInt_setSign]
  simp [mag, setSize]

/-- **`operator=(double_limb_type)`.** -/
theorem assignDouble_spec (x : CppInt w) {i : ℕ} (hi : i < 2 ^ w * 2 ^ w) :
    (x.assignDouble i).Represents i := by
  have hhi : (BitVec.ofNat w (i / 2 ^ w)).toNat = i / 2 ^ w := by
    rw [BitVec.toNat_ofNat]
    exact Nat.mod_eq_of_lt (Nat.div_lt_of_lt_mul hi)
  have hsplit := lo_add_hi w i
  rw [assignDouble]
  split
  · rename_i h₁
    have h : (((x.store 0 (BitVec.ofNat w i)).store 1 (BitVec.ofNat w (i / 2 ^ w))).setSize 2).Trimmed :=
      ⟨Nat.two_pos, Or.inr h₁⟩
    refine ⟨h.canonical_setSign _, ?_⟩
    rw [h.toInt_setSign]
    have hm : natOf (update (update x.limbs 0 (BitVec.ofNat w i)) 1
        (BitVec.ofNat w (i / 2 ^ w))) 2 = i := by
      rw [natOf_succ, natOf_one, update_of_ne (by decide), update_self,
        update_self, hhi, pow_one, Nat.mul_comm]
      exact hsplit
    exact congrArg (fun n : ℕ => (n : ℤ)) hm
  · rename_i h₁
    have h : (((x.store 0 (BitVec.ofNat w i)).store 1 (BitVec.ofNat w (i / 2 ^ w))).setSize 1).Trimmed :=
      ⟨Nat.one_pos, Or.inl rfl⟩
    refine ⟨h.canonical_setSign _, ?_⟩
    rw [h.toInt_setSign]
    have h₀ : i / 2 ^ w = 0 := by
      rw [← hhi, toNat_eq_zero]
      simpa using h₁
    rw [h₀, Nat.mul_zero, Nat.add_zero] at hsplit
    have hm : natOf (update (update x.limbs 0 (BitVec.ofNat w i)) 1
        (BitVec.ofNat w (i / 2 ^ w))) 1 = i := by
      rw [natOf_one, update_of_ne (by decide), update_self, hsplit]
    exact congrArg (fun n : ℕ => (n : ℤ)) hm

/-- **`operator=(const cpp_int_backend&)`.** -/
theorem assign_spec (x : CppInt w) {o : CppInt w} (ho : o.Canonical) :
    (x.assign o).Represents o.toInt := by
  have hm : (x.assign o).mag = o.mag := natOf_congr fun i hi => if_pos hi
  have ht : (x.assign o).Trimmed := by
    refine ⟨ho.1.1, ho.1.2.imp id fun h => ?_⟩
    simpa only [assign, if_pos (Nat.sub_one_lt_of_lt ho.1.1)] using h
  refine ⟨canonical_iff.mpr ⟨ht, fun h₀ => (canonical_iff.mp ho).2 (hm ▸ h₀)⟩, ?_⟩
  simp only [toInt, hm]
  rfl

/-! ### What `max_limbs` limbs hold -/

/-- `max_limbs` limbs hold the magnitude of `z`. -/
def Fits (w : ℕ) (z : ℤ) : Prop := z.natAbs < (2 ^ w) ^ maxLimbs w

theorem Represents.size_le {z : ℤ} (h : x.Represents z) (hz : Fits w z) : x.size ≤ maxLimbs w :=
  h.canonical.1.size_le maxLimbs_pos (by rwa [h.mag_eq])

/-- An object means a number that fits. -/
theorem Represents.fits {z : ℤ} (h : x.Represents z) (hsize : x.size ≤ maxLimbs w) : Fits w z := by
  rw [Fits, ← h.mag_eq]
  exact x.mag_lt.trans_le (Nat.pow_le_pow_right (Nat.two_pow_pos w) hsize)

/-- A result that is right where it fits is right exactly there.  The two limbs of a double limb are
stored without `resize`. -/
theorem represents_iff_fits (hw : w < 2 ^ 30) {z : ℤ} (hsize : x.size ≤ max 2 (maxLimbs w))
    (h : Fits w z → x.Represents z) : x.Represents z ↔ Fits w z := by
  refine ⟨fun hx => ?_, h⟩
  rcases Nat.eq_zero_or_pos w with rfl | hw₀
  · have hlt := x.mag_lt
    rw [hx.mag_eq, pow_zero, one_pow] at hlt
    rwa [Fits, pow_zero, one_pow]
  · have hmax := four_le_maxLimbs hw₀ hw
    exact hx.fits (by omega)

/-! ### Operands that may be the result -/

/-- An operand of an operation that writes to `result`: the object `result` itself, or another. -/
inductive Operand (w : ℕ) where
  | result
  | object (x : CppInt w)

namespace Operand

/-- The object the operand refers to, when `result` is as given. -/
def get : Operand w → CppInt w → CppInt w
  | .result, r => r
  | .object x, _ => x

/-- The operand's limb at `i`, when `result`'s limb there is `cell`. -/
def limb : Operand w → ℕ → BitVec w → BitVec w
  | .result, _, cell => cell
  | .object x, i, _ => x.limbs i

variable (a : Operand w)

theorem limb_eq (r : CppInt w) (i : ℕ) : a.limb i (r.limbs i) = (a.get r).limbs i := by
  cases a <;> rfl

@[simp] theorem limbs_get_resize (r : CppInt w) (n : ℕ) :
    (a.get (r.resize n)).limbs = (a.get r).limbs := by
  cases a <;> rfl

@[simp] theorem sign_get_setSize (r : CppInt w) (n : ℕ) :
    (a.get (r.setSize n)).sign = (a.get r).sign := by
  cases a <;> rfl

@[simp] theorem limbs_get_setSize (r : CppInt w) (n : ℕ) :
    (a.get (r.setSize n)).limbs = (a.get r).limbs := by
  cases a <;> rfl

@[simp] theorem sign_get_resize (r : CppInt w) (n : ℕ) :
    (a.get (r.resize n)).sign = (a.get r).sign := by
  cases a <;> rfl

@[simp] theorem sign_get_setLimbs (r : CppInt w) (p : ℕ → BitVec w) :
    (a.get (r.setLimbs p)).sign = (a.get r).sign := by
  cases a <;> rfl

@[simp] theorem sign_get_store (r : CppInt w) (i : ℕ) (v : BitVec w) :
    (a.get (r.store i v)).sign = (a.get r).sign := by
  cases a <;> rfl

/-- `std::copy(p + i, p + x, pr + i)`, left out when the operand is the result. -/
def copyTo (a : Operand w) (i x : ℕ) (pr : ℕ → BitVec w) : ℕ → BitVec w :=
  match a with
  | .result => pr
  | .object o => fun j => if i ≤ j ∧ j < x then o.limbs j else pr j

theorem copyTo_eq (i k : ℕ) (pr : ℕ → BitVec w) :
    a.copyTo i (i + k) pr = fun j => if i ≤ j ∧ j < i + k then a.limb j (pr j) else pr j := by
  cases a with
  | result => exact funext fun j => (ite_self _).symm
  | object x => rfl

end Operand

/-- **A pass over limbs** that preserves `limb + 2 ^ w · carry`: `κ` reads the carry, `ψ j` is
what the step adds at position `j`. -/
theorem pass_natOf {γ : Type*} {g : γ → ℕ → BitVec w → BitVec w × γ} {P : γ → Prop} {κ : γ → ℤ}
    {ψ : ℕ → ℤ} {k i : ℕ} {f : ℕ → BitVec w} {c : γ} (hc : P c)
    (hs : ∀ c' j, i ≤ j → j < i + k → P c' → P (g c' j (f j)).2 ∧
      ((g c' j (f j)).1.toNat : ℤ) + ((2 ^ w : ℕ) : ℤ) * κ (g c' j (f j)).2 = κ c' + ψ j) :
    P (pass g k i (f, c)).2 ∧
      (natOf (pass g k i (f, c)).1 (i + k) : ℤ) +
          κ (pass g k i (f, c)).2 * ((2 ^ w : ℕ) : ℤ) ^ (i + k) =
        natOf f i + κ c * ((2 ^ w : ℕ) : ℤ) ^ i +
          ((2 ^ w : ℕ) : ℤ) ^ i * value ((2 ^ w : ℕ) : ℤ) (fun t => ψ (i + t)) k := by
  rw [natOf, natOf, cast_value, cast_value]
  exact pass_value (δ := fun d : BitVec w => (d.toNat : ℤ)) (φ := fun j _ => ψ j) hc hs

theorem natOf_split (m k : ℕ) :
    (natOf p (m + k) : ℤ) = natOf p m +
      ((2 ^ w : ℕ) : ℤ) ^ m * value ((2 ^ w : ℕ) : ℤ) (fun t => ((p (m + t)).toNat : ℤ)) k := by
  rw [natOf, natOf, cast_value, cast_value, value_split]

/-! ### Comparison -/

/-- The loop of `compare_unsigned`, from the top limb down. -/
def compareLimbs (pa pb : ℕ → BitVec w) : ℕ → ℤ
  | 0 => 0
  | i + 1 => if pa i ≠ pb i then (if pb i < pa i then 1 else -1) else compareLimbs pa pb i

/-- `compare_unsigned`: the signs are ignored. -/
def compareUnsigned (a o : CppInt w) : ℤ :=
  if a.size ≠ o.size then (if o.size < a.size then 1 else -1)
  else compareLimbs a.limbs o.limbs a.size

/-- `compare`, through `compare_imp`. -/
def compare (a o : CppInt w) : ℤ :=
  if a.sign ≠ o.sign then (if a.sign then -1 else 1)
  else if a.sign then -compareUnsigned a o else compareUnsigned a o

/-- `std::equal` on the limbs below `n`. -/
def equalLimbs (pa pb : ℕ → BitVec w) : ℕ → Bool
  | 0 => true
  | i + 1 => equalLimbs pa pb i && pa i == pb i

def evalEq (a b : CppInt w) : Bool :=
  a.sign == b.sign && a.size == b.size && equalLimbs a.limbs b.limbs a.size

theorem compareLimbs_spec (pa pb : ℕ → BitVec w) (n : ℕ) :
    compareLimbs pa pb n = ((natOf pa n : ℤ) - natOf pb n).sign := by
  -- `n` limbs are compared after the limbs above were found equal
  induction n with
  | zero => simp [compareLimbs]
  | succ n ih =>
    unfold compareLimbs
    split
    · rename_i hne
      split
      · rename_i hlt
        have := natOf_lt_of_limb (Nat.lt_add_one n) hlt fun j h₁ h₂ => by omega
        exact (Int.sign_eq_one_of_pos (by omega)).symm
      · rename_i hge
        have hlt : pa n < pb n := by
          have h₂ : (pa n).toNat ≠ (pb n).toNat := fun h => hne (BitVec.eq_of_toNat_eq h)
          rw [BitVec.lt_def] at hge ⊢
          omega
        have := natOf_lt_of_limb (Nat.lt_add_one n) hlt fun j h₁ h₂ => by omega
        exact (Int.sign_eq_neg_one_of_neg (by omega)).symm
    · rename_i heq
      rw [ih, natOf_succ, natOf_succ, Classical.not_not.mp heq]
      congr 1
      push_cast
      ring

/-- **`compare_unsigned` compares magnitudes.** -/
theorem compareUnsigned_spec {a o : CppInt w} (ha : a.Trimmed) (ho : o.Trimmed) :
    compareUnsigned a o = ((a.mag : ℤ) - o.mag).sign := by
  unfold compareUnsigned
  split
  · rename_i hne
    split
    · rename_i hlt
      have := mag_lt_of_size ha ho hlt
      exact (Int.sign_eq_one_of_pos (by omega)).symm
    · have := mag_lt_of_size ho ha (by omega)
      exact (Int.sign_eq_neg_one_of_neg (by omega)).symm
  · rename_i heq
    rw [compareLimbs_spec, mag, mag, ← Classical.not_not.mp heq]

/-- **`compare` decides the order of the integers.** -/
theorem compare_spec {a o : CppInt w} (ha : a.Canonical) (ho : o.Canonical) :
    compare a o = (a.toInt - o.toInt).sign := by
  have hz := (canonical_iff.mp ha).2
  have hz' := (canonical_iff.mp ho).2
  unfold compare
  rw [compareUnsigned_spec ha.1 ho.1]
  unfold toInt
  cases hsa : a.sign with
  | false =>
    cases hso : o.sign with
    | false => simp
    | true =>
      have : o.mag ≠ 0 := fun e => by rw [hz' e] at hso; cases hso
      simp only [ne_eq, Bool.false_eq_true, not_false_eq_true, if_true, if_false]
      exact (Int.sign_eq_one_of_pos (by omega)).symm
  | true =>
    have : a.mag ≠ 0 := fun e => by rw [hz e] at hsa; cases hsa
    cases hso : o.sign with
    | false =>
      simp only [ne_eq, Bool.true_eq_false, not_false_eq_true, if_true, Bool.false_eq_true,
        if_false]
      exact (Int.sign_eq_neg_one_of_neg (by omega)).symm
    | true =>
      simp only [ne_eq, not_true_eq_false, if_false, if_true]
      rw [← Int.sign_neg]
      congr 1
      ring

theorem equalLimbs_iff (pa pb : ℕ → BitVec w) :
    ∀ n, equalLimbs pa pb n = true ↔ ∀ i < n, pa i = pb i
  | 0 => by simp [equalLimbs]
  | n + 1 => by
    rw [equalLimbs, Bool.and_eq_true, equalLimbs_iff pa pb n, beq_iff_eq]
    constructor
    · rintro ⟨h, e⟩ i hi
      rcases Nat.lt_succ_iff_lt_or_eq.mp hi with h' | rfl
      · exact h i h'
      · exact e
    · exact fun h => ⟨fun i hi => h i (by omega), h n (by omega)⟩

/-- **`eval_eq` decides equality of the integers.** -/
theorem evalEq_iff {a b : CppInt w} (ha : a.Canonical) (hb : b.Canonical) :
    evalEq a b = true ↔ a.toInt = b.toInt := by
  rw [evalEq, Bool.and_eq_true, Bool.and_eq_true, beq_iff_eq, beq_iff_eq, equalLimbs_iff]
  constructor
  · rintro ⟨⟨hs, hn⟩, hl⟩
    have hm : a.mag = b.mag := by
      rw [mag, mag, ← hn]
      exact natOf_congr hl
    rw [toInt, toInt, hs, hm]
  · intro h
    obtain ⟨hn, hs, hl⟩ := ha.ext hb h
    exact ⟨⟨hs, hn⟩, hl⟩

end CppInt

end SourceLibs
