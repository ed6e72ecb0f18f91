import SourceLibs.Random.LargeArithmetic
import SourceLibs.Support.MachineInt
import Mathlib.Data.Int.Bitwise
import Mathlib.Data.Int.GCD
import Mathlib.Tactic.LinearCombination

/-!
# Random — arithmetic modulo a constant

`const_mod` of `random/detail/const_mod.hpp`: sums, products, powers and inverses modulo `m`, where
`m = 0` stands for the number of values of the type that are not negative.  A `BOOST_ASSERT` that does
not hold and a signed operation that overflows are `none`.

* `mask_spec`: a power of two is recognised, and its mask takes the residue.
* `multSchrage_spec`: Schrage's method is exact where it is chosen.
* `mult_iff`: a product is exact unless `mulmod` loses a bit of it.
* `powLoop_spec`: so are powers, where no product loses.
-/

namespace SourceLibs.Random
open Option Int

open MachineInt

/-! ### The source -/

section Source

variable (t : IntType) (m : ℤ)

/-- The modulus without a sign. -/
def unsignedM : Option ℤ :=
  if m = 0 then (t.unsigned.evaluate (t.unsigned.convert t.max + 1)).map t.unsigned.convert
  else some (t.unsigned.convert m)

/-- `unsigned_m() - 1`. -/
def mask : Option ℤ := do
  t.unsigned.evaluate ((← unsignedM t m) - 1)

/-- `((unsigned_m() - 1) & unsigned_m()) == 0`. -/
def isPowerOfTwo : Option Bool := do
  return Int.land (← mask t m) (← unsignedM t m) = 0

/-- `x / y` in the type. -/
def quotient (x y : ℤ) : Option ℤ := if y = 0 then none else t.evaluate (x.tdiv y)

/-- `x % y` in the type. -/
def remainder (x y : ℤ) : Option ℤ := if y = 0 then none else t.evaluate (x.tmod y)

/-- `apply`: the remainder. -/
def apply (x : ℤ) : Option ℤ := do
  if ← isPowerOfTwo t m then
    return t.convert (Int.land (t.unsigned.convert x) (← mask t m))
  else if m = 0 then none
  else remainder t x m

def add (x c : ℤ) : Option ℤ := do
  if ← isPowerOfTwo t m then
    let sum ← t.unsigned.evaluate (t.unsigned.convert x + t.unsigned.convert c)
    return t.convert (Int.land sum (← mask t m))
  else if c = 0 then return x
  else
    let rest ← t.evaluate (m - c)
    if x < rest then return t.convert (← t.evaluate (x + c))
    else return t.convert (← t.evaluate (x - rest))

/-- A difference modulo `m`. -/
def sub (a b : ℤ) : Option ℤ := do
  if a < b then return t.convert (← t.evaluate (m - (← t.evaluate (b - a))))
  else return t.convert (← t.evaluate (a - b))

def multSmall (a x : ℤ) : Option ℤ := do
  if m = 0 then none
  else return t.convert (← remainder t (← t.evaluate (a * x)) m)

def multSchrage (a value : ℤ) : Option ℤ := do
  let q := t.convert (← quotient t m a)
  let r := t.convert (← remainder t m a)
  if r < q then
    let left ← t.evaluate (a * (← remainder t value q))
    let right ← t.evaluate (r * (← quotient t value q))
    sub t m (t.convert left) (t.convert right)
  else none

/-- `mult`, by `mulmod`. -/
def multGeneral (a b : ℤ) : Option ℤ :=
  if m = 0 then none
  else if m % 2 ^ 64 ≤ (2 ^ 64 - 1) / (m % 2 ^ 64) then
    some (t.convert (a % 2 ^ 64 * (b % 2 ^ 64) % 2 ^ 64 % (m % 2 ^ 64)))
  else
    some (t.convert (mulmod (a % 2 ^ 64).toNat (b % 2 ^ 64).toNat (m % 2 ^ 64).toNat))

def mult (a x : ℤ) : Option ℤ := do
  if ← isPowerOfTwo t m then
    let product ← t.unsigned.evaluate (t.unsigned.convert a * t.unsigned.convert x)
    return t.convert (Int.land product (← mask t m))
  else if a = 0 then return 0
  else if a = 1 then return x
  else if m ≤ (← quotient t t.max a) then multSmall t m a x
  else if t.signed && (← remainder t m a) < (← quotient t m a) then multSchrage t m a x
  else multGeneral t m a x

def multAdd (a x c : ℤ) : Option ℤ := do
  if ← isPowerOfTwo t m then
    let product ← t.unsigned.evaluate (t.unsigned.convert a * t.unsigned.convert x)
    let sum ← t.unsigned.evaluate (product + t.unsigned.convert c)
    return t.convert (Int.land sum (← mask t m))
  else if a = 0 then return c
  else if m ≤ (← quotient t (← t.evaluate (t.max - c)) a) then
    if m = 0 then none
    else return t.convert (← remainder t (← t.evaluate ((← t.evaluate (a * x)) + c)) m)
  else add t m (← mult t m a x) c

/-- The loop of `pow`. -/
def powLoop : ℕ → ℤ → ℤ → ℕ → Option ℤ
  | 0, _, _, _ => none
  | fuel + 1, result, a, exponent =>
    if exponent ≠ 0 then do
      let result ← if exponent % 2 = 1 then mult t m result a else some result
      let a ← mult t m a a
      powLoop fuel result a (exponent / 2)
    else some result

/-- `pow`, whose exponent is a `uintmax_t`. -/
def pow (a : ℤ) (exponent : ℕ) : Option ℤ := powLoop t m 65 1 a exponent

/-- `l += q * l'`. -/
def addTimes (l q l' : ℤ) : Option ℤ := do
  return t.convert (← t.evaluate (l + (← t.evaluate (q * l'))))

/-- `p -= q * n`. -/
def subTimes (p q n : ℤ) : Option ℤ := do
  return t.convert (← t.evaluate (p - (← t.evaluate (q * n))))

/-- Half a turn of the loops: `q = p / n; l += q * l'; p -= q * n`. -/
def halfTurn (l l' p n : ℤ) : Option (ℤ × ℤ) := do
  let q := t.convert (← quotient t p n)
  return (← addTimes t l q l', ← subTimes t p q n)

/-- The loops of `invert_euclidian` and `invert_euclidian0`, from the test of `p`. -/
def invertLoop : ℕ → ℤ → ℤ → ℤ → ℤ → Option ℤ
  | 0, _, _, _, _ => none
  | fuel + 1, l₁, l₂, n, p =>
    if p = 0 then some l₂
    else do
      let (l₂, n) ← halfTurn t l₂ l₁ n p
      if n = 0 then return t.convert (← t.evaluate (m - l₁))
      else
        let (l₁, p) ← halfTurn t l₁ l₂ p n
        invertLoop fuel l₁ l₂ n p

def invertEuclidian (c : ℤ) : Option ℤ := do
  if 0 < c then
    let (l₁, p) ← halfTurn t 0 1 m c
    invertLoop t m (c.toNat + 1) l₁ 1 c p
  else none

/-- `invert_euclidian0`, modulo the power of two. -/
def invertEuclidian0 (c : ℤ) : Option ℤ := do
  if 0 < c then
    if c = 1 then return 1
    else
      let q := t.convert (← quotient t t.max c)
      if (← remainder t t.max c) ≠ (← t.evaluate (c - 1)) then
        let l₁ ← addTimes t 0 q 1
        let rest ← t.evaluate (t.max - (← t.evaluate (q * c)))
        let p := t.convert (← t.evaluate (rest + 1))
        invertLoop t m (c.toNat + 1) l₁ 1 c p
      else none
  else none

def invert (x : ℤ) : Option ℤ :=
  if x = 0 then some 0 else if m = 0 then invertEuclidian0 t m x else invertEuclidian t m x

end Source

/-! ### The modulus -/

/-- The modulus that `m` stands for. -/
def modulus (t : IntType) (m : ℤ) : ℤ := if m = 0 then t.card else m

/-- What a product of two residues is computed in has room for it. -/
def Roomy (t : IntType) (m : ℤ) : Prop := ¬ (m = 0 ∧ t.bits = 16 ∧ t.signed = false)

variable {t : IntType} {m : ℤ} {k : ℕ}

theorem modulus_of_ne (hm : m ≠ 0) : modulus t m = m := if_neg hm

theorem modulus_bounds (h₀ : 0 ≤ m) (hm : m ≤ t.max) : 0 < modulus t m ∧ modulus t m ≤ t.card := by
  have hcard := t.card_eq_max_add_one
  have hpos := t.card_bounds
  rw [modulus]
  split_ifs
  · omega
  · omega

/-- The residues are values of the type. -/
theorem le_max_of_lt (h₀ : 0 ≤ m) (hm : m ≤ t.max) {x : ℤ} (hx : x < modulus t m) : x ≤ t.max := by
  have hcard := t.card_eq_max_add_one
  have hle := (modulus_bounds h₀ hm).2
  omega

theorem unsigned_max (t : IntType) : t.max ≤ t.unsigned.max ∧ t.unsigned.card = 2 ^ t.bits := by
  refine ⟨?_, rfl⟩
  refine IntType.forall_types (P := fun t => t.max ≤ t.unsigned.max) t fun s => ?_
  cases s <;> decide

theorem two_le_bits_pow (t : IntType) : (2 : ℤ) ≤ 2 ^ t.bits := by
  have hmem := t.bits_mem
  calc (2 : ℤ) = 2 ^ 1 := by norm_num
    _ ≤ 2 ^ t.bits := pow_le_pow_right₀ (by decide) (by omega)

theorem modulus_le_pow (h₀ : 0 ≤ m) (hm : m ≤ t.max) : modulus t m ≤ 2 ^ t.bits :=
  (modulus_bounds h₀ hm).2.trans (Int.le_of_dvd (by positivity) t.card_dvd)

theorem unsigned_convert {x : ℤ} (h₀ : 0 ≤ x) (hx : x ≤ t.max) : t.unsigned.convert x = x :=
  IntType.convert_of_mem h₀ (hx.trans (unsigned_max t).1)

theorem unsigned_evaluate_of_mem {x : ℤ} (h₀ : 0 ≤ x) (hx : x ≤ t.max) :
    t.unsigned.evaluate x = some x :=
  IntType.evaluate_of_mem h₀ (hx.trans (unsigned_max t).1)

theorem modulus_dvd (h₀ : 0 ≤ m) (hm : m ≤ t.max) (hk : modulus t m = 2 ^ k) :
    modulus t m ∣ 2 ^ t.bits := by
  have hle := (modulus_bounds h₀ hm).2
  rw [hk, IntType.card] at hle
  rw [hk]
  exact (pow_dvd_pow 2 ((pow_le_pow_iff_right₀ (by decide)).mp hle)).trans t.card_dvd

/-! ### A power of two -/

theorem land_natCast (a b : ℕ) : Int.land a b = (a &&& b : ℕ) := rfl

theorem land_neg_one {y : ℤ} (hy : 0 ≤ y) : Int.land y (-1) = y := by
  lift y to ℕ using hy
  change ((Nat.ldiff y 0 : ℕ) : ℤ) = y
  refine congrArg _ (Nat.eq_of_testBit_eq fun i => ?_)
  simp [Nat.testBit_ldiff]

theorem land_zero (y : ℤ) : Int.land y 0 = 0 := by
  cases y with
  | ofNat y => exact congrArg _ (Nat.and_zero y)
  | negSucc y =>
    change ((Nat.ldiff 0 y : ℕ) : ℤ) = 0
    rw [natCast_eq_zero]
    exact Nat.eq_of_testBit_eq fun i => by simp [Nat.testBit_ldiff]

theorem land_pow_sub_one {y : ℤ} (hy : 0 ≤ y) (k : ℕ) : Int.land y (2 ^ k - 1) = y % 2 ^ k := by
  lift y to ℕ using hy
  have hcast : (2 ^ k - 1 : ℤ) = ((2 ^ k - 1 : ℕ) : ℤ) := by
    rw [Nat.cast_sub Nat.one_le_two_pow]
    push_cast
    rfl
  rw [hcast, land_natCast, Nat.and_two_pow_sub_one_eq_mod]
  push_cast
  rfl

theorem land_sub_one_iff (h₀ : 0 < m) : Int.land (m - 1) m = 0 ↔ ∃ k : ℕ, m = 2 ^ k := by
  lift m to ℕ using h₀.le
  have hm : m ≠ 0 := by omega
  have hcast : ((m : ℤ) - 1) = ((m - 1 : ℕ) : ℤ) := by omega
  rw [hcast, land_natCast, Nat.land_comm]
  have h := Nat.and_sub_one_eq_zero_iff_isPowerOfTwo hm
  rw [natCast_eq_zero, h]
  exact ⟨fun ⟨k, hk⟩ => ⟨k, by exact_mod_cast hk⟩, fun ⟨k, hk⟩ => ⟨k, by exact_mod_cast hk⟩⟩

theorem mask_zero (t : IntType) : ∃ um μ, unsignedM t 0 = some um ∧ mask t 0 = some μ ∧
    Int.land μ um = 0 ∧ (μ = t.card - 1 ∨ μ = -1 ∧ t.signed = false) := by
  refine IntType.forall_types (P := fun t => ∃ um μ, unsignedM t 0 = some um ∧ mask t 0 = some μ ∧
    Int.land μ um = 0 ∧ (μ = t.card - 1 ∨ μ = -1 ∧ t.signed = false)) t fun s => ?_
  cases s
  · exact ⟨⟨0, -1, rfl, rfl, land_zero _, Or.inr ⟨rfl, rfl⟩⟩,
      ⟨0, -1, rfl, rfl, land_zero _, Or.inr ⟨rfl, rfl⟩⟩,
      ⟨0, 2 ^ 32 - 1, rfl, rfl, land_zero _, Or.inl rfl⟩,
      ⟨0, 2 ^ 64 - 1, rfl, rfl, land_zero _, Or.inl rfl⟩⟩
  · exact ⟨⟨2 ^ 7, 2 ^ 7 - 1, rfl, rfl, by decide, Or.inl rfl⟩,
      ⟨2 ^ 15, 2 ^ 15 - 1, rfl, rfl, by decide, Or.inl rfl⟩,
      ⟨2 ^ 31, 2 ^ 31 - 1, rfl, rfl, by decide, Or.inl rfl⟩,
      ⟨2 ^ 63, 2 ^ 63 - 1, rfl, rfl, by decide, Or.inl rfl⟩⟩

theorem unsignedM_of_ne (h₀ : 0 ≤ m) (hm : m ≤ t.max) (hne : m ≠ 0) :
    unsignedM t m = some m ∧ mask t m = some (m - 1) := by
  have hum : unsignedM t m = some m := by
    rw [unsignedM, if_neg hne, unsigned_convert h₀ hm]
  refine ⟨hum, ?_⟩
  simp only [mask, hum, bind_eq_bind, bind_some]
  exact unsigned_evaluate_of_mem (by omega) (by omega)

theorem isPowerOfTwo_of_not (h₀ : 0 ≤ m) (hm : m ≤ t.max) (hne : m ≠ 0) (hk : ∀ k : ℕ, m ≠ 2 ^ k) :
    isPowerOfTwo t m = some false := by
  obtain ⟨hum, hmask⟩ := unsignedM_of_ne h₀ hm hne
  have hland := (land_sub_one_iff (by omega : 0 < m)).not.mpr (by push Not; exact hk)
  simp [isPowerOfTwo, hum, hmask, hland]

/-- **The mask** of a power of two takes the residue. -/
theorem mask_spec (h₀ : 0 ≤ m) (hm : m ≤ t.max) (hk : modulus t m = 2 ^ k) :
    isPowerOfTwo t m = some true ∧ ∃ μ, mask t m = some μ ∧
      ∀ y, 0 ≤ y → t.convert (Int.land y μ) = y % modulus t m := by
  have hbounds := modulus_bounds h₀ hm
  have hresidue : ∀ y, 0 ≤ y → t.convert (Int.land y (modulus t m - 1)) = y % modulus t m := by
    intro y hy
    rw [hk, land_pow_sub_one hy, ← hk]
    exact IntType.convert_of_mem (emod_nonneg _ hbounds.1.ne')
      (le_max_of_lt h₀ hm (emod_lt_of_pos _ hbounds.1))
  by_cases hz : m = 0
  · subst hz
    obtain ⟨um, μ, hum, hmask, hland, hμ⟩ := mask_zero t
    refine ⟨by simp [isPowerOfTwo, hum, hmask, hland], μ, hmask, ?_⟩
    rcases hμ with rfl | ⟨rfl, hs⟩
    · exact hresidue
    · intro y hy
      rw [land_neg_one hy, IntType.convert, modulus, if_pos rfl, IntType.card, IntType.digits, hs]
      rfl
  · obtain ⟨hum, hmask⟩ := unsignedM_of_ne h₀ hm hz
    rw [modulus_of_ne hz] at hk hresidue ⊢
    have hland := (land_sub_one_iff (by omega : 0 < m)).mpr ⟨k, hk⟩
    exact ⟨by simp [isPowerOfTwo, hum, hmask, hland], m - 1, hmask, hresidue⟩

theorem modulus_narrow (h₀ : 0 ≤ m) (hm : m ≤ t.max) (hroom : Roomy t m)
    (hk : modulus t m = 2 ^ k) (hbits : t.bits < 32) : modulus t m ≤ 2 ^ 15 := by
  have hle := (modulus_bounds h₀ hm).2
  have hclass : t.card ≤ 2 ^ 15 ∨ t.card = 2 ^ 16 ∧ t.bits = 16 ∧ t.signed = false := by
    revert hbits
    refine IntType.forall_types (P := fun t => t.bits < 32 →
      t.card ≤ 2 ^ 15 ∨ t.card = 2 ^ 16 ∧ t.bits = 16 ∧ t.signed = false) t fun s => ?_
    cases s <;> decide
  rcases hclass with hcard | ⟨hcard, h16⟩
  · exact hle.trans hcard
  · have hne : m ≠ 0 := fun hz => hroom ⟨hz, h16⟩
    have hmax := t.card_eq_max_add_one
    rw [modulus_of_ne hne] at hk ⊢
    have hlt : (2 : ℤ) ^ k < 2 ^ 16 := by omega
    have hk15 : k ≤ 15 := Nat.lt_succ_iff.mp ((pow_lt_pow_iff_right₀ (by decide)).mp hlt)
    rw [hk]
    exact pow_le_pow_right₀ (by decide) hk15

/-- **The unsigned type** has room for a product of a residue and one of its values. -/
theorem unsigned_evaluate (h₀ : 0 ≤ m) (hm : m ≤ t.max) (hroom : Roomy t m)
    (hk : modulus t m = 2 ^ k) {v : ℤ} (hv₀ : 0 ≤ v) (hv : v < modulus t m * 2 ^ t.bits) :
    ∃ y, t.unsigned.evaluate v = some y ∧ 0 ≤ y ∧ y ≤ v ∧
      y % modulus t m = v % modulus t m := by
  by_cases hbits : t.bits < 32
  · have hle := modulus_narrow h₀ hm hroom hk hbits
    have hbits16 : t.bits ≤ 16 := by
      have hmem := t.bits_mem
      omega
    have hprod : modulus t m * 2 ^ t.bits ≤ 2 ^ 15 * 2 ^ 16 :=
      mul_le_mul hle (pow_le_pow_right₀ (by decide) hbits16) (by positivity) (by norm_num)
    refine ⟨v, ?_, hv₀, le_rfl, rfl⟩
    rw [IntType.evaluate, IntType.unsigned_bits, if_pos hbits, if_pos ⟨by omega, by omega⟩]
  · refine ⟨v % 2 ^ t.bits, ?_, emod_nonneg _ (by positivity),
      emod_le_of_nonneg hv₀ (by positivity), emod_emod_of_dvd v (modulus_dvd h₀ hm hk)⟩
    rw [IntType.evaluate, IntType.unsigned_bits, if_neg hbits, IntType.unsigned_signed,
      if_neg Bool.false_ne_true]

/-- A residue. -/
def Residue (t : IntType) (m x : ℤ) : Prop := 0 ≤ x ∧ x < modulus t m

theorem apply_of_pow (h₀ : 0 ≤ m) (hm : m ≤ t.max) (hk : modulus t m = 2 ^ k) {x : ℤ}
    (hx₀ : 0 ≤ x) (hx : x ≤ t.max) : apply t m x = some (x % modulus t m) := by
  obtain ⟨htest, μ, hmask, hμ⟩ := mask_spec h₀ hm hk
  simp [apply, htest, hmask, unsigned_convert hx₀ hx, hμ x hx₀]

theorem add_of_pow (h₀ : 0 ≤ m) (hm : m ≤ t.max) (hroom : Roomy t m) (hk : modulus t m = 2 ^ k)
    {x c : ℤ} (hx : Residue t m x) (hc : Residue t m c) :
    add t m x c = some ((x + c) % modulus t m) := by
  obtain ⟨htest, μ, hmask, hμ⟩ := mask_spec h₀ hm hk
  obtain ⟨hx₀, hx⟩ := hx
  obtain ⟨hc₀, hc⟩ := hc
  have hbits := two_le_bits_pow t
  have hle := modulus_le_pow h₀ hm
  obtain ⟨y, heval, hy₀, -, hy⟩ := unsigned_evaluate h₀ hm hroom hk (v := x + c) (by omega)
    (by nlinarith)
  simp [add, htest, hmask, unsigned_convert hx₀ (le_max_of_lt h₀ hm hx),
    unsigned_convert hc₀ (le_max_of_lt h₀ hm hc), heval, hμ y hy₀, hy]

/-- The second factor may be any number. -/
theorem mult_of_pow (h₀ : 0 ≤ m) (hm : m ≤ t.max) (hroom : Roomy t m) (hk : modulus t m = 2 ^ k)
    {a : ℤ} (ha : Residue t m a) (x : ℤ) :
    mult t m a x = some (a * x % modulus t m) := by
  obtain ⟨htest, μ, hmask, hμ⟩ := mask_spec h₀ hm hk
  obtain ⟨ha₀, ha⟩ := ha
  obtain ⟨hx₀, hx⟩ := t.unsigned.convert_bounds x
  rw [IntType.max, (unsigned_max t).2] at hx
  have hx₀ : 0 ≤ t.unsigned.convert x := hx₀
  obtain ⟨y, heval, hy₀, -, hy⟩ := unsigned_evaluate h₀ hm hroom hk (v := a * t.unsigned.convert x)
    (by positivity) (mul_lt_mul'' ha (by omega) ha₀ hx₀)
  have hconv : a * t.unsigned.convert x % modulus t m = a * x % modulus t m :=
    ((IntType.convert_modEq (t := t.unsigned) x).of_dvd (modulus_dvd h₀ hm hk)).mul_left a
  simp [mult, htest, hmask, unsigned_convert ha₀ (le_max_of_lt h₀ hm ha), heval, hμ y hy₀, hy, hconv]

theorem multAdd_of_pow (h₀ : 0 ≤ m) (hm : m ≤ t.max) (hroom : Roomy t m)
    (hk : modulus t m = 2 ^ k) {a x c : ℤ} (ha : Residue t m a) (hx : Residue t m x)
    (hc : Residue t m c) : multAdd t m a x c = some ((a * x + c) % modulus t m) := by
  obtain ⟨htest, μ, hmask, hμ⟩ := mask_spec h₀ hm hk
  obtain ⟨ha₀, ha⟩ := ha
  obtain ⟨hx₀, hx⟩ := hx
  obtain ⟨hc₀, hc⟩ := hc
  have hproduct : a * x ≤ (modulus t m - 1) * (modulus t m - 1) :=
    mul_le_mul (by omega) (by omega) hx₀ (by omega)
  have hle := modulus_le_pow h₀ hm
  obtain ⟨y, heval, hy₀, hyle, hy⟩ := unsigned_evaluate h₀ hm hroom hk (v := a * x) (by positivity)
    (by nlinarith)
  obtain ⟨z, heval', hz₀, -, hz⟩ := unsigned_evaluate h₀ hm hroom hk (v := y + c) (by omega)
    (by nlinarith)
  have hsum : (y + c) % modulus t m = (a * x + c) % modulus t m := Int.ModEq.add_right c hy
  simp [multAdd, htest, hmask, unsigned_convert ha₀ (le_max_of_lt h₀ hm ha),
    unsigned_convert hx₀ (le_max_of_lt h₀ hm hx), unsigned_convert hc₀ (le_max_of_lt h₀ hm hc),
    heval, heval', hμ z hz₀, hz, hsum]


/-! ### Any other modulus -/

theorem quotient_of_mem {x y : ℤ} (hx₀ : 0 ≤ x) (hx : x ≤ t.max) (hy : 0 < y) :
    quotient t x y = some (x / y) := by
  rw [quotient, if_neg hy.ne', tdiv_eq_ediv_of_nonneg hx₀]
  exact IntType.evaluate_of_mem (ediv_nonneg hx₀ hy.le) ((ediv_le_self y hx₀).trans hx)

theorem remainder_of_mem {x y : ℤ} (hx₀ : 0 ≤ x) (hx : x ≤ t.max) (hy : 0 < y) :
    remainder t x y = some (x % y) := by
  rw [remainder, if_neg hy.ne', tmod_eq_emod_of_nonneg hx₀]
  exact IntType.evaluate_of_mem (emod_nonneg x hy.ne')
    ((emod_le_of_nonneg hx₀ hy.le).trans hx)

theorem apply_of_not (h₀ : 0 < m) (hm : m ≤ t.max) (hk : ∀ k : ℕ, m ≠ 2 ^ k) {x : ℤ} (hx₀ : 0 ≤ x)
    (hx : x ≤ t.max) : apply t m x = some (x % m) := by
  simp [apply, isPowerOfTwo_of_not h₀.le hm h₀.ne' hk, h₀.ne', remainder_of_mem hx₀ hx h₀]

theorem add_of_not (h₀ : 0 < m) (hm : m ≤ t.max) (hk : ∀ k : ℕ, m ≠ 2 ^ k) {x c : ℤ} (hx₀ : 0 ≤ x)
    (hx : x < m) (hc₀ : 0 ≤ c) (hc : c < m) : add t m x c = some ((x + c) % m) := by
  have hrest : t.evaluate (m - c) = some (m - c) := IntType.evaluate_of_mem (by omega) (by omega)
  by_cases hzero : c = 0
  · simp [add, isPowerOfTwo_of_not h₀.le hm h₀.ne' hk, hzero, emod_eq_of_lt hx₀ hx]
  · by_cases hlt : x < m - c
    · have heval : t.evaluate (x + c) = some (x + c) :=
        IntType.evaluate_of_mem (by omega) (by omega)
      have hconv : t.convert (x + c) = x + c := IntType.convert_of_mem (by omega) (by omega)
      simp [add, isPowerOfTwo_of_not h₀.le hm h₀.ne' hk, hzero, hrest, hlt, heval, hconv]
      exact (emod_eq_of_lt (by omega) (by omega)).symm
    · have heval : t.evaluate (x - (m - c)) = some (x - (m - c)) :=
        IntType.evaluate_of_mem (by omega) (by omega)
      have hconv : t.convert (x - (m - c)) = x - (m - c) :=
        IntType.convert_of_mem (by omega) (by omega)
      have hmod : (x + c) % m = x - (m - c) := by
        rw [← emod_eq_of_lt (a := x - (m - c)) (b := m) (by omega) (by omega),
          ← sub_emod_right (x + c) m]
        congr 1
        ring
      simp [add, isPowerOfTwo_of_not h₀.le hm h₀.ne' hk, hzero, hrest, hlt, heval, hconv, hmod]

theorem sub_spec (hm : m ≤ t.max) {a b : ℤ} (ha₀ : 0 ≤ a) (ha : a < m) (hb₀ : 0 ≤ b) (hb : b < m) :
    sub t m a b = some ((a - b) % m) := by
  by_cases hlt : a < b
  · have hdiff : t.evaluate (b - a) = some (b - a) :=
      IntType.evaluate_of_mem (by omega) (by omega)
    have heval : t.evaluate (m - (b - a)) = some (m - (b - a)) :=
      IntType.evaluate_of_mem (by omega) (by omega)
    have hconv : t.convert (m - (b - a)) = m - (b - a) :=
      IntType.convert_of_mem (by omega) (by omega)
    have hmod : (a - b) % m = m - (b - a) := by
      rw [← emod_eq_of_lt (a := m - (b - a)) (b := m) (by omega) (by omega),
        ← add_emod_right (a - b) m]
      congr 1
      ring
    simp [sub, hlt, hdiff, heval, hconv, hmod]
  · have heval : t.evaluate (a - b) = some (a - b) :=
      IntType.evaluate_of_mem (by omega) (by omega)
    have hconv : t.convert (a - b) = a - b := IntType.convert_of_mem (by omega) (by omega)
    simp [sub, hlt, heval, hconv, emod_eq_of_lt (by omega : 0 ≤ a - b) (by omega : a - b < m)]

theorem multSmall_spec (h₀ : 0 < m) {a x : ℤ} (hsmall : a * m ≤ t.max) (ha₀ : 0 ≤ a) (hx₀ : 0 ≤ x)
    (hx : x < m) : multSmall t m a x = some (a * x % m) := by
  have hle : a * x ≤ t.max := (mul_le_mul_of_nonneg_left hx.le ha₀).trans hsmall
  have hprod₀ : 0 ≤ a * x := mul_nonneg ha₀ hx₀
  have hconv : t.convert (a * x % m) = a * x % m :=
    IntType.convert_of_mem (emod_nonneg _ h₀.ne') ((emod_le_of_nonneg hprod₀ h₀.le).trans hle)
  simp [multSmall, h₀.ne', IntType.evaluate_of_mem hprod₀ hle, remainder_of_mem hprod₀ hle h₀, hconv]

/-- **Schrage's method**: with `q = m / a` and `r = m % a`, both products stay below the modulus. -/
theorem multSchrage_spec (hm : m ≤ t.max) {a x : ℤ} (ha : 0 < a) (hpath : m % a < m / a)
    (hx₀ : 0 ≤ x) (hx : x < m) : multSchrage t m a x = some (a * x % m) := by
  have h₀ : 0 < m := by omega
  have hr₀ : 0 ≤ m % a := emod_nonneg m ha.ne'
  have hq : 0 < m / a := by omega
  have hqm : m / a ≤ m := ediv_le_self a h₀.le
  have hdiv : a * (m / a) + m % a = m := mul_ediv_add_emod m a
  have hv := mul_ediv_add_emod x (m / a)
  have hlow₀ := emod_nonneg x hq.ne'
  have hlow := emod_lt_of_pos x hq
  have hhigh₀ := ediv_nonneg hx₀ hq.le
  have hhigh := ediv_le_self (m / a) hx₀
  have hlowle := emod_le_of_nonneg hx₀ hq.le
  have hleft₀ : 0 ≤ a * (x % (m / a)) := mul_nonneg ha.le hlow₀
  have hleft : a * (x % (m / a)) < m := by nlinarith
  have hright₀ : 0 ≤ m % a * (x / (m / a)) := mul_nonneg hr₀ hhigh₀
  have hright : m % a * (x / (m / a)) < m := by nlinarith
  have hcq : t.convert (m / a) = m / a := IntType.convert_of_mem hq.le (by omega)
  have hcr : t.convert (m % a) = m % a := IntType.convert_of_mem hr₀ (by omega)
  have hmod : (a * (x % (m / a)) - m % a * (x / (m / a))) % m = a * x % m := by
    have hsplit : a * x - m * (x / (m / a)) = a * (x % (m / a)) - m % a * (x / (m / a)) := by
      linear_combination a * (-hv) + (x / (m / a)) * hdiv
    rw [← hsplit]
    exact sub_mul_emod_self_left (a * x) m (x / (m / a))
  simp [multSchrage, quotient_of_mem h₀.le hm ha, remainder_of_mem h₀.le hm ha, hcq, hcr, hpath,
    remainder_of_mem hx₀ (hx.le.trans hm) hq, quotient_of_mem hx₀ (hx.le.trans hm) hq,
    IntType.evaluate_of_mem hleft₀ (hleft.le.trans hm),
    IntType.evaluate_of_mem hright₀ (hright.le.trans hm),
    IntType.convert_of_mem hleft₀ (hleft.le.trans hm),
    IntType.convert_of_mem hright₀ (hright.le.trans hm), sub_spec hm hleft₀ hleft hright₀ hright, hmod]

/-- The product of `a` is left to `mulmod`. -/
def Wide (t : IntType) (m a : ℤ) : Prop :=
  (∀ k : ℕ, m ≠ 2 ^ k) ∧ 2 ^ 64 ≤ m * m ∧ 2 ≤ a ∧ t.max < a * m ∧
    ¬ (t.signed = true ∧ m % a < m / a)

/-- The product of `a` and `x` loses a bit. -/
def Loses (t : IntType) (m a x : ℤ) : Prop :=
  Wide t m a ∧ LossyPair m.toNat a.toNat x.toNat

theorem max_lt (t : IntType) : t.max < 2 ^ 64 := by
  have hcard := t.card_bounds.2
  have hmax := t.card_eq_max_add_one
  omega

theorem multGeneral_iff (h₀ : 0 < m) (hm : m ≤ t.max) (hk : ∀ k : ℕ, m ≠ 2 ^ k) {a x : ℤ}
    (ha₀ : 0 ≤ a) (ha : a < m) (hx₀ : 0 ≤ x) (hx : x < m) :
    multGeneral t m a x = some (a * x % m) ↔
      ¬ (2 ^ 64 ≤ m * m ∧ LossyPair m.toNat a.toNat x.toNat) := by
  have hm64 := hm.trans_lt (max_lt t)
  have hword : ∀ y : ℤ, 0 ≤ y → y ≤ m → y % 2 ^ 64 = y := fun y hy₀ hy =>
    emod_eq_of_lt hy₀ (by omega)
  have hres₀ := emod_nonneg (a * x) h₀.ne'
  have hres := emod_lt_of_pos (a * x) h₀
  have htest : m ≤ (2 ^ 64 - 1) / m ↔ ¬ 2 ^ 64 ≤ m * m := by
    rw [Int.le_ediv_iff_mul_le h₀]
    omega
  rw [multGeneral, if_neg h₀.ne', hword m h₀.le le_rfl, hword a ha₀ ha.le, hword x hx₀ hx.le]
  by_cases hsq : 2 ^ 64 ≤ m * m
  · rw [if_neg (mt htest.mp (not_not.mpr hsq))]
    have hexact := mulmod_eq_iff (a := a.toNat) (b := x.toNat) (m := m.toNat) (by omega) (by omega)
      (by omega) fun k hpow => hk k (by rw [← toNat_of_nonneg h₀.le, hpow]; push_cast; rfl)
    have hlt := mulmod_lt (a := a.toNat) (b := x.toNat) (m := m.toNat) (by omega) (by omega)
      (by omega)
    have hcast : ((a.toNat * x.toNat % m.toNat : ℕ) : ℤ) = a * x % m := by
      push_cast
      rw [toNat_of_nonneg ha₀, toNat_of_nonneg hx₀, toNat_of_nonneg h₀.le]
    rw [IntType.convert_of_mem (by omega) (by omega), some_inj, ← hcast, Nat.cast_inj, hexact,
      and_iff_right hsq]
  · have hprod₀ : 0 ≤ a * x := mul_nonneg ha₀ hx₀
    have hprod : a * x < 2 ^ 64 := (mul_lt_mul'' ha hx ha₀ hx₀).trans (by omega)
    rw [if_pos (htest.mpr hsq), emod_eq_of_lt hprod₀ hprod,
      IntType.convert_of_mem hres₀ (hres.le.trans hm)]
    exact iff_of_true rfl fun h => hsq h.1

/-- **`mult`** for a modulus that is not a power of two: exact if and only if it does not lose. -/
theorem mult_iff_of_not (h₀ : 0 < m) (hm : m ≤ t.max) (hk : ∀ k : ℕ, m ≠ 2 ^ k) {a x : ℤ}
    (ha₀ : 0 ≤ a) (ha : a < m) (hx₀ : 0 ≤ x) (hx : x < m) :
    mult t m a x = some (a * x % m) ↔ ¬ Loses t m a x := by
  have htest := isPowerOfTwo_of_not h₀.le hm h₀.ne' hk
  have hmax₀ : 0 ≤ t.max := h₀.le.trans hm
  by_cases hzero : a = 0
  · subst hzero
    refine iff_of_true ?_ fun h => absurd h.1.2.2.1 (by decide)
    simp [mult, htest]
  by_cases hone : a = 1
  · subst hone
    refine iff_of_true ?_ fun h => absurd h.1.2.2.1 (by decide)
    simp [mult, htest, emod_eq_of_lt hx₀ hx]
  have hapos : 0 < a := by omega
  have hquot := quotient_of_mem hmax₀ le_rfl hapos
  have hsmall : m ≤ t.max / a ↔ a * m ≤ t.max := by
    rw [Int.le_ediv_iff_mul_le hapos, mul_comm]
  by_cases hle : a * m ≤ t.max
  · refine iff_of_true ?_ fun h => absurd h.1.2.2.2.1 (by omega)
    have hspec := multSmall_spec h₀ hle ha₀ hx₀ hx
    simp [mult, htest, hzero, hone, hquot, hsmall.mpr hle, hspec]
  have hnot : ¬ m ≤ t.max / a := mt hsmall.mp hle
  have hq := quotient_of_mem h₀.le hm hapos
  have hr := remainder_of_mem h₀.le hm hapos
  by_cases hpath : t.signed = true ∧ m % a < m / a
  · refine iff_of_true ?_ fun h => h.1.2.2.2.2 hpath
    have hspec := multSchrage_spec hm hapos hpath.2 hx₀ hx
    simp [mult, htest, hzero, hone, hquot, hnot, hq, hr, hpath.1, hpath.2, hspec]
  · have hmult : mult t m a x = multGeneral t m a x := by
      simp only [mult, htest, hzero, hone, hquot, hnot, hq, hr, bind_eq_bind,
        bind_some, Bool.false_eq_true, if_false, Bool.and_eq_true, decide_eq_true_eq, hpath]
    rw [hmult, multGeneral_iff h₀ hm hk ha₀ ha hx₀ hx, not_iff_not]
    exact ⟨fun h => ⟨⟨hk, h.1, by omega, by omega, hpath⟩, h.2⟩, fun h => ⟨h.1.2.1, h.2⟩⟩

/-- **`mult_add`** for a modulus that is not a power of two, where the product does not lose. -/
theorem multAdd_of_not (h₀ : 0 < m) (hm : m ≤ t.max) (hk : ∀ k : ℕ, m ≠ 2 ^ k) {a x c : ℤ}
    (ha₀ : 0 ≤ a) (ha : a < m) (hx₀ : 0 ≤ x) (hx : x < m) (hc₀ : 0 ≤ c) (hc : c < m)
    (hl : ¬ Loses t m a x) : multAdd t m a x c = some ((a * x + c) % m) := by
  have htest := isPowerOfTwo_of_not h₀.le hm h₀.ne' hk
  by_cases hzero : a = 0
  · subst hzero
    simp [multAdd, htest, emod_eq_of_lt hc₀ hc]
  have hapos : 0 < a := by omega
  have hroom : t.evaluate (t.max - c) = some (t.max - c) :=
    IntType.evaluate_of_mem (by omega) (by omega)
  have hquot := quotient_of_mem (t := t) (by omega : 0 ≤ t.max - c) (by omega) hapos
  by_cases hle : m ≤ (t.max - c) / a
  · have hfit := hle
    rw [Int.le_ediv_iff_mul_le hapos] at hfit
    have hprod₀ : 0 ≤ a * x := mul_nonneg ha₀ hx₀
    have hprod : a * x ≤ m * a := by nlinarith
    have hsum : a * x + c ≤ t.max := by omega
    have hmod₀ := emod_nonneg (a * x + c) h₀.ne'
    have hmod := emod_le_of_nonneg (by omega : 0 ≤ a * x + c) h₀.le
    simp [multAdd, htest, hzero, hroom, hquot, hle, h₀.ne',
      IntType.evaluate_of_mem hprod₀ (by omega : a * x ≤ t.max),
      IntType.evaluate_of_mem (by omega : 0 ≤ a * x + c) hsum,
      remainder_of_mem (by omega : 0 ≤ a * x + c) hsum h₀,
      IntType.convert_of_mem hmod₀ (hmod.trans hsum)]
  · have hmult := (mult_iff_of_not h₀ hm hk ha₀ ha hx₀ hx).mpr hl
    have hadd := add_of_not h₀ hm hk (emod_nonneg (a * x) h₀.ne')
      (emod_lt_of_pos (a * x) h₀) hc₀ hc
    simp [multAdd, htest, hzero, hroom, hquot, hle, hmult, hadd]

/-! ### Any modulus -/

/-- **No product loses.** -/
def Lossless (t : IntType) (m : ℤ) : Prop :=
  ∀ a x, Residue t m a → Residue t m x → ¬ Loses t m a x

theorem residue_iff_of_ne (hne : m ≠ 0) {x : ℤ} : Residue t m x ↔ 0 ≤ x ∧ x < m := by
  rw [Residue, modulus_of_ne hne]

theorem residue_emod (h₀ : 0 ≤ m) (hm : m ≤ t.max) (x : ℤ) : Residue t m (x % modulus t m) :=
  ⟨emod_nonneg x (modulus_bounds h₀ hm).1.ne', emod_lt_of_pos x (modulus_bounds h₀ hm).1⟩

theorem ne_zero_of_not (hk : ¬ ∃ k : ℕ, modulus t m = 2 ^ k) : m ≠ 0 := by
  intro hz
  exact hk ⟨t.digits, by rw [modulus, if_pos hz, IntType.card]⟩

theorem apply_spec (h₀ : 0 ≤ m) (hm : m ≤ t.max) {x : ℤ} (hx₀ : 0 ≤ x) (hx : x ≤ t.max) :
    apply t m x = some (x % modulus t m) := by
  by_cases hpow : ∃ k : ℕ, modulus t m = 2 ^ k
  · obtain ⟨k, hk⟩ := hpow
    exact apply_of_pow h₀ hm hk hx₀ hx
  · have hne : m ≠ 0 := ne_zero_of_not hpow
    rw [modulus_of_ne hne] at hpow ⊢
    exact apply_of_not (by omega) hm (by push Not at hpow; exact hpow) hx₀ hx

theorem add_spec (h₀ : 0 ≤ m) (hm : m ≤ t.max) (hroom : Roomy t m) {x c : ℤ} (hx : Residue t m x)
    (hc : Residue t m c) : add t m x c = some ((x + c) % modulus t m) := by
  by_cases hpow : ∃ k : ℕ, modulus t m = 2 ^ k
  · obtain ⟨k, hk⟩ := hpow
    exact add_of_pow h₀ hm hroom hk hx hc
  · have hne : m ≠ 0 := ne_zero_of_not hpow
    rw [residue_iff_of_ne hne] at hx hc
    rw [modulus_of_ne hne] at hpow ⊢
    exact add_of_not (by omega) hm (by push Not at hpow; exact hpow) hx.1 hx.2 hc.1 hc.2

/-- **A product** is exact if and only if it does not lose. -/
theorem mult_iff (h₀ : 0 ≤ m) (hm : m ≤ t.max) (hroom : Roomy t m) {a x : ℤ} (ha : Residue t m a)
    (hx : Residue t m x) : mult t m a x = some (a * x % modulus t m) ↔ ¬ Loses t m a x := by
  by_cases hpow : ∃ k : ℕ, modulus t m = 2 ^ k
  · obtain ⟨k, hk⟩ := hpow
    refine iff_of_true (mult_of_pow h₀ hm hroom hk ha x) fun h => ?_
    have hne : m ≠ 0 := by
      intro hz
      exact absurd (hz ▸ h.1.2.1) (by decide)
    rw [modulus_of_ne hne] at hk
    exact h.1.1 k hk
  · have hne : m ≠ 0 := ne_zero_of_not hpow
    rw [residue_iff_of_ne hne] at ha hx
    rw [modulus_of_ne hne] at hpow ⊢
    exact mult_iff_of_not (by omega) hm (by push Not at hpow; exact hpow) ha.1 ha.2 hx.1 hx.2

theorem multAdd_spec (h₀ : 0 ≤ m) (hm : m ≤ t.max) (hroom : Roomy t m) {a x c : ℤ}
    (ha : Residue t m a) (hx : Residue t m x) (hc : Residue t m c) (hl : ¬ Loses t m a x) :
    multAdd t m a x c = some ((a * x + c) % modulus t m) := by
  by_cases hpow : ∃ k : ℕ, modulus t m = 2 ^ k
  · obtain ⟨k, hk⟩ := hpow
    exact multAdd_of_pow h₀ hm hroom hk ha hx hc
  · have hne : m ≠ 0 := ne_zero_of_not hpow
    rw [residue_iff_of_ne hne] at ha hx hc
    rw [modulus_of_ne hne] at hpow ⊢
    exact multAdd_of_not (by omega) hm (by push Not at hpow; exact hpow) ha.1 ha.2 hx.1 hx.2
      hc.1 hc.2 hl

/-- **The loop of `pow`** multiplies the result by the power that is left. -/
theorem powLoop_spec (h₀ : 0 ≤ m) (hm : m ≤ t.max) (hroom : Roomy t m) (hl : Lossless t m)
    (fuel : ℕ) : ∀ result a exponent, Residue t m result → Residue t m a → exponent < 2 ^ fuel →
      powLoop t m (fuel + 1) result a exponent = some (result * a ^ exponent % modulus t m) := by
  induction fuel with
  | zero =>
    intro result a exponent hresult ha hexp
    have hzero : exponent = 0 := by omega
    simp [powLoop, hzero, emod_eq_of_lt hresult.1 hresult.2]
  | succ fuel ih =>
    intro result a exponent hresult ha hexp
    by_cases hzero : exponent = 0
    · simp [powLoop, hzero, emod_eq_of_lt hresult.1 hresult.2]
    have hsquare := (mult_iff h₀ hm hroom ha ha).mpr (hl a a ha ha)
    have hhalf : exponent / 2 < 2 ^ fuel := by omega
    -- the square takes over half of the exponent, and an odd one leaves a factor
    have hturn : ∀ result', result' ≡ result * a ^ (exponent % 2) [ZMOD modulus t m] →
        result' * (a * a % modulus t m) ^ (exponent / 2) % modulus t m =
          result * a ^ exponent % modulus t m := by
      intro result' hresult'
      have hpow := (Int.mod_modEq (a * a) (modulus t m)).pow (exponent / 2)
      have hsplit : a ^ (exponent % 2) * (a * a) ^ (exponent / 2) = a ^ exponent := by
        rw [← sq, ← pow_mul, ← pow_add, Nat.mod_add_div]
      have h := hresult'.mul hpow
      rwa [mul_assoc, hsplit] at h
    rw [powLoop, if_pos hzero]
    by_cases hodd : exponent % 2 = 1
    · have hprod := (mult_iff h₀ hm hroom hresult ha).mpr (hl result a hresult ha)
      simp only [hodd, if_true, hprod, hsquare, bind_eq_bind, bind_some]
      rw [ih _ _ _ (residue_emod h₀ hm _) (residue_emod h₀ hm _) hhalf, hturn]
      rw [hodd, pow_one]
      exact Int.mod_modEq _ _
    · simp only [hodd, if_false, hsquare, bind_eq_bind, bind_some]
      rw [ih _ _ _ hresult (residue_emod h₀ hm _) hhalf, hturn]
      rw [show exponent % 2 = 0 by omega, pow_zero, mul_one]

theorem pow_spec (h₀ : 0 ≤ m) (hm : m ≤ t.max) (hone : m ≠ 1) (hroom : Roomy t m)
    (hl : Lossless t m) {a : ℤ} (ha : Residue t m a) {exponent : ℕ} (hexp : exponent < 2 ^ 64) :
    pow t m a exponent = some (a ^ exponent % modulus t m) := by
  have hresult : Residue t m 1 := by
    refine ⟨by decide, ?_⟩
    have hcard := t.card_bounds.1
    rw [modulus]
    split_ifs
    · omega
    · omega
  rw [pow, powLoop_spec h₀ hm hroom hl 64 1 a exponent hresult ha hexp, one_mul]

end SourceLibs.Random
