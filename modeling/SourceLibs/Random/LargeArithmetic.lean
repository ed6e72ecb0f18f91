import Mathlib.Data.Nat.ModEq
import Mathlib.Data.Nat.Prime.Basic
import Mathlib.Data.Nat.Log
import Mathlib.Tactic.Linarith
import Mathlib.Tactic.Ring

/-!
# Random — products modulo a number of 64 bits

`random/detail/large_arithmetic.hpp`: `muldivmod` multiplies two numbers of 64 bits by digits of 32
bits, and divides the product by a number of 64 bits, a digit of the quotient at a time.  A digit is
estimated from the leading digit of the divisor; the estimate leaves a remainder of up to 33 bits,
which is shifted by 32.

* `integerLog2_eq`, `multiply_spec`: the normalisation and the product.
* `divideDigit_spec`: a digit leaves the remainder, or `2 ^ 64` less where the shift loses a bit.
* `mulmod_eq_iff`: `mulmod` is exact if and only if neither digit loses one.
-/

namespace SourceLibs.Random
open Nat Function

/-! ### The source -/

/-- `integer_log2_impl<2 ^ k>::apply`. -/
def integerLog2Impl : ℕ → ℕ → ℕ → ℕ
  | 0, t, accum => t / 2 + accum
  | k + 1, t, accum =>
    let update := if t / 2 ^ 2 ^ (k + 1) ≠ 0 then 2 ^ (k + 1) else 0
    integerLog2Impl k (t / 2 ^ update) (accum + update)

/-- `integer_log2` of a `uintmax_t`. -/
def integerLog2 (t : ℕ) : ℕ := integerLog2Impl 5 t 0

/-- Subtraction in `uintmax_t`. -/
def sub64 (a b : ℕ) : ℕ := (a + (2 ^ 64 - b % 2 ^ 64)) % 2 ^ 64

/-- The digits of a `uintmax_t`. -/
def digits (x : ℕ) (i : ℕ) : ℕ := x / 2 ^ (32 * i) % 2 ^ 32

/-- The inner loop of the multiplication: a row of the product. -/
def multiplyRow (a : ℕ) (b : ℕ → ℕ) (i : ℕ) (product : ℕ → ℕ) : ℕ → ℕ :=
  let (product, carry) := [0, 1].foldl (fun (product, carry) j =>
    let temp := (a * b j + carry + product (i + j)) % 2 ^ 64
    (Function.update product (i + j) (temp % 2 ^ 32), temp / 2 ^ 32 % 2 ^ 32)) (product, 0)
  if carry ≠ 0 then Function.update product (i + 2) ((product (i + 2) + carry) % 2 ^ 32) else product

/-- The multiplication. -/
def multiply (a b : ℕ → ℕ) : ℕ → ℕ :=
  [0, 1].foldl (fun product i => multiplyRow (a i) b i product) fun _ => 0

/-- A turn of the division, on the digits `p₂ p₁ p₀` of the product: the digit of the quotient, and
what the two lower digits become. -/
def divideDigit (m p₂ p₁ p₀ : ℕ) : ℕ × ℕ :=
  let m₁ := digits m 1
  let m₀ := digits m 0
  let temp := p₂ * 2 ^ 32 + p₁
  let q := (if p₂ = m₁ then 2 ^ 32 - 1 else temp / m₁) % 2 ^ 32
  let rem := (sub64 temp (q * m₁) * 2 ^ 32 + p₀) % 2 ^ 64
  let diff := m₀ * q % 2 ^ 64
  let error := if diff > rem then (if sub64 diff rem > m then 2 else 1) else 0
  ((q + (2 ^ 32 - error)) % 2 ^ 32, sub64 (rem + error * m) diff)

structure DivT where
  quotient : ℕ
  remainder : ℕ

def muldivmod (a b m : ℕ) : DivT :=
  let shift := 63 - integerLog2 m
  let a := a * 2 ^ shift % 2 ^ 64
  let m := m * 2 ^ shift % 2 ^ 64
  let product := multiply (digits a) (digits b)
  if m = 0 then
    ⟨product 3 * 2 ^ 32 + product 2, (product 1 * 2 ^ 32 + product 0) / 2 ^ shift⟩
  else
    let (quotient₁, rem) := divideDigit m (product 3) (product 2) (product 1)
    let (quotient₀, rem) := divideDigit m (digits rem 1) (digits rem 0) (product 0)
    ⟨quotient₁ * 2 ^ 32 + quotient₀, rem / 2 ^ shift⟩

def mulmod (a b m : ℕ) : ℕ := (muldivmod a b m).remainder

/-! ### The normalisation -/

theorem integerLog2Impl_eq (k : ℕ) :
    ∀ t accum, 0 < t → t < 2 ^ 2 ^ (k + 1) → integerLog2Impl k t accum = Nat.log 2 t + accum := by
  induction k with
  | zero =>
    intro t accum h₀ ht
    have ht : t < 4 := ht
    have hcases : t = 1 ∨ t = 2 ∨ t = 3 := by omega
    rw [integerLog2Impl, Nat.add_right_cancel_iff]
    rcases hcases with rfl | rfl | rfl <;> decide
  | succ k ih =>
    intro t accum h₀ ht
    rw [integerLog2Impl]
    by_cases hbig : t / 2 ^ 2 ^ (k + 1) ≠ 0
    · rw [if_pos hbig]
      have hle : 2 ^ 2 ^ (k + 1) ≤ t := by
        by_contra hlt
        exact hbig (div_eq_of_lt (by omega))
      have hlog : 2 ^ (k + 1) ≤ Nat.log 2 t := le_log_of_pow_le (by decide) hle
      have hlt : t / 2 ^ 2 ^ (k + 1) < 2 ^ 2 ^ (k + 1) := by
        refine Nat.div_lt_of_lt_mul ?_
        rw [← pow_add, ← Nat.two_mul, ← pow_succ']
        exact ht
      rw [ih _ _ (Nat.pos_of_ne_zero hbig) hlt, log_div_base_pow]
      omega
    · rw [if_neg hbig, pow_zero, Nat.div_one]
      refine ih t (accum + 0) h₀ ?_
      by_contra hge
      exact hbig (Nat.div_pos (by omega) (by positivity)).ne'

theorem integerLog2_eq {t : ℕ} (h₀ : 0 < t) (ht : t < 2 ^ 64) : integerLog2 t = Nat.log 2 t :=
  integerLog2Impl_eq 5 t 0 h₀ ht

/-- **The normalised modulus** has its highest bit. -/
theorem normalised {m : ℕ} (h₀ : 0 < m) (hm : m < 2 ^ 64) :
    2 ^ 63 ≤ m * 2 ^ (63 - integerLog2 m) ∧ m * 2 ^ (63 - integerLog2 m) < 2 ^ 64 := by
  rw [integerLog2_eq h₀ hm]
  have hlog : Nat.log 2 m < 64 := log_lt_of_lt_pow h₀.ne' hm
  have hlow := pow_log_le_self 2 h₀.ne'
  have hhigh := lt_pow_succ_log_self (by decide : 1 < 2) m
  constructor
  · calc 2 ^ 63 = 2 ^ Nat.log 2 m * 2 ^ (63 - Nat.log 2 m) := by
          rw [← pow_add]
          congr 1
          omega
      _ ≤ m * 2 ^ (63 - Nat.log 2 m) := Nat.mul_le_mul_right _ hlow
  · calc m * 2 ^ (63 - Nat.log 2 m) < 2 ^ (Nat.log 2 m + 1) * 2 ^ (63 - Nat.log 2 m) :=
          Nat.mul_lt_mul_of_pos_right hhigh (by positivity)
      _ = 2 ^ 64 := by
          rw [← pow_add]
          congr 1
          omega

theorem digits_lt (x i : ℕ) : digits x i < 2 ^ 32 := mod_lt _ (by decide)

theorem digits_value {x : ℕ} (hx : x < 2 ^ 64) :
    digits x 1 * 2 ^ 32 + digits x 0 = x ∧ digits x 1 = x / 2 ^ 32 ∧ digits x 0 = x % 2 ^ 32 := by
  simp only [digits]
  omega

theorem sub64_eq {a b : ℕ} (hba : b ≤ a) (ha : a < 2 ^ 64) : sub64 a b = a - b := by
  rw [sub64]
  omega

/-! ### The product -/

theorem multiplyRow_spec {a : ℕ} {b : ℕ → ℕ} {i : ℕ} {product : ℕ → ℕ} (ha : a < 2 ^ 32)
    (hb : ∀ j, b j < 2 ^ 32) (hp : ∀ k, product k < 2 ^ 32) (hz : product (i + 2) = 0) :
    (∀ k, multiplyRow a b i product k < 2 ^ 32) ∧
    (∀ k, k ≠ i → k ≠ i + 1 → k ≠ i + 2 → multiplyRow a b i product k = product k) ∧
    multiplyRow a b i product i + multiplyRow a b i product (i + 1) * 2 ^ 32 +
        multiplyRow a b i product (i + 2) * 2 ^ 64 =
      product i + product (i + 1) * 2 ^ 32 + a * (b 0 + b 1 * 2 ^ 32) := by
  have hmul : ∀ j, a * b j ≤ (2 ^ 32 - 1) * (2 ^ 32 - 1) := fun j =>
    Nat.mul_le_mul (by omega) (by have := hb j; omega)
  have h₀ := hmul 0
  have h₁ := hmul 1
  have hp₀ := hp i
  have hp₁ := hp (i + 1)
  have hexpand : a * (b 0 + b 1 * 2 ^ 32) = a * b 0 + a * b 1 * 2 ^ 32 := by ring
  rw [hexpand]
  generalize hx₀ : a * b 0 = x₀ at *
  generalize hx₁ : a * b 1 = x₁ at *
  have hrow : multiplyRow a b i product =
      let temp₀ := (x₀ + 0 + product i) % 2 ^ 64
      let temp₁ := (x₁ + temp₀ / 2 ^ 32 % 2 ^ 32 + product (i + 1)) % 2 ^ 64
      let written := update (update product i (temp₀ % 2 ^ 32)) (i + 1)
        (temp₁ % 2 ^ 32)
      if temp₁ / 2 ^ 32 % 2 ^ 32 ≠ 0 then
        update written (i + 2) ((written (i + 2) + temp₁ / 2 ^ 32 % 2 ^ 32) % 2 ^ 32)
      else written := by
    rw [multiplyRow]
    simp only [List.foldl_cons, List.foldl_nil, Nat.add_zero, hx₀, hx₁]
    rw [update_of_ne (by omega : i + 1 ≠ i)]
  have ht₀ : (x₀ + 0 + product i) % 2 ^ 64 = x₀ + product i := by omega
  have ht₁ : (x₁ + (x₀ + product i) / 2 ^ 32 % 2 ^ 32 + product (i + 1)) % 2 ^ 64 =
      x₁ + (x₀ + product i) / 2 ^ 32 + product (i + 1) := by omega
  simp only [ht₀, ht₁] at hrow
  generalize ht : x₁ + (x₀ + product i) / 2 ^ 32 + product (i + 1) = temp₁ at hrow
  have hlt : temp₁ / 2 ^ 32 < 2 ^ 32 := by omega
  generalize hw : update (update product i ((x₀ + product i) % 2 ^ 32)) (i + 1)
    (temp₁ % 2 ^ 32) = w at hrow
  have hw₀ : w i = (x₀ + product i) % 2 ^ 32 := by simp [← hw]
  have hw₁ : w (i + 1) = temp₁ % 2 ^ 32 := by simp [← hw]
  have hw₂ : w (i + 2) = 0 := by simp [← hw, hz]
  have hwk : ∀ k, k ≠ i → k ≠ i + 1 → w k = product k := fun k h h' => by simp [← hw, h, h']
  have hout : ∀ k, k ≠ i + 2 → multiplyRow a b i product k = w k := by
    intro k hk
    rw [hrow]
    split_ifs
    · exact update_of_ne hk _ _
    · rfl
  have htop : multiplyRow a b i product (i + 2) = temp₁ / 2 ^ 32 := by
    rw [hrow]
    split_ifs with hc
    · rw [update_self, hw₂]
      omega
    · rw [hw₂]
      omega
  refine ⟨fun k => ?_, fun k h0 h1 h2 => (hout k h2).trans (hwk k h0 h1), ?_⟩
  · by_cases h2 : k = i + 2
    · rw [h2, htop]
      exact hlt
    · rw [hout k h2]
      by_cases h1 : k = i + 1
      · rw [h1, hw₁]
        exact mod_lt _ (by decide)
      · by_cases h0 : k = i
        · rw [h0, hw₀]
          exact mod_lt _ (by decide)
        · rw [hwk k h0 h1]
          exact hp k
  · rw [hout i (by omega), hout (i + 1) (by omega), htop, hw₀, hw₁]
    omega

/-- **The product**, by its digits. -/
theorem multiply_spec {a b : ℕ} (ha : a < 2 ^ 64) (hb : b < 2 ^ 64) :
    (∀ k, multiply (digits a) (digits b) k < 2 ^ 32) ∧
      multiply (digits a) (digits b) 0 + multiply (digits a) (digits b) 1 * 2 ^ 32 +
        multiply (digits a) (digits b) 2 * 2 ^ 64 + multiply (digits a) (digits b) 3 * 2 ^ 96 =
      a * b := by
  obtain ⟨hav, -, -⟩ := digits_value ha
  obtain ⟨hbv, -, -⟩ := digits_value hb
  have hstart : ∀ k, (fun _ => 0 : ℕ → ℕ) k < 2 ^ 32 := fun _ => Nat.two_pow_pos 32
  obtain ⟨hlt, hsame, hsum⟩ := multiplyRow_spec (i := 0) (digits_lt a 0) (digits_lt b) hstart rfl
  have hz : multiplyRow (digits a 0) (digits b) 0 (fun _ => 0) 3 = 0 :=
    hsame 3 (by decide) (by decide) (by decide)
  obtain ⟨hlt', hsame', hsum'⟩ := multiplyRow_spec (i := 1) (digits_lt a 1) (digits_lt b) hlt hz
  have hmul : multiply (digits a) (digits b) = multiplyRow (digits a 1) (digits b) 1
      (multiplyRow (digits a 0) (digits b) 0 fun _ => 0) := rfl
  rw [hmul]
  refine ⟨hlt', ?_⟩
  rw [hsame' 0 (by decide) (by decide) (by decide)]
  have hprod : a * b = digits a 0 * (digits b 0 + digits b 1 * 2 ^ 32) +
      digits a 1 * (digits b 0 + digits b 1 * 2 ^ 32) * 2 ^ 32 := by
    calc a * b = (digits a 1 * 2 ^ 32 + digits a 0) * (digits b 1 * 2 ^ 32 + digits b 0) := by
          rw [hav, hbv]
      _ = _ := by ring
  rw [hprod]
  simp only [Nat.zero_add, Nat.reduceAdd] at hsum hsum'
  omega

/-! ### The division -/

/-- The remainder of an estimated digit has 33 bits. -/
def Lossy (m y : ℕ) : Prop := y / 2 ^ 32 = m / 2 ^ 32 ∧ 2 ^ 32 ≤ m / 2 ^ 32 + y % 2 ^ 32

instance (m y : ℕ) : Decidable (Lossy m y) := inferInstanceAs (Decidable (_ ∧ _))

/-- What a lossy digit takes from the remainder. -/
def lost (m y : ℕ) : ℕ := if Lossy m y then 1 else 0

/-- The estimate of a digit, its remainder against the leading digit, and the remainder that the
shift leaves. -/
theorem estimate_spec {m y : ℕ} (hm : 2 ^ 63 ≤ m) (hm' : m < 2 ^ 64) (hy : y < m) :
    ∃ q r, (if y / 2 ^ 32 = m / 2 ^ 32 then 2 ^ 32 - 1 else y / (m / 2 ^ 32)) % 2 ^ 32 = q ∧
      q < 2 ^ 32 ∧ y = q * (m / 2 ^ 32) + r ∧
      (r < m / 2 ^ 32 ∧ lost m y = 0 ∨ q = 2 ^ 32 - 1 ∧ r < 2 ^ 32 ∧ lost m y = 0 ∨
        q = 2 ^ 32 - 1 ∧ 2 ^ 32 ≤ r ∧ r < 2 ^ 33 ∧ lost m y = 1) := by
  have hpos : 0 < m / 2 ^ 32 := Nat.div_pos (by omega) (by decide)
  have hle : y / 2 ^ 32 ≤ m / 2 ^ 32 := Nat.div_le_div_right hy.le
  have hdm := div_add_mod y (2 ^ 32)
  have hmod := mod_lt y (by decide : 0 < 2 ^ 32)
  have hm₁ : m / 2 ^ 32 < 2 ^ 32 := by omega
  by_cases he : y / 2 ^ 32 = m / 2 ^ 32
  · rw [if_pos he]
    refine ⟨2 ^ 32 - 1, m / 2 ^ 32 + y % 2 ^ 32, by decide, by decide, by omega, Or.inr ?_⟩
    by_cases hl : 2 ^ 32 ≤ m / 2 ^ 32 + y % 2 ^ 32
    · exact Or.inr ⟨rfl, hl, by omega, if_pos ⟨he, hl⟩⟩
    · exact Or.inl ⟨rfl, by omega, if_neg fun h => hl h.2⟩
  · rw [if_neg he]
    have hq : y / (m / 2 ^ 32) < 2 ^ 32 := by
      refine Nat.div_lt_of_lt_mul ?_
      have : (y / 2 ^ 32 + 1) * 2 ^ 32 ≤ m / 2 ^ 32 * 2 ^ 32 :=
        Nat.mul_le_mul_right _ (by omega)
      omega
    refine ⟨y / (m / 2 ^ 32), y % (m / 2 ^ 32), mod_eq_of_lt hq, hq, ?_,
      Or.inl ⟨mod_lt _ hpos, if_neg fun h => he h.1⟩⟩
    rw [Nat.mul_comm]
    exact (div_add_mod _ _).symm

/-- The correction of the estimate adds the modulus until the remainder is in range. -/
theorem correction_spec {m rem diff : ℕ} (hm : 2 ^ 63 ≤ m) (hm' : m < 2 ^ 64) (hdiff : diff < 2 ^ 64)
    (hlt : rem < m + diff) :
    ∃ e R, sub64 (rem + (if diff > rem then (if sub64 diff rem > m then 2 else 1) else 0) * m) diff = R ∧
      R < m ∧ R + diff = rem + e * m := by
  rw [sub64, mod_eq_of_lt hdiff]
  by_cases hgt : diff > rem
  · rw [if_pos hgt, sub64_eq hgt.le (by omega)]
    by_cases hgt' : diff - rem > m
    · rw [if_pos hgt']
      exact ⟨2, rem + 2 * m - diff, by omega, by omega, by omega⟩
    · rw [if_neg hgt']
      exact ⟨1, rem + 1 * m - diff, by omega, by omega, by omega⟩
  · rw [if_neg hgt]
    exact ⟨0, rem - diff, by omega, by omega, by omega⟩

/-- **A digit of the division** leaves the remainder of `y * 2 ^ 32 + d`, or of `2 ^ 64` less. -/
theorem divideDigit_spec {m y d : ℕ} (hm : 2 ^ 63 ≤ m) (hm' : m < 2 ^ 64) (hy : y < m)
    (hd : d < 2 ^ 32) :
    (divideDigit m (y / 2 ^ 32) (y % 2 ^ 32) d).2 < m ∧
      (divideDigit m (y / 2 ^ 32) (y % 2 ^ 32) d).2 + lost m y * 2 ^ 64 ≡ y * 2 ^ 32 + d [MOD m] := by
  obtain ⟨-, hm₁, hm₀⟩ := digits_value hm'
  have hdm : y / 2 ^ 32 * 2 ^ 32 + y % 2 ^ 32 = y := by omega
  obtain ⟨q, r, hq, hq', hyq, hcases⟩ := estimate_spec hm hm' hy
  rw [divideDigit, hdm, hm₁, hm₀]
  simp only
  rw [hq]
  clear hq hm₁ hm₀ hdm
  have hlow : m % 2 ^ 32 * q ≤ (2 ^ 32 - 1) * (2 ^ 32 - 1) :=
    Nat.mul_le_mul (by omega) (by omega)
  have hqm : q * m = q * (m / 2 ^ 32) * 2 ^ 32 + m % 2 ^ 32 * q := by
    calc q * m = q * (m / 2 ^ 32 * 2 ^ 32 + m % 2 ^ 32) := by rw [div_add_mod']
      _ = _ := by ring
  have hsub : sub64 y (q * (m / 2 ^ 32)) = r := by
    rw [sub64_eq (by omega) (by omega)]
    omega
  rw [hsub, mod_eq_of_lt (by omega : m % 2 ^ 32 * q < 2 ^ 64)]
  generalize m % 2 ^ 32 * q = diff at hlow hqm ⊢
  generalize hqh : q * (m / 2 ^ 32) = qh at hyq hqm
  -- The dividend is `q * m + r * 2 ^ 32 + d - diff`, and a multiple of `m` is added or taken away.
  have hcongr : ∀ R e : ℕ, R + lost m y * 2 ^ 64 + diff = r * 2 ^ 32 + d + e * m →
      R + lost m y * 2 ^ 64 ≡ y * 2 ^ 32 + d [MOD m] := by
    intro R e hR
    have hsum : R + lost m y * 2 ^ 64 + m * q = y * 2 ^ 32 + d + m * e := by
      rw [Nat.mul_comm m q, hqm, Nat.mul_comm m e]
      omega
    calc R + lost m y * 2 ^ 64 ≡ R + lost m y * 2 ^ 64 + m * q [MOD m] :=
          (add_mul_mod_self_left _ _ _).symm
      _ = y * 2 ^ 32 + d + m * e := hsum
      _ ≡ y * 2 ^ 32 + d [MOD m] := add_mul_mod_self_left _ _ _
  have htop : q = 2 ^ 32 - 1 → r * 2 ^ 32 + d < m + diff := by
    intro hqe
    have hsucc : q + 1 = 2 ^ 32 := by omega
    have hall : q * m + m = 2 ^ 32 * m := by rw [← Nat.succ_mul, ← hsucc]
    clear hqe hsucc hq' hcases
    omega
  have hrem : ∃ rem, (r * 2 ^ 32 + d) % 2 ^ 64 = rem ∧
      rem + lost m y * 2 ^ 64 = r * 2 ^ 32 + d ∧ rem < m + diff := by
    clear hcongr hqm hyq hqh hsub
    rcases hcases with ⟨hr, hl⟩ | ⟨hqe, hr, hl⟩ | ⟨hqe, hr, hr', hl⟩
    · clear htop
      exact ⟨r * 2 ^ 32 + d, mod_eq_of_lt (by omega), by omega, by omega⟩
    · have := htop hqe
      clear htop
      exact ⟨r * 2 ^ 32 + d, mod_eq_of_lt (by omega), by omega, this⟩
    · have := htop hqe
      clear htop
      exact ⟨r * 2 ^ 32 + d - 2 ^ 64, by omega, by omega, by omega⟩
  obtain ⟨rem, hremv, hremsum, hremlt⟩ := hrem
  obtain ⟨e, R, hR, hlt, hsum⟩ := correction_spec hm hm' (hlow.trans_lt (by decide)) hremlt
  rw [hremv, hR]
  exact ⟨hlt, hcongr R e (by rw [← hremsum, Nat.add_right_comm, hsum, Nat.add_right_comm])⟩

/-- The shift of the normalisation. -/
def shiftOf (m : ℕ) : ℕ := 63 - integerLog2 m

/-- **The division** by both digits. -/
theorem mulmod_spec {a b m : ℕ} (ha : a < m) (hb : b < m) (hm : m < 2 ^ 64) :
    ∃ y r, mulmod a b m = r / 2 ^ shiftOf m ∧ r < m * 2 ^ shiftOf m ∧ y < m * 2 ^ shiftOf m ∧
      y + lost (m * 2 ^ shiftOf m) (a * 2 ^ shiftOf m * b / 2 ^ 64) * 2 ^ 64 ≡
        a * 2 ^ shiftOf m * b / 2 ^ 32 [MOD m * 2 ^ shiftOf m] ∧
      r + lost (m * 2 ^ shiftOf m) y * 2 ^ 64 ≡
        y * 2 ^ 32 + a * 2 ^ shiftOf m * b % 2 ^ 32 [MOD m * 2 ^ shiftOf m] := by
  obtain ⟨hlow, hhigh⟩ := normalised (zero_lt_of_lt ha) hm
  rw [mulmod, muldivmod]
  rw [← shiftOf] at hlow hhigh ⊢
  generalize hs : 2 ^ shiftOf m = t at hlow hhigh ⊢
  have hat : a * t < m * t := Nat.mul_lt_mul_of_pos_right ha (hs ▸ Nat.two_pow_pos _)
  have htpos : 0 < t := hs ▸ Nat.two_pow_pos _
  have hmt : m ≤ m * t := Nat.le_mul_of_pos_right m htpos
  rw [mod_eq_of_lt (hat.trans hhigh), mod_eq_of_lt hhigh]
  obtain ⟨hdig, hprod⟩ := multiply_spec (hat.trans hhigh) (hb.trans hm)
  have hbound : a * t * b < 2 ^ 64 * (m * t) := by
    calc a * t * b ≤ a * t * (m * t) := Nat.mul_le_mul_left _ (by omega)
      _ < 2 ^ 64 * (m * t) := Nat.mul_lt_mul_of_pos_right (by omega) (by omega)
  simp only
  generalize multiply (digits (a * t)) (digits b) = product at hdig hprod ⊢
  generalize a * t * b = p at hprod hbound ⊢
  generalize m * t = m' at hlow hhigh hbound ⊢
  have h0 := hdig 0
  have h1 := hdig 1
  have h2 := hdig 2
  have h3 := hdig 3
  rw [if_neg (by omega)]
  have hy : p / 2 ^ 64 < m' := Nat.div_lt_of_lt_mul hbound
  have hy₃ : product 3 = p / 2 ^ 64 / 2 ^ 32 := by omega
  have hy₂ : product 2 = p / 2 ^ 64 % 2 ^ 32 := by omega
  have hp₁ : p / 2 ^ 32 = p / 2 ^ 64 * 2 ^ 32 + product 1 := by omega
  have hp₀ : p % 2 ^ 32 = product 0 := by omega
  rw [hy₃, hy₂, hp₁, hp₀]
  obtain ⟨hlt₁, hmod₁⟩ := divideDigit_spec hlow hhigh hy h1
  generalize divideDigit m' (p / 2 ^ 64 / 2 ^ 32) (p / 2 ^ 64 % 2 ^ 32) (product 1) = turn₁ at hlt₁ hmod₁ ⊢
  obtain ⟨-, hd₁, hd₀⟩ := digits_value (hlt₁.trans hhigh)
  rw [hd₁, hd₀]
  obtain ⟨hlt₀, hmod₀⟩ := divideDigit_spec hlow hhigh hlt₁ h0
  exact ⟨turn₁.2, _, rfl, hlt₀, hlt₁, hmod₁, hmod₀⟩

theorem mulmod_lt {a b m : ℕ} (ha : a < m) (hb : b < m) (hm : m < 2 ^ 64) : mulmod a b m < m := by
  obtain ⟨y, r, hval, hr, -⟩ := mulmod_spec ha hb hm
  rw [hval]
  exact (Nat.div_lt_iff_lt_mul (Nat.two_pow_pos _)).mpr hr

/-- Either digit of the division is lossy. -/
def LossyPair (m a b : ℕ) : Prop :=
  Lossy (m * 2 ^ shiftOf m) (a * 2 ^ shiftOf m * b / 2 ^ 64) ∨
    Lossy (m * 2 ^ shiftOf m) (a * 2 ^ shiftOf m * b / 2 ^ 32 % (m * 2 ^ shiftOf m))

instance (m a b : ℕ) : Decidable (LossyPair m a b) := inferInstanceAs (Decidable (_ ∨ _))

/-- A modulus that divides a power of two is one. -/
theorem exists_pow_of_dvd {m t k : ℕ} (h : m * t ∣ 2 ^ k) : ∃ j, m = 2 ^ j := by
  obtain ⟨j, -, hj⟩ := (Nat.dvd_prime_pow Nat.prime_two).mp ((Dvd.intro t rfl).trans h)
  exact ⟨j, hj⟩

/-- **Two lossy digits** do not make up for each other. -/
theorem not_dvd_both {m a b : ℕ} (ha : a < m) (hb : b < m) (hm : m < 2 ^ 64)
    (hlossy : Lossy (m * 2 ^ shiftOf m) (a * 2 ^ shiftOf m * b / 2 ^ 64)) :
    ¬ m * 2 ^ shiftOf m ∣ 2 ^ 64 + 2 ^ 96 := by
  obtain ⟨hlow, hhigh⟩ := normalised (zero_lt_of_lt ha) hm
  rw [← shiftOf] at hlow hhigh
  intro hdvd
  have hy : m * 2 ^ shiftOf m < a * 2 ^ shiftOf m * b / 2 ^ 64 + 2 ^ 32 := by
    have h₁ := hlossy.1
    omega
  have hp : a * 2 ^ shiftOf m * b < m * 2 ^ shiftOf m * m := by
    calc a * 2 ^ shiftOf m * b ≤ a * 2 ^ shiftOf m * m := Nat.mul_le_mul_left _ hb.le
      _ < m * 2 ^ shiftOf m * m := Nat.mul_lt_mul_of_pos_right
          (Nat.mul_lt_mul_of_pos_right ha (Nat.two_pow_pos _)) (by omega)
  -- The modulus is not shifted: the square of a smaller one has no such leading digits.
  have hs : shiftOf m = 0 := by
    by_contra hne
    have htwo : 2 ≤ 2 ^ shiftOf m := by
      calc 2 = 2 ^ 1 := rfl
        _ ≤ 2 ^ shiftOf m := Nat.pow_le_pow_right (by decide) (one_le_iff_ne_zero.mpr hne)
    have hhalf : m * 2 ≤ m * 2 ^ shiftOf m := Nat.mul_le_mul_left m htwo
    generalize m * 2 ^ shiftOf m = m' at *
    have hsq : m' * m * 2 ≤ m' * 2 ^ 64 := by
      calc m' * m * 2 = m' * (m * 2) := by ring
        _ ≤ m' * 2 ^ 64 := Nat.mul_le_mul_left _ (by omega)
    generalize m' * m = sq at *
    omega
  simp only [hs, pow_zero, Nat.mul_one] at hlow hhigh hdvd hy hp
  obtain ⟨u, hu⟩ : ∃ u, m + u = 2 ^ 64 := ⟨2 ^ 64 - m, by omega⟩
  have hu₀ : 0 < u := by omega
  have hsq : m * m + m * u = m * 2 ^ 64 := by rw [← Nat.mul_add, hu]
  have hmu : 2 ^ 63 * u ≤ m * u := Nat.mul_le_mul_right u hlow
  generalize m * m = sq at *
  have hu33 : u < 2 ^ 33 := by
    generalize a * b = p at *
    omega
  have hdvd' : m ∣ u * (2 ^ 32 + 1) := by
    have hsum : 2 ^ 64 + 2 ^ 96 = m * (2 ^ 32 + 1) + u * (2 ^ 32 + 1) := by
      rw [← Nat.add_mul, hu]
      norm_num
    rw [hsum] at hdvd
    exact (Nat.dvd_add_right (Dvd.intro _ rfl)).mp hdvd
  obtain ⟨k, hk⟩ := hdvd'
  have hk₁ : 1 ≤ k := by
    by_contra h
    obtain rfl : k = 0 := by omega
    omega
  have hk₂ : k ≤ 2 := by
    by_contra h
    have : m * 3 ≤ m * k := Nat.mul_le_mul_left m (by omega)
    omega
  obtain rfl | rfl : k = 1 ∨ k = 2 := by omega
  · omega
  · omega

/-- **`mulmod`** is exact, for a modulus that is not a power of two, if and only if neither digit of
the quotient is lossy. -/
theorem mulmod_eq_iff {a b m : ℕ} (ha : a < m) (hb : b < m) (hm : m < 2 ^ 64)
    (hpow : ∀ k, m ≠ 2 ^ k) : mulmod a b m = a * b % m ↔ ¬ LossyPair m a b := by
  obtain ⟨y, r, hval, hr, hy, hmod₁, hmod₀⟩ := mulmod_spec ha hb hm
  have htpos : 0 < 2 ^ shiftOf m := Nat.two_pow_pos _
  have hst : shiftOf m ≤ 63 := sub_le _ _
  have hpt : a * 2 ^ shiftOf m * b = a * b * 2 ^ shiftOf m := by ring
  generalize hp : a * 2 ^ shiftOf m * b = p at hmod₁ hmod₀ hpt
  have hd64 : 2 ^ shiftOf m ∣ 2 ^ 64 := Nat.pow_dvd_pow 2 (by omega)
  have htotal : r + lost (m * 2 ^ shiftOf m) y * 2 ^ 64 +
      lost (m * 2 ^ shiftOf m) (p / 2 ^ 64) * 2 ^ 96 ≡ p [MOD m * 2 ^ shiftOf m] := by
    calc r + lost (m * 2 ^ shiftOf m) y * 2 ^ 64 +
          lost (m * 2 ^ shiftOf m) (p / 2 ^ 64) * 2 ^ 96
        ≡ y * 2 ^ 32 + p % 2 ^ 32 + lost (m * 2 ^ shiftOf m) (p / 2 ^ 64) * 2 ^ 96
          [MOD m * 2 ^ shiftOf m] := hmod₀.add_right _
      _ = (y + lost (m * 2 ^ shiftOf m) (p / 2 ^ 64) * 2 ^ 64) * 2 ^ 32 + p % 2 ^ 32 := by ring
      _ ≡ p / 2 ^ 32 * 2 ^ 32 + p % 2 ^ 32 [MOD m * 2 ^ shiftOf m] :=
          (hmod₁.mul_right _).add_right _
      _ = p := div_add_mod' _ _
  -- The remainder is a multiple of the shift, so the result is exact when the remainder is.
  have hexact : mulmod a b m = a * b % m ↔ r ≡ p [MOD m * 2 ^ shiftOf m] := by
    have hpm : p % (m * 2 ^ shiftOf m) = a * b % m * 2 ^ shiftOf m := by
      rw [hpt, mul_mod_mul_right]
    have hrdvd : 2 ^ shiftOf m ∣ r := by
      have hz := htotal.of_mul_left m
      have hz : 2 ^ shiftOf m ∣ r + lost (m * 2 ^ shiftOf m) y * 2 ^ 64 +
          lost (m * 2 ^ shiftOf m) (p / 2 ^ 64) * 2 ^ 96 := by
        refine (Nat.modEq_zero_iff_dvd.mp (hz.trans ?_))
        exact Nat.modEq_zero_iff_dvd.mpr (hpt ▸ Dvd.intro_left _ rfl)
      rw [Nat.dvd_add_left ((hd64.trans (by decide : 2 ^ 64 ∣ 2 ^ 96)).mul_left _),
        Nat.dvd_add_left (hd64.mul_left _)] at hz
      exact hz
    obtain ⟨c, rfl⟩ := hrdvd
    rw [hval, Nat.mul_div_cancel_left _ htpos, Nat.ModEq, mod_eq_of_lt hr, hpm,
      Nat.mul_comm (2 ^ shiftOf m) c]
    exact (Nat.mul_left_inj htpos.ne').symm
  rw [hexact]
  have hsplit : r ≡ p [MOD m * 2 ^ shiftOf m] ↔ m * 2 ^ shiftOf m ∣
      lost (m * 2 ^ shiftOf m) y * 2 ^ 64 + lost (m * 2 ^ shiftOf m) (p / 2 ^ 64) * 2 ^ 96 := by
    rw [Nat.add_assoc] at htotal
    constructor
    · intro h
      have h₀ := Nat.ModEq.add_left_cancel h (htotal.trans (show p + 0 ≡ p + 0 [MOD _] from rfl).symm)
      exact Nat.modEq_zero_iff_dvd.mp h₀
    · intro h
      have h₀ := (Nat.modEq_zero_iff_dvd.mpr h).add_left r
      exact h₀.symm.trans htotal
  rw [hsplit, LossyPair, hp]
  by_cases h₁ : Lossy (m * 2 ^ shiftOf m) (p / 2 ^ 64)
  · refine iff_of_false (fun hdvd => ?_) (not_not.mpr (Or.inl h₁))
    rw [lost, lost, if_pos h₁] at hdvd
    split_ifs at hdvd
    · exact not_dvd_both ha hb hm (hp ▸ h₁) (by rwa [Nat.one_mul, Nat.one_mul] at hdvd)
    · rw [Nat.zero_mul, Nat.zero_add, Nat.one_mul] at hdvd
      obtain ⟨j, hj⟩ := exists_pow_of_dvd hdvd
      exact hpow j hj
  · have hy' : y = p / 2 ^ 32 % (m * 2 ^ shiftOf m) := by
      rw [lost, if_neg h₁, Nat.zero_mul, Nat.add_zero] at hmod₁
      rw [← hmod₁, mod_eq_of_lt hy]
    rw [← hy', or_iff_right h₁, lost, lost, if_neg h₁, Nat.zero_mul, Nat.add_zero]
    split_ifs with h₂
    · refine iff_of_false (fun hdvd => ?_) (not_not.mpr h₂)
      rw [Nat.one_mul] at hdvd
      obtain ⟨j, hj⟩ := exists_pow_of_dvd hdvd
      exact hpow j hj
    · exact iff_of_true ⟨0, by rw [Nat.zero_mul, Nat.mul_zero]⟩ h₂

end SourceLibs.Random
