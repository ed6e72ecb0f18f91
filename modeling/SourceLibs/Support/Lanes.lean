import SourceLibs.Support.Ones

/-!
# Support — lanes

A number as lanes of `w` bits, and the steps by which the bits of all lanes are counted at once.

* `and_lane`: a conjunction lane by lane.
* `nibbles_cons`, `bytes_cons`: one lane more.
* `bytes_four`: the four counts of a word.
-/

namespace SourceLibs.Lanes
open Nat Blocks

/-- `n` lanes that are all `b`. -/
def rep (w b : ℕ) : ℕ → ℕ
  | 0     => 0
  | n + 1 => 2 ^ w * rep w b n + b

/-- **A conjunction**, lane by lane. -/
theorem and_lane {w a b : ℕ} (ha : a < 2 ^ w) (hb : b < 2 ^ w) (x y : ℕ) :
    (2 ^ w * x + a) &&& (2 ^ w * y + b) = 2 ^ w * (x &&& y) + (a &&& b) := by
  have htest : ∀ {c : ℕ}, c < 2 ^ w → ∀ z j, (2 ^ w * z + c).testBit j =
      if j < w then c.testBit j else z.testBit (j - w) := fun hc z => testBit_two_pow_mul_add z hc
  refine eq_of_testBit_eq fun j => ?_
  rw [testBit_and, htest ha, htest hb, htest (and_lt_two_pow a hb)]
  by_cases hj : j < w
  · rw [if_pos hj, if_pos hj, if_pos hj, testBit_and]
  · rw [if_neg hj, if_neg hj, if_neg hj, testBit_and]

/-! ### Lanes of four bits -/

/-- The bits of each pair of a number with lanes of four bits. -/
def pairs (x n : ℕ) : ℕ := x - (x >>> 1 &&& rep 4 5 n)

/-- The bits of each lane of four bits. -/
def nibbles (x n : ℕ) : ℕ := (pairs x n &&& rep 4 3 n) + (pairs x n >>> 2 &&& rep 4 3 n)

theorem pairs_cons {b : ℕ} (hb : b < 16) (x n : ℕ) :
    pairs (16 * x + b) (n + 1) = 16 * pairs x n + (b - (b / 2 &&& 5)) := by
  have hlane : b / 2 + 8 * (x % 2) < 2 ^ 4 := by omega
  have hhalf : (16 * x + b) >>> 1 = 2 ^ 4 * (x >>> 1) + (b / 2 + 8 * (x % 2)) := by
    rw [Nat.shiftRight_eq_div_pow, Nat.shiftRight_eq_div_pow]
    omega
  have hlow : ∀ b < 16, ∀ t < 2, (b / 2 + 8 * t) &&& 5 = b / 2 &&& 5 := by decide
  have hle : b / 2 &&& 5 ≤ b := Nat.and_le_left.trans (Nat.div_le_self b 2)
  have hle' : x >>> 1 &&& rep 4 5 n ≤ x := Nat.and_le_left.trans (shiftRight_le x 1)
  rw [pairs, pairs, rep, hhalf, and_lane hlane (by decide), hlow b hb _ (mod_lt x Nat.two_pos)]
  omega

/-- **One lane more.** -/
theorem nibbles_cons {b : ℕ} (hb : b < 16) (x n : ℕ) :
    nibbles (16 * x + b) (n + 1) = 16 * nibbles x n + ones b 4 := by
  have hcount : ∀ b < 16, (b - (b / 2 &&& 5) &&& 3) + ((b - (b / 2 &&& 5)) / 4 &&& 3) = ones b 4 := by
    decide
  rw [nibbles, nibbles, pairs_cons hb, ← hcount b hb]
  have hc : b - (b / 2 &&& 5) < 2 ^ 4 := by omega
  generalize b - (b / 2 &&& 5) = c at hc
  generalize pairs x n = y
  have hlane : c / 4 + 4 * (y % 4) < 2 ^ 4 := by omega
  have hquarter : (16 * y + c) >>> 2 = 2 ^ 4 * (y >>> 2) + (c / 4 + 4 * (y % 4)) := by
    rw [Nat.shiftRight_eq_div_pow, Nat.shiftRight_eq_div_pow]
    omega
  have hlow : (c / 4 + 4 * (y % 4)) &&& 3 = c / 4 &&& 3 := by
    have hmod : ∀ z, z &&& 3 = z % 4 := fun z => and_two_pow_sub_one_eq_mod z 2
    rw [hmod, hmod]
    omega
  rw [hquarter, rep, and_lane hlane (by decide), hlow, show 16 * y = 2 ^ 4 * y from rfl,
    and_lane hc (by decide)]
  omega

theorem ones_le (N n : ℕ) : ones N n ≤ n := by
  refine List.countP_le_length.trans ?_
  rw [List.length_range]

theorem nibbles_mod (x n : ℕ) : nibbles x n % 16 ≤ 4 := by
  cases n with
  | zero => rw [nibbles, rep, Nat.and_zero, Nat.and_zero]; decide
  | succ n =>
    have hle := ones_le (x % 16) 4
    have hdiv : x = 16 * (x / 16) + x % 16 := by omega
    rw [hdiv, nibbles_cons (mod_lt x (by decide))]
    omega

/-! ### Lanes of eight bits -/

/-- The bits of each lane of eight bits, from those of its halves. -/
def bytes (x n : ℕ) : ℕ := (nibbles x (2 * n) + nibbles x (2 * n) >>> 4) &&& rep 8 15 n

theorem bytes_cons {b : ℕ} (hb : b < 256) (x n : ℕ) :
    bytes (256 * x + b) (n + 1) = 256 * bytes x n + ones b 8 := by
  have hsplit : 256 * x + b = 16 * (16 * x + b / 16) + b % 16 := by omega
  have hones : ones b 8 = ones (b % 16) 4 + ones (b / 16) 4 := by
    rw [ones_add b 4 4, ← ones_mod b 4]
    rfl
  have hlo := ones_le (b % 16) 4
  have hhi := ones_le (b / 16) 4
  have hmod := nibbles_mod x (2 * n)
  rw [bytes, bytes, hsplit, Nat.mul_succ, nibbles_cons (mod_lt b (by decide)),
    nibbles_cons (by omega), hones]
  generalize ones (b % 16) 4 = lo at *
  generalize ones (b / 16) 4 = hi at *
  generalize nibbles x (2 * n) = y at *
  have hlane : lo + hi + 16 * (hi + y % 16) < 2 ^ 8 := by omega
  have hsum : 16 * (16 * y + hi) + lo + (16 * (16 * y + hi) + lo) >>> 4 =
      2 ^ 8 * (y + y >>> 4) + (lo + hi + 16 * (hi + y % 16)) := by
    rw [Nat.shiftRight_eq_div_pow, Nat.shiftRight_eq_div_pow]
    omega
  have hlow : (lo + hi + 16 * (hi + y % 16)) &&& 15 = lo + hi := by
    rw [show 15 = 2 ^ 4 - 1 from rfl, and_two_pow_sub_one_eq_mod]
    omega
  rw [hsum, rep, and_lane hlane (by decide), hlow]
  rfl

/-- **The four counts of a word.** -/
theorem bytes_four {b₀ b₁ b₂ b₃ : ℕ} (h₀ : b₀ < 256) (h₁ : b₁ < 256) (h₂ : b₂ < 256) (h₃ : b₃ < 256) :
    bytes (256 * (256 * (256 * b₃ + b₂) + b₁) + b₀) 4 =
      256 * (256 * (256 * ones b₃ 8 + ones b₂ 8) + ones b₁ 8) + ones b₀ 8 := by
  have hzero : bytes 0 0 = 0 := rfl
  have hlast : bytes b₃ 1 = ones b₃ 8 := by
    have h := bytes_cons h₃ 0 0
    rwa [hzero, Nat.mul_zero, Nat.zero_add, Nat.zero_add, Nat.zero_add] at h
  rw [bytes_cons h₀, bytes_cons h₁, bytes_cons h₂, hlast]

end SourceLibs.Lanes
