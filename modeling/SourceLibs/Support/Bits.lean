import SourceLibs.Support.Radix
import Mathlib.Data.Int.Bitwise

/-!
# Support — Bits

Bits of positional values and of integers.  An integer is an infinite sequence of bits in two's
complement (`Int.testBit`); `twos n N s` is the integer whose low `n` bits are those of `N` and
whose further bits are all `s`.

* `testBit_value`: at radix `2 ^ w`, bit `k` is bit `k % w` of digit `k / w`.
* `testBit_twos`: the bits of `twos`.
* `int_eq_of_testBit_eq`: integers with the same bits are equal.
* `and_shift_ne_zero`: a masked bit of a word, as a condition.
* `and_not_mask`, `signExtend_eq_mask`: cutting a word to its low bits with a mask.
-/

namespace SourceLibs.Radix
open Nat BitVec

theorem testBit_value {w : ℕ} {f : ℕ → ℕ} (hf : ∀ i, f i < 2 ^ w) :
    ∀ (n k : ℕ), k < w * n → (value (2 ^ w) f n).testBit k = (f (k / w)).testBit (k % w)
  | 0, k, h => absurd h (by simp)
  | n + 1, k, h => by
    have hlow : value (2 ^ w) f n < 2 ^ (w * n) := by
      rw [pow_mul]
      exact value_lt fun i _ => hf i
    have hw : 0 < w := Nat.pos_of_ne_zero fun h₀ => by simp [h₀] at h
    rw [value_succ, ← pow_mul, Nat.add_comm, Nat.mul_comm (f n), testBit_two_pow_mul_add _ hlow]
    split
    · rename_i hk
      exact testBit_value hf n k hk
    · rename_i hk
      obtain ⟨t, rfl⟩ := Nat.exists_eq_add_of_le (Nat.le_of_not_lt hk)
      have ht : t < w := by rw [Nat.mul_succ] at h; omega
      rw [Nat.add_sub_cancel_left, mul_add_div hw, div_eq_of_lt ht, mul_add_mod,
        mod_eq_of_lt ht, Nat.add_zero]

end SourceLibs.Radix

namespace SourceLibs

/-- The integer with the low `n` bits of `N` and the bits `s` above. -/
def twos (n N : ℕ) (s : Bool) : ℤ := N - if s then 2 ^ n else 0

theorem testBit_twos {n N : ℕ} (hN : N < 2 ^ n) (s : Bool) (k : ℕ) :
    (twos n N s).testBit k = if k < n then N.testBit k else s := by
  cases s with
  | false =>
    have e : twos n N false = (N : ℤ) := by simp [twos]
    rw [e]
    show N.testBit k = _
    split
    · rfl
    · rename_i hk
      exact Nat.testBit_lt_two_pow (hN.trans_le (Nat.pow_le_pow_right Nat.two_pos (by omega)))
  | true =>
    have e : twos n N true = Int.negSucc (2 ^ n - (N + 1)) := by
      have : ((2 ^ n : ℕ) : ℤ) = 2 ^ n := by push_cast; rfl
      rw [twos, if_pos rfl, ← this]
      omega
    rw [e]
    show (!(2 ^ n - (N + 1)).testBit k) = _
    rw [Nat.testBit_two_pow_sub_succ hN]
    by_cases hk : k < n <;> simp [hk]

theorem exists_testBit_eq_sign (z : ℤ) : ∃ m, ∀ k, m ≤ k → z.testBit k = decide (z < 0) := by
  cases z with
  | ofNat n =>
    refine ⟨n, fun k hk => ?_⟩
    show n.testBit k = _
    rw [Nat.testBit_lt_two_pow (hk.trans_lt Nat.lt_two_pow_self)]
    exact (decide_eq_false (Int.not_lt.mpr (Int.natCast_nonneg n))).symm
  | negSucc n =>
    refine ⟨n, fun k hk => ?_⟩
    show (!n.testBit k) = _
    rw [Nat.testBit_lt_two_pow (hk.trans_lt Nat.lt_two_pow_self)]
    exact (decide_eq_true (Int.negSucc_lt_zero n)).symm

theorem int_eq_of_testBit_eq {a b : ℤ} (h : ∀ k, a.testBit k = b.testBit k) : a = b := by
  obtain ⟨m, hm⟩ := exists_testBit_eq_sign a
  obtain ⟨n, hn⟩ := exists_testBit_eq_sign b
  have hsign : decide (a < 0) = decide (b < 0) := by
    rw [← hm (max m n) (Nat.le_max_left _ _), ← hn (max m n) (Nat.le_max_right _ _), h]
  cases a with
  | ofNat x =>
    cases b with
    | ofNat y => exact congrArg Int.ofNat (Nat.eq_of_testBit_eq h)
    | negSucc y =>
      rw [decide_eq_decide] at hsign
      exact absurd (hsign.mpr (Int.negSucc_lt_zero y)) (Int.not_lt.mpr (Int.natCast_nonneg x))
  | negSucc x =>
    cases b with
    | ofNat y =>
      rw [decide_eq_decide] at hsign
      exact absurd (hsign.mp (Int.negSucc_lt_zero x)) (Int.not_lt.mpr (Int.natCast_nonneg y))
    | negSucc y =>
      refine congrArg Int.negSucc (Nat.eq_of_testBit_eq fun k => ?_)
      exact Bool.not_inj (h k)

theorem and_shift_ne_zero {w : ℕ} (x : BitVec w) (i : ℕ) :
    (x &&& 1#w <<< i ≠ 0) ↔ x.getLsbD i = true := by
  have h := BitVec.and_twoPow x i
  rw [BitVec.twoPow] at h
  rw [h]
  split
  · rename_i hx
    have hi : i < w := by
      by_contra hge
      rw [BitVec.getLsbD_of_ge x i (by omega)] at hx
      cases hx
    refine ⟨fun _ => hx, fun _ hz => ?_⟩
    have hbit := congrArg (fun y => BitVec.getLsbD y i) hz
    rw [← BitVec.twoPow] at hbit
    simp [hi] at hbit
  · rename_i hx
    exact ⟨fun hne => absurd rfl hne, fun hx' => absurd hx' hx⟩

theorem and_not_mask {w : ℕ} (x : BitVec w) (n : ℕ) :
    x &&& ~~~(BitVec.allOnes w <<< n) = (x.setWidth n).setWidth w := by
  ext i hi
  by_cases hin : i < n
  · simp [hi, hin]
  · simp [hi, hin]

/-- A word cut to its low `n` bits, the highest of them repeated. -/
theorem signExtend_eq_mask {w : ℕ} (x : BitVec w) {n : ℕ} (hn : 0 < n) :
    (if x.getLsbD (n - 1) = true then x ||| BitVec.allOnes w <<< n
      else x &&& ~~~(BitVec.allOnes w <<< n)) = (x.setWidth n).signExtend w := by
  have hmsb : (x.setWidth n).msb = x.getLsbD (n - 1) := by
    rw [BitVec.msb_setWidth, decide_eq_true hn, Bool.true_and]
  split
  · rename_i hx
    ext i hi
    rw [BitVec.getElem_signExtend, hmsb, hx]
    by_cases hin : i < n
    · simp [hi, hin]
    · simp [hin]
  · rename_i hx
    rw [and_not_mask, BitVec.signExtend_eq_setWidth_of_msb_false]
    rw [hmsb]
    exact Bool.not_eq_true _ ▸ hx

end SourceLibs
