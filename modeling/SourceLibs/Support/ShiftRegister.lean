import Mathlib.Data.BitVec

/-!
# Support — the feedback shift register

A register of `n` bits that divides a stream of bits by a polynomial over the field of two
elements: a bit enters at the high end, the register shifts up by one, and the polynomial is added
when a one leaves.  The register is linear in its content and the stream together, and the stream
of its own bits clears it; so `k` bits at once are a shift by `k` and the register's answer, from
zero, to the stream added to its own high bits.

* `run_xor`: linearity.
* `run_getMsbD`: the register's own high bits only shift it.
* `run_eq_shiftLeft_xor`: `k` bits at once.
* `zeros_setWidth`: bits that enter at the high end are the same bits in the low end, followed by
  as many zeros as the register is wide.
-/

namespace SourceLibs.ShiftRegister
open BitVec

variable {n : ℕ} (poly rem : BitVec n)

/-- One bit enters. -/
def step (poly rem : BitVec n) (bit : Bool) : BitVec n :=
  let r := rem ^^^ (if bit then BitVec.twoPow n (n - 1) else 0)
  (r <<< 1) ^^^ (if r.msb then poly else 0)

/-- The first `k` bits of a stream enter. -/
def run (poly rem : BitVec n) (bits : ℕ → Bool) : ℕ → BitVec n
  | 0     => rem
  | k + 1 => step poly (run poly rem bits k) (bits k)

theorem run_succ_eq (bits : ℕ → Bool) (k : ℕ) :
    run poly rem bits (k + 1) = run poly (step poly rem (bits 0)) (fun j => bits (j + 1)) k := by
  induction k with
  | zero => rfl
  | succ k ih => rw [run, ih, run]

theorem run_congr {f g : ℕ → Bool} {k : ℕ} (h : ∀ j < k, f j = g j) :
    run poly rem f k = run poly rem g k := by
  induction k with
  | zero => rfl
  | succ k ih => rw [run, run, ih fun j hj => h j (by omega), h k (by omega)]

theorem ite_xor_ite (x y : Bool) (p : BitVec n) :
    (if (x ^^ y) = true then p else 0) =
      (if x = true then p else 0) ^^^ (if y = true then p else 0) := by
  cases x <;> cases y <;> simp

theorem step_xor (poly a b : BitVec n) (x y : Bool) :
    step poly (a ^^^ b) (x ^^ y) = step poly a x ^^^ step poly b y := by
  have hin : a ^^^ b ^^^ (if (x ^^ y) = true then twoPow n (n - 1) else 0) =
      (a ^^^ (if x = true then twoPow n (n - 1) else 0)) ^^^
        (b ^^^ (if y = true then twoPow n (n - 1) else 0)) := by
    rw [ite_xor_ite]
    ac_rfl
  simp only [step]
  rw [hin, msb_xor, ite_xor_ite, BitVec.shiftLeft_xor_distrib]
  ac_rfl

/-- **Linearity** of a run. -/
theorem run_xor (poly a b : BitVec n) (f g : ℕ → Bool) (k : ℕ) :
    run poly (a ^^^ b) (fun j => f j ^^ g j) k = run poly a f k ^^^ run poly b g k := by
  induction k with
  | zero => rfl
  | succ k ih => simp only [run, ih, step_xor]

/-- A bit equal to the one that leaves cancels it. -/
theorem step_msb (hn : 0 < n) (poly a : BitVec n) : step poly a a.msb = a <<< 1 := by
  have hhi : (twoPow n (n - 1)).msb = true := by
    rw [msb_eq_getLsbD_last, getLsbD_twoPow]
    simpa using Nat.sub_lt hn one_pos
  have hlost : twoPow n (n - 1) <<< 1 = 0 := by
    refine eq_of_getLsbD_eq fun i hi => ?_
    simp only [getLsbD_shiftLeft, getLsbD_twoPow, ofNat_eq_ofNat,
      getLsbD_zero]
    have : ¬ n - 1 = i - 1 ∨ i < 1 := by omega
    rcases this with h | h <;> simp [h]
  simp only [step]
  cases hm : a.msb with
  | false => simp [hm]
  | true => simp [hm, hhi, hlost, BitVec.shiftLeft_xor_distrib]

/-- **The register's own high bits** leave it as they come. -/
theorem run_getMsbD (hn : 0 < n) (poly a : BitVec n) (k : ℕ) :
    run poly a (fun j => a.getMsbD j) k = a <<< k := by
  induction k with
  | zero => rw [run, BitVec.shiftLeft_zero]
  | succ k ih =>
    have hmsb : a.getMsbD k = (a <<< k).msb := by
      rw [msb_shiftLeft]
    rw [run, ih, hmsb, step_msb hn, BitVec.shiftLeft_add]

/-- **`k` bits at once.** -/
theorem run_eq_shiftLeft_xor (hn : 0 < n) (poly a : BitVec n) (f : ℕ → Bool) (k : ℕ) :
    run poly a f k = a <<< k ^^^ run poly 0 (fun j => f j ^^ a.getMsbD j) k := by
  have hbits : f = fun j => a.getMsbD j ^^ (f j ^^ a.getMsbD j) := by
    funext j
    cases f j <;> cases a.getMsbD j <;> rfl
  have h := run_xor poly a 0 (fun j => a.getMsbD j) (fun j => f j ^^ a.getMsbD j) k
  rw [ofNat_eq_ofNat, BitVec.xor_zero, ← hbits, run_getMsbD hn] at h
  exact h

/-! ### Zeros -/

/-- The register after `k` zeros. -/
def zeros (poly rem : BitVec n) (k : ℕ) : BitVec n := run poly rem (fun _ => false) k

theorem zeros_add (j k : ℕ) : zeros poly rem (j + k) = zeros poly (zeros poly rem j) k := by
  induction k with
  | zero => rfl
  | succ k ih =>
    rw [← Nat.add_assoc, zeros, run, ← zeros, ih]
    rfl

theorem zeros_zeros (j k : ℕ) :
    zeros poly (zeros poly rem j) k = zeros poly (zeros poly rem k) j := by
  rw [← zeros_add, ← zeros_add, Nat.add_comm]

theorem zeros_xor (poly a b : BitVec n) (k : ℕ) :
    zeros poly (a ^^^ b) k = zeros poly a k ^^^ zeros poly b k :=
  run_xor poly a b (fun _ => false) (fun _ => false) k

theorem run_eq_zeros_xor (poly a : BitVec n) (f : ℕ → Bool) (k : ℕ) :
    run poly a f k = zeros poly a k ^^^ run poly 0 f k := by
  have h := run_xor poly a 0 (fun _ => false) f k
  simp only [ofNat_eq_ofNat, BitVec.xor_zero, Bool.false_xor] at h
  exact h

theorem zeros_of_getMsbD (hn : 0 < n) (poly a : BitVec n) {k : ℕ}
    (h : ∀ j < k, a.getMsbD j = false) : zeros poly a k = a <<< k := by
  rw [← run_getMsbD hn poly a k]
  exact run_congr _ _ fun j hj => (h j hj).symm

theorem zeros_zero (hn : 0 < n) (poly : BitVec n) (k : ℕ) : zeros poly 0 k = 0 := by
  rw [zeros_of_getMsbD hn poly 0 fun j _ => by simp]
  simp

theorem getMsbD_setWidth {m j : ℕ} (hm : m ≤ n) (x : BitVec m) :
    (x.setWidth n).getMsbD j = (decide (n - m ≤ j) && x.getMsbD (j - (n - m))) := by
  rw [getMsbD_eq_getLsbD, getMsbD_eq_getLsbD, getLsbD_setWidth]
  by_cases hj : j < n
  · by_cases hlow : n - m ≤ j
    · simp [hj, hlow, show n - 1 - j < n by omega, show j - (n - m) < m by omega,
        show m - 1 - (j - (n - m)) = n - 1 - j by omega]
    · simp [hlow, getLsbD_of_ge x (n - 1 - j) (by omega)]
  · simp [hj, show ¬ j - (n - m) < m by omega]

/-- **Low bits and zeros**: `m` bits from zero are those bits in the low end of the register,
followed by `n` zeros. -/
theorem zeros_setWidth {m : ℕ} (hn : 0 < n) (hm : m ≤ n) (poly : BitVec n) (x : BitVec m) :
    zeros poly (x.setWidth n) n = run poly 0 x.getMsbD m := by
  have hup : zeros poly (x.setWidth n) (n - m) = x.setWidth n <<< (n - m) :=
    zeros_of_getMsbD hn poly _ fun j hj => by
      rw [getMsbD_setWidth hm, decide_eq_false (by omega), Bool.false_and]
  have hout : x.setWidth n <<< (n - m) <<< m = 0 := by
    rw [← BitVec.shiftLeft_add, Nat.sub_add_cancel hm]
    exact shiftLeft_eq_zero (Nat.le_refl n)
  have hsplit : n = n - m + m := by omega
  calc zeros poly (x.setWidth n) n
      = zeros poly (zeros poly (x.setWidth n) (n - m)) m := by
        rw [← zeros_add, ← hsplit]
    _ = zeros poly (x.setWidth n <<< (n - m)) m := by rw [hup]
    _ = run poly 0 (fun j => false ^^ (x.setWidth n <<< (n - m)).getMsbD j) m := by
        rw [zeros, run_eq_shiftLeft_xor hn, hout]
        simp
    _ = run poly 0 x.getMsbD m := by
        refine run_congr _ _ fun j hj => ?_
        rw [Bool.false_xor, getMsbD_shiftLeft, getMsbD_setWidth hm,
          decide_eq_true (by omega), Bool.true_and, Nat.add_sub_cancel]

end SourceLibs.ShiftRegister
