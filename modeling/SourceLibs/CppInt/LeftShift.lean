import SourceLibs.CppInt.Shift
import SourceLibs.Support.PowersOfTwo

/-!
# CppInt — left shifts

The three algorithms of `eval_left_shift`, each as a multiplication by a power of two modulo what the
storage holds.

* `leftShiftLimb_spec`, `leftShiftGeneric_spec`, `leftShiftByte_spec`, together `leftShift_spec`.
* `misplaced`: `left_shift_generic` is one limb off where an overflowing top limb meets a full
  storage.
-/

namespace SourceLibs.CppInt
open Nat Function BitVec InPlace PowersOfTwo Words

variable {w : ℕ}

/-! ### Limbs moved up -/

section Bits
variable [NeZero w]

/-- Limb `j` of a number moved up by `d` limbs and `t` bits. -/
def shiftedLimb (p : ℕ → BitVec w) (m d t j : ℕ) : BitVec w :=
  (if d ≤ j ∧ j < d + m then p (j - d) <<< t else 0) |||
    (if d < j ∧ j ≤ d + m then p (j - d - 1) >>> (w - t) else 0)

theorem bitAt_shiftedLimb (p : ℕ → BitVec w) (m d : ℕ) {t : ℕ} (ht : t < w) (k : ℕ) :
    bitAt (shiftedLimb p m d t) k =
      (decide (w * d + t ≤ k ∧ k < w * d + t + w * m) && bitAt p (k - (w * d + t))) := by
  obtain ⟨j, r, hr, rfl⟩ : ∃ j r, r < w ∧ k = w * j + r :=
    ⟨k / w, k % w, mod_lt _ (NeZero.pos w), (div_add_mod k w).symm⟩
  rw [bitAt_mul_add hr, shiftedLimb, getLsbD_or]
  have hmul : ∀ {a b : ℕ}, a ≤ b → w * a ≤ w * b := fun h => Nat.mul_le_mul_left w h
  have hzero : (0 : BitVec w).getLsbD r = false := getLsbD_zero
  rcases Nat.lt_or_ge r t with hlt | hge
  · -- the bit comes from the limb below
    have hfirst : (if d ≤ j ∧ j < d + m then p (j - d) <<< t else 0).getLsbD r = false := by
      split
      · simp [hlt]
      · exact hzero
    rw [hfirst, Bool.false_or]
    by_cases hin : d < j ∧ j ≤ d + m
    · obtain ⟨i, rfl⟩ := Nat.exists_eq_add_of_lt hin.1
      have h₁ := hmul (show i ≤ m - 1 by omega)
      have h₂ : w * (m - 1) + w = w * m := by
        rw [← Nat.mul_succ, succ_eq_add_one, Nat.sub_add_cancel (by omega)]
      have e : w * (d + i + 1) + r = w * d + t + (w * i + (w - t + r)) := by
        rw [Nat.mul_add, Nat.mul_add, Nat.mul_one]
        omega
      rw [if_pos hin, show d + i + 1 - d - 1 = i by omega, getLsbD_ushiftRight, e,
        decide_eq_true (by omega), Bool.true_and, Nat.add_sub_cancel_left, bitAt_mul_add (by omega)]
    · rw [if_neg hin, hzero, decide_eq_false, Bool.false_and]
      rintro ⟨h₁, h₂⟩
      rcases Nat.lt_or_ge d j with hd | hd
      · have h₃ := hmul (show d + m + 1 ≤ j by omega)
        rw [Nat.mul_add, Nat.mul_add] at h₃
        omega
      · have h₃ := hmul hd
        omega
  · have hsecond : (if d < j ∧ j ≤ d + m then p (j - d - 1) >>> (w - t) else 0).getLsbD r = false := by
      split
      · rw [getLsbD_ushiftRight]
        exact getLsbD_of_ge _ _ (by omega)
      · exact hzero
    rw [hsecond, Bool.or_false]
    by_cases hin : d ≤ j ∧ j < d + m
    · obtain ⟨i, rfl⟩ := Nat.exists_eq_add_of_le hin.1
      have h₁ := hmul (show i + 1 ≤ m by omega)
      rw [Nat.mul_succ] at h₁
      have e : w * (d + i) + r = w * d + t + (w * i + (r - t)) := by
        rw [Nat.mul_add]
        omega
      rw [if_pos hin, Nat.add_sub_cancel_left, getLsbD_shiftLeft, e,
        decide_eq_true (show w * d + t ≤ w * d + t + (w * i + (r - t)) ∧
          w * d + t + (w * i + (r - t)) < w * d + t + w * m by omega),
        Bool.true_and, Nat.add_sub_cancel_left, bitAt_mul_add (by omega)]
      simp [hr, Nat.not_lt.mpr hge]
    · rw [if_neg hin, hzero, decide_eq_false, Bool.false_and]
      rintro ⟨h₁, h₂⟩
      rcases Nat.lt_or_ge j d with hd | hd
      · have h₃ := hmul (show j + 1 ≤ d by omega)
        rw [Nat.mul_succ] at h₃
        omega
      · have h₃ := hmul (show d + m ≤ j by omega)
        rw [Nat.mul_add] at h₃
        omega

theorem natOf_shiftedLimb {p q : ℕ → BitVec w} {m n d t : ℕ} (ht : t < w)
    (h : ∀ j < n, q j = shiftedLimb p m d t j) :
    natOf q n = natOf p m * 2 ^ (w * d + t) % 2 ^ (w * n) := by
  refine natOf_shiftLeft fun k hk => ?_
  rw [← bitAt_shiftedLimb p m d ht, bitAt, h _ (Nat.div_lt_of_lt_mul hk)]
  rfl

end Bits

/-! ### The limb count of a left shift -/

/-- A shift inside a limb needs one limb more where the top limb overflows. -/
def extraLimbs (x : CppInt w) (t : ℕ) : ℕ := if topOverflows x t then 1 else 0

theorem extraLimbs_le (x : CppInt w) (t : ℕ) : extraLimbs x t ≤ 1 := by
  rw [extraLimbs]
  split <;> omega

theorem shiftedSize_eq (x : CppInt w) (offset t : ℕ) :
    shiftedSize x offset t = uint (x.size + extraLimbs x t + offset) := by
  rw [shiftedSize, extraLimbs]
  split <;> rfl

theorem topOverflows_iff {x : CppInt w} {t : ℕ} (ht : t < w) :
    topOverflows x t = true ↔ 2 ^ w ≤ (x.limbs (x.size - 1)).toNat * 2 ^ t := by
  have hlt := (x.limbs (x.size - 1)).isLt
  rw [topOverflows, Bool.and_eq_true, decide_eq_true_eq, bne_iff_ne, ne_eq, ne_eq, ← toNat_eq_zero,
    toNat_ushiftRight, Nat.shiftRight_eq_div_pow, div_eq_zero_iff_lt (Nat.two_pow_pos _)]
  have hpow : 2 ^ (w - t) * 2 ^ t = 2 ^ w := by rw [← pow_add, Nat.sub_add_cancel ht.le]
  constructor
  · rintro ⟨-, h⟩
    rw [← hpow]
    exact Nat.mul_le_mul_right _ (Nat.not_lt.mp h)
  · intro h
    refine ⟨?_, fun hlt' => ?_⟩
    · rintro rfl
      omega
    · have := Nat.mul_lt_mul_of_pos_right hlt' (Nat.two_pow_pos t)
      omega

theorem mag_shift_lt {x : CppInt w} (hx : 0 < x.size) {t : ℕ} (ht : t < w) :
    x.mag * 2 ^ t < 2 ^ (w * (x.size + extraLimbs x t)) := by
  rw [pow_mul, extraLimbs]
  split
  · rw [pow_succ]
    exact Nat.mul_lt_mul_of_lt_of_le x.mag_lt (Nat.pow_le_pow_right Nat.two_pos ht.le) (Nat.two_pow_pos w)
  · rename_i h
    rw [topOverflows_iff ht, Nat.not_le] at h
    have hlow := natOf_lt x.limbs (x.size - 1)
    have htop := natOf_succ x.limbs (x.size - 1)
    rw [Nat.sub_add_cancel hx] at htop
    have hpow : 2 ^ (w - t) * 2 ^ t = 2 ^ w := by rw [← pow_add, Nat.sub_add_cancel ht.le]
    rw [← hpow] at h
    have hT := Nat.lt_of_mul_lt_mul_right h
    generalize (x.limbs (x.size - 1)).toNat = T at hT htop
    calc x.mag * 2 ^ t < (T + 1) * (2 ^ w) ^ (x.size - 1) * 2 ^ t := by
          refine Nat.mul_lt_mul_of_pos_right ?_ (Nat.two_pow_pos t)
          rw [mag, htop, Nat.succ_mul]
          omega
      _ ≤ 2 ^ (w - t) * (2 ^ w) ^ (x.size - 1) * 2 ^ t :=
          Nat.mul_le_mul_right _ (Nat.mul_le_mul_right _ hT)
      _ = (2 ^ w) ^ (x.size - 1) * 2 ^ w := by
          rw [Nat.mul_right_comm, hpow, Nat.mul_comm]
      _ = (2 ^ w) ^ (x.size + 0) := by
          rw [← pow_succ, Nat.sub_add_cancel hx, Nat.add_zero]

theorem le_mag_shift {x : CppInt w} (hx : x.Trimmed) (h₀ : x.mag ≠ 0) {t : ℕ} (ht : t < w) :
    2 ^ (w * (x.size - 1 + extraLimbs x t)) ≤ x.mag * 2 ^ t := by
  have hle := hx.pow_le_of_ne_zero h₀
  rw [pow_mul, extraLimbs]
  split
  · rename_i h
    have htop := natOf_succ x.limbs (x.size - 1)
    rw [Nat.sub_add_cancel hx.1] at htop
    rw [topOverflows_iff ht] at h
    calc (2 ^ w) ^ (x.size - 1 + 1) = 2 ^ w * (2 ^ w) ^ (x.size - 1) := by rw [pow_succ, Nat.mul_comm]
      _ ≤ (x.limbs (x.size - 1)).toNat * 2 ^ t * (2 ^ w) ^ (x.size - 1) := Nat.mul_le_mul_right _ h
      _ = (x.limbs (x.size - 1)).toNat * (2 ^ w) ^ (x.size - 1) * 2 ^ t := Nat.mul_right_comm _ _ _
      _ ≤ x.mag * 2 ^ t := Nat.mul_le_mul_right _ (by rw [mag, htop]; exact Nat.le_add_left _ _)
  · rw [Nat.add_zero]
    exact hle.trans (Nat.le_mul_of_pos_right _ (Nat.two_pow_pos t))

/-- What is left of a product when it is cut to the limbs of the guess, or to fewer because the
storage has no more. -/
theorem cut_to_storage {x : CppInt w} (hx : 0 < x.size) {t d cap : ℕ} (ht : t < w) :
    x.mag * 2 ^ (w * d + t) % 2 ^ (w * min (x.size + extraLimbs x t + d) cap) =
      x.mag * 2 ^ (w * d + t) % 2 ^ (w * cap) := by
  rcases Nat.le_total cap (x.size + extraLimbs x t + d) with h | h
  · rw [Nat.min_eq_right h]
  · have hlt : x.mag * 2 ^ (w * d + t) < 2 ^ (w * (x.size + extraLimbs x t + d)) := by
      rw [pow_add, Nat.mul_left_comm, Nat.mul_add, pow_add, Nat.mul_comm (2 ^ _) (2 ^ (w * d))]
      exact Nat.mul_lt_mul_of_pos_left (mag_shift_lt hx ht) (Nat.two_pow_pos _)
    rw [Nat.min_eq_left h, mod_eq_of_lt hlt, mod_eq_of_lt (hlt.trans_le
      (Nat.pow_le_pow_right Nat.two_pos (Nat.mul_le_mul_left w h)))]

/-- The guess is exact, or it wrapped and the offset exceeds it and the storage. -/
theorem shiftedSize_cases {x : CppInt w} {d t cap : ℕ} (hcap : x.size ≤ cap) (hmax : 2 * cap < 2 ^ 32) :
    (x.size + extraLimbs x t + d < 2 ^ 32 ∧
        shiftedSize x d t = x.size + extraLimbs x t + d) ∨
      (shiftedSize x d t < d ∧ cap ≤ d) := by
  have hle := extraLimbs_le x t
  rw [shiftedSize_eq, uint]
  rcases Nat.lt_or_ge (x.size + extraLimbs x t + d) (2 ^ 32) with h | h
  · exact Or.inl ⟨h, mod_eq_of_lt h⟩
  · refine Or.inr ⟨?_, by omega⟩
    omega

/-! ### Left shifts -/

/-- `y` is `x` times `2 ^ e`, as far as the storage holds it; a zero may have lost its sign. -/
structure ShiftedTo (cap : ℕ) (x y : CppInt w) (e : ℕ) : Prop where
  size_pos : 0 < y.size
  size_le : y.size ≤ cap
  sign_eq : y.sign = x.sign ∨ y.mag = 0 ∧ y.sign = false
  mag_eq : y.mag = x.mag * 2 ^ e % 2 ^ (w * cap)

section LeftShift
variable {cap : ℕ} {x : CppInt w} {p : ℕ → BitVec w}

theorem ShiftedTo.of_zero {e : ℕ} (hx : x.Trimmed) (hcap : x.size ≤ cap) (h₀ : x.mag = 0) :
    ShiftedTo cap x x e :=
  ⟨hx.1, hcap, Or.inl rfl, by rw [h₀, Nat.zero_mul, zero_mod]⟩

theorem ShiftedTo.past {e : ℕ} (y : CppInt w) (hcap : 0 < cap) (h : w * cap ≤ e) :
    ShiftedTo cap x (y.assignLimb 0) e := by
  have hm : (y.assignLimb 0).mag = 0 := (y.assignLimb_spec 0).mag_eq
  exact ⟨by simp, by rwa [size_assignLimb], Or.inr ⟨hm, rfl⟩, by rw [hm, shift_past h]⟩

theorem ShiftedTo.of_limbs {d t : ℕ} (hx : 0 < x.size) (hcap : x.size ≤ cap) (ht : t < w)
    {q : ℕ → BitVec w} {n : ℕ} (hn : n = min (x.size + extraLimbs x t + d) cap)
    (hq : natOf q n = x.mag * 2 ^ (w * d + t) % 2 ^ (w * n)) :
    ShiftedTo cap x ((x.setSize n).setLimbs q) (w * d + t) := by
  subst hn
  refine ⟨by rw [size_setLimbs, size_setSize]; omega, Nat.min_le_right _ _, Or.inl rfl, ?_⟩
  rw [mag, size_setLimbs, size_setSize, limbs_setLimbs, hq, cut_to_storage hx ht]

theorem extraLimbs_zero (x : CppInt w) : extraLimbs x 0 = 0 := by
  simp [extraLimbs, topOverflows]

/-- **`left_shift_limb`** for whole limbs. -/
theorem leftShiftLimb_spec [NeZero w] (hx : x.Trimmed) (hcap : x.size ≤ cap) (hmax : 2 * cap < 2 ^ 32)
    {s : ℕ} (hs : s % w = 0) :
    ShiftedTo cap x (leftShiftLimb cap x s) (w * limbCast w (s / w) + 0) := by
  have hpos := hx.1
  unfold leftShiftLimb
  rw [hs]
  generalize limbCast w (s / w) = d
  dsimp only
  split
  · rename_i h₀
    exact .of_zero hx hcap (hx.mag_eq_zero.mpr h₀)
  rcases shiftedSize_cases (t := 0) (d := d) hcap hmax with ⟨-, hrs⟩ | ⟨hlt, hge⟩
  · rw [extraLimbs_zero, Nat.add_zero] at hrs
    rw [hrs, if_neg (by omega)]
    refine ShiftedTo.of_limbs (n := min (x.size + d) cap) hpos hcap (NeZero.pos w)
      (by rw [extraLimbs_zero, Nat.add_zero]) (natOf_shiftedLimb (NeZero.pos w) fun j hj => ?_)
    have hsize : (x.grow cap (x.size + d)).size = min (x.size + d) cap := rfl
    have hlimbs : (x.grow cap (x.size + d)).limbs = x.limbs := rfl
    rw [hsize, hlimbs]
    generalize hi : x.size + d - min (x.size + d) cap = i
    have hmoved := writeDown_eq (g := fun (pr : ℕ → BitVec w) i => pr (x.size - 1 - i))
      (m := x.size + d) (x.size - i) i x.limbs (by omega) fun q k _ hk hq => hq _ (by omega)
    rw [writeDown_eq _ _ _ (by omega) fun _ _ _ _ _ => rfl, hmoved]
    have hzero : ∀ v : BitVec w, v >>> (w - 0) = 0 := fun v =>
      ushiftRight_eq_zero (Nat.le_of_eq (Nat.sub_zero w).symm)
    rw [shiftedLimb, hzero, ite_self]
    by_cases hd : d ≤ j
    · rw [if_neg (by omega), if_pos (by omega), if_pos (by omega), BitVec.shiftLeft_zero,
        show x.size - 1 - (x.size + d - 1 - j) = j - d by omega]
      exact BitVec.or_zero.symm
    · rw [if_pos (by omega), if_neg (by omega)]
      exact BitVec.or_zero.symm
  · rw [if_pos hlt]
    exact .past _ (by omega) (by rw [Nat.add_zero]; exact Nat.mul_le_mul_left w hge)

/-- What a round of `left_shift_generic` writes, the last rounds included. -/
def genericLimb (ors shift : ℕ) (p : ℕ → BitVec w) (i : ℕ) : BitVec w :=
  (if i < ors then p (ors - 1 - i) <<< shift else 0) |||
    (if i + 1 < ors then p (ors - 2 - i) >>> (w - shift) else 0)

theorem leftShiftLoops_eq {ors rs i : ℕ} (h : ors ≤ rs) (hi : i ≤ rs) (shift : ℕ) (p : ℕ → BitVec w) :
    leftShiftLoops ors rs shift i p = writeDown (genericLimb ors shift) rs (rs - i) i p := by
  have hzeros : ∀ {k : ℕ} (n : ℕ) (q : ℕ → BitVec w), ors ≤ k →
      writeDown (fun _ _ => 0) rs n k q = writeDown (genericLimb ors shift) rs n k q := fun n q hk =>
    writeDown_congr q fun p' l hl _ => by
      rw [genericLimb, if_neg (by omega), if_neg (by omega)]
      exact BitVec.or_zero.symm
  have hfull : ∀ q, writeDown (fun (pr : ℕ → BitVec w) i =>
      pr (ors - 1 - i) <<< shift ||| pr (ors - 2 - i) >>> (w - shift)) rs (ors - 1 - i) i q =
        writeDown (genericLimb ors shift) rs (ors - 1 - i) i q := fun q =>
    writeDown_congr q fun p' l hl hl' => by
      rw [genericLimb, if_pos (by omega), if_pos (by omega)]
  rw [leftShiftLoops, hfull]
  rcases Nat.lt_or_ge i ors with hlt | hge
  · -- all limbs but the lowest, the lowest, zeros
    have hone : ∀ q : ℕ → BitVec w, update q (rs - 1 - (ors - 1))
        (q (ors - 1 - (ors - 1)) <<< shift) = writeDown (genericLimb ors shift) rs 1 (ors - 1) q := by
      intro q
      rw [writeDown, writeDown, genericLimb, if_pos (by omega), if_neg (by omega)]
      exact congrArg _ BitVec.or_zero.symm
    rw [Nat.max_eq_right (by omega), if_pos (by omega)]
    dsimp only
    rw [hone, hzeros _ _ (by omega),
      show rs - i = ors - 1 - i + (1 + (rs - (ors - 1 + 1))) by omega,
      writeDown_add _ _ (ors - 1 - i), writeDown_add _ _ 1, show i + (ors - 1 - i) = ors - 1 by omega]
  · rw [Nat.max_eq_left (by omega), if_neg (by omega)]
    dsimp only
    rw [hzeros _ _ hge, show ors - 1 - i = 0 by omega]
    rfl

theorem leftShiftLoops_limb {ors rs i : ℕ} (h : ors ≤ rs) (hi : i ≤ rs) (shift : ℕ)
    (p : ℕ → BitVec w) (j : ℕ) :
    leftShiftLoops ors rs shift i p j =
      if j + i < rs then shiftedLimb p ors (rs - ors) shift j else p j := by
  rw [leftShiftLoops_eq h hi, writeDown_eq _ _ _ (by omega) fun q k _ hk hq => by
    rw [genericLimb, genericLimb]
    congr 1
    · split
      · rw [hq _ (by omega)]
      · rfl
    · split
      · rw [hq _ (by omega)]
      · rfl]
  by_cases hj : j + i < rs
  · rw [if_pos (by omega), if_pos hj, genericLimb, shiftedLimb]
    congr 1
    · by_cases hd : rs - ors ≤ j
      · rw [if_pos (by omega), if_pos (by omega), show ors - 1 - (rs - 1 - j) = j - (rs - ors) by omega]
      · rw [if_neg (by omega), if_neg (by omega)]
    · by_cases hd : rs - ors < j
      · rw [if_pos (by omega), if_pos (by omega),
          show ors - 2 - (rs - 1 - j) = j - (rs - ors) - 1 by omega]
      · rw [if_neg (by omega), if_neg (by omega)]
  · rw [if_neg (by omega), if_neg hj]

/-- The limbs where nothing is cut off, the top limb overflowing. -/
theorem leftShiftLoops_extra {ors d t : ℕ} (hpos : 0 < ors) {j : ℕ} (hj : j < ors + 1 + d) :
    leftShiftLoops ors (ors + 1 + d - 1) t 0
        (update p (ors + 1 + d - 1 - 0) (p (ors - 1 - 0) >>> (w - t))) j =
      shiftedLimb p ors d t j := by
  rw [leftShiftLoops_limb (by omega) (by omega)]
  split
  · rw [shiftedLimb, shiftedLimb, show ors + 1 + d - 1 - ors = d by omega]
    congr 1
    · split
      · rw [update_of_ne (by omega)]
      · rfl
    · split
      · rw [update_of_ne (by omega)]
      · rfl
  · obtain rfl : j = ors + d := by omega
    rw [show ors + 1 + d - 1 - 0 = ors + d by omega, update_self, shiftedLimb,
      if_neg (by omega), if_pos (by omega), show ors + d - d - 1 = ors - 1 - 0 by omega]
    exact BitVec.zero_or.symm

/-- The limbs where nothing is cut off and the top limb does not overflow. -/
theorem leftShiftLoops_exact {ors d t : ℕ} (hpos : 0 < ors) {j : ℕ} (hj : j < ors + d) :
    leftShiftLoops ors (ors + d) t (0 + 1) (update p (ors + d - 1 - 0)
        (if 1 < ors then p (ors - 1 - 0) <<< t ||| p (ors - 2 - 0) >>> (w - t)
          else p (ors - 1 - 0) <<< t)) j =
      shiftedLimb p ors d t j := by
  have hfirst : (if 1 < ors then p (ors - 1 - 0) <<< t ||| p (ors - 2 - 0) >>> (w - t)
      else p (ors - 1 - 0) <<< t) = genericLimb ors t p 0 := by
    rw [genericLimb, if_pos hpos]
    split
    · rfl
    · exact BitVec.or_zero.symm
  have hone : leftShiftLoops ors (ors + d) t (0 + 1)
      (update p (ors + d - 1 - 0) (genericLimb ors t p 0)) = leftShiftLoops ors (ors + d) t 0 p := by
    rw [leftShiftLoops_eq (by omega) (by omega), leftShiftLoops_eq (by omega) (by omega),
      show ors + d - 0 = ors + d - (0 + 1) + 1 by omega]
    rfl
  rw [hfirst, hone, leftShiftLoops_limb (by omega) (by omega), if_pos (by omega), Nat.add_sub_cancel_left]

/-- The limbs added to the offset where an overflowing top limb meets a full storage. -/
def misplaced (cap : ℕ) (x : CppInt w) (s : ℕ) : ℕ :=
  if topOverflows x (s % w) ∧ cap ≤ x.size + limbCast w (s / w) then 1 else 0

/-- **`left_shift_generic`**: where the top limb overflows and the storage is full, every limb lands
one position too high. -/
theorem leftShiftGeneric_spec [NeZero w] (hx : x.Trimmed) (hcap : x.size ≤ cap) (hmax : 2 * cap < 2 ^ 32)
    (s : ℕ) :
    ShiftedTo cap x (leftShiftGeneric cap x s)
      (w * (limbCast w (s / w) + misplaced cap x s) + s % w) := by
  have hpos := hx.1
  have ht := mod_lt s (NeZero.pos w)
  unfold leftShiftGeneric misplaced
  generalize limbCast w (s / w) = d
  generalize s % w = t at ht
  dsimp only
  split
  · rename_i h₀
    exact .of_zero hx hcap (hx.mag_eq_zero.mpr h₀)
  rcases shiftedSize_cases (x := x) (t := t) (d := d) hcap hmax with ⟨-, hrs⟩ | ⟨hlt, hge⟩
  · rw [hrs, if_neg (by omega)]
    have hsize : (x.grow cap (x.size + extraLimbs x t + d)).size = min (x.size + extraLimbs x t + d) cap :=
      rfl
    rw [hsize]
    have hlimbs : (x.grow cap (x.size + extraLimbs x t + d)).limbs = x.limbs := rfl
    rw [hlimbs]
    by_cases htrunc : cap < x.size + extraLimbs x t + d
    · -- cut: places count down from the guess, one too high where the top limb overflows
      rw [if_neg (by omega)]
      have hd : (if topOverflows x t = true ∧ cap ≤ x.size + d then 1 else 0) = extraLimbs x t := by
        rw [extraLimbs] at htrunc ⊢
        split at htrunc
        · rename_i hov
          rw [if_pos ⟨hov, by omega⟩, if_pos hov]
        · rename_i hov
          rw [if_neg fun h => hov h.1, if_neg hov]
      rw [hd]
      refine ShiftedTo.of_limbs hpos hcap ht (by omega) (natOf_shiftedLimb ht fun j hj => ?_)
      rw [leftShiftLoops_limb (by omega) (by omega), if_pos (by omega)]
      congr 1
      omega
    · rw [if_pos (by omega), show min (x.size + extraLimbs x t + d) cap =
        x.size + extraLimbs x t + d by omega,
        Nat.sub_self]
      by_cases hov : topOverflows x t = true
      · -- the overflow has a limb of its own
        have hx1 : extraLimbs x t = 1 := if_pos hov
        rw [hx1] at htrunc ⊢
        rw [if_pos (show x.size + d < x.size + 1 + d by omega),
          if_neg (show ¬ (topOverflows x t = true ∧ cap ≤ x.size + d) by omega)]
        exact ShiftedTo.of_limbs hpos hcap ht (by omega)
          (natOf_shiftedLimb ht fun j hj => leftShiftLoops_extra hpos (by omega))
      · have hx0 : extraLimbs x t = 0 := if_neg hov
        rw [hx0, Nat.add_zero] at htrunc ⊢
        rw [if_neg (show ¬ x.size + d < x.size + d by omega),
          if_neg (show ¬ (topOverflows x t = true ∧ cap ≤ x.size + d) from fun h => hov h.1)]
        exact ShiftedTo.of_limbs hpos hcap ht (by omega)
          (natOf_shiftedLimb ht fun j hj => leftShiftLoops_exact hpos (by omega))
  · rw [if_pos hlt]
    refine .past _ (by omega) (le_add_right_of_le (Nat.mul_le_mul_left w (by omega)))

theorem bitAt_shiftedBytes [NeZero w] (h8 : 8 ∣ w) {p x : ℕ → BitVec w} {m n s : ℕ} (hs : s % 8 = 0)
    (hfit : s < w * n) (hlow : ∀ k < w * m, bitAt p k = bitAt x k)
    (hhigh : ∀ k < w * n, s + w * m ≤ k → bitAt p k = false) {k : ℕ} (hk : k < w * n) :
    bitAt (clearBytes (moveBytes p (s / 8) 0 (min (m * (w / 8)) (n * (w / 8) - s / 8))) 0 (s / 8)) k =
      (decide (s ≤ k ∧ k < s + w * m) && bitAt x (k - s)) := by
  have hbytes : ∀ i, 8 * (i * (w / 8)) = w * i := fun i => by
    rw [Nat.mul_left_comm, Nat.mul_div_cancel' h8, Nat.mul_comm]
  have hm := hbytes m
  have hn := hbytes n
  have h8s : 8 * (s / 8) = s := Nat.mul_div_cancel' (dvd_of_mod_eq_zero hs)
  rw [bitAt_clearBytes h8, bitAt_moveBytes h8, h8s]
  rcases Nat.lt_or_ge k s with hlt | hge
  · rw [if_pos (by omega), decide_eq_false (by omega), Bool.false_and]
  · rw [if_neg (by omega)]
    by_cases hin : k < s + w * m
    · rw [if_pos (by omega), decide_eq_true ⟨hge, hin⟩, Bool.true_and, Nat.mul_zero, Nat.add_zero]
      exact hlow _ (by omega)
    · rw [if_neg (by omega), decide_eq_false fun h => hin h.2, Bool.false_and]
      exact hhigh k hk (by omega)

theorem bitAt_topCleared_low [NeZero w] {m n k : ℕ} (hmn : m ≤ n) (hk : k < w * m) :
    bitAt (if n ≠ m then update p (n - 1) 0 else p) k = bitAt p k := by
  have hlt := Nat.div_lt_of_lt_mul hk
  rw [bitAt, bitAt]
  split
  · rw [update_of_ne (by omega)]
  · rfl

/-- The limb added for an overflow is the only one past the shifted limbs, and it is cleared. -/
theorem bitAt_topCleared_high {m n d k : ℕ} (hn : n ≤ m + 1 + d) (hk : k < w * n)
    (hle : d + m ≤ k / w) : bitAt (if n ≠ m then update p (n - 1) 0 else p) k = false := by
  have hlt := Nat.div_lt_of_lt_mul hk
  rw [bitAt, if_pos (by omega), show k / w = n - 1 by omega, update_self]
  exact getLsbD_zero

theorem shiftedBytes_spec (hw : LimbWidth w) (hx : x.Trimmed) (hcap : x.size ≤ cap) {s n : ℕ}
    (hs : s % 8 = 0) (hn : n = min (x.size + extraLimbs x (s % w) + s / w) cap) (hfit : s < w * n) :
    ShiftedTo cap x ((x.setSize n).setLimbs (clearBytes
      (moveBytes (if n ≠ x.size then update x.limbs (n - 1) 0 else x.limbs) (s / 8) 0
        (min (x.size * (w / 8)) (n * (w / 8) - s / 8))) 0 (s / 8))) s := by
  have := hw.neZero
  have hx1 := extraLimbs_le x (s % w)
  have hdm := div_add_mod s w
  have hmn : x.size ≤ n := hn ▸ le_min (le_add_right_of_le (Nat.le_add_right _ _)) hcap
  have hnm : n ≤ x.size + extraLimbs x (s % w) + s / w := hn ▸ Nat.min_le_left _ _
  have hto := ShiftedTo.of_limbs (x := x) (d := s / w) hx.1 hcap (mod_lt s (NeZero.pos w)) hn
    (natOf_shiftLeft fun k hk => by
      rw [hdm]
      refine bitAt_shiftedBytes hw.eight_dvd hs hfit (fun j hj => bitAt_topCleared_low hmn hj)
        (fun j hj hle => bitAt_topCleared_high (d := s / w) (by omega) hj ?_) hk
      rw [Nat.le_div_iff_mul_le (NeZero.pos w), Nat.mul_comm, Nat.mul_add]
      omega)
  rwa [hdm] at hto

/-- **`left_shift_byte`**, while the limb count does not wrap to zero. -/
theorem leftShiftByte_spec (hw : LimbWidth w) (hx : x.Trimmed) (hcap : x.size ≤ cap)
    (hmax : w * cap ≤ 2 ^ 32) {s : ℕ} (hs : s % 8 = 0) (hs' : s < 2 ^ 67)
    (hrs : x.mag ≠ 0 → shiftedSize x (limbCast w (s / w)) (s % w) ≠ 0) :
    ∃ y, leftShiftByte cap x s = some y ∧ ShiftedTo cap x y s := by
  have := hw.neZero
  have hpos := hx.1
  have hw32 := hw.le
  have hcap' : 2 * cap < 2 ^ 32 := by
    have := Nat.mul_le_mul_right cap hw32
    omega
  unfold leftShiftByte
  dsimp only
  split
  · rename_i h₀
    exact ⟨x, rfl, .of_zero hx hcap (hx.mag_eq_zero.mpr h₀)⟩
  rename_i h₀
  specialize hrs fun h => h₀ (hx.mag_eq_zero.mp h)
  have hgrow : ∀ n, (x.grow cap n).size = min n cap := fun _ => rfl
  have hbytes : ∀ n, 8 * (n * (w / 8)) = w * n := fun n => by
    rw [Nat.mul_left_comm, Nat.mul_div_cancel' hw.eight_dvd, Nat.mul_comm]
  rw [show sizeCast (s / 8) = s / 8 from mod_eq_of_lt (by omega), hgrow, if_neg (by omega)]
  rcases Nat.lt_or_ge s (w * cap) with hlt | hge
  · -- nothing is narrowed, and nothing wraps
    have hq : s / w < cap := Nat.div_lt_of_lt_mul hlt
    have ht := mod_lt s (NeZero.pos w)
    have hdm := div_add_mod s w
    have hx1 := extraLimbs_le x (s % w)
    rw [limbCast_of_lt hw (show s / w < 2 ^ 32 by omega)]
    obtain ⟨-, hrs⟩ := (shiftedSize_cases (x := x) (t := s % w) (d := s / w) hcap hcap').resolve_right
      (by omega)
    rw [hrs]
    generalize hn : min (x.size + extraLimbs x (s % w) + s / w) cap = n
    have hfit : s < w * n := by
      rcases Nat.le_total cap (x.size + extraLimbs x (s % w) + s / w) with h | h
      · rwa [← hn, Nat.min_eq_right h]
      · have := Nat.mul_le_mul_left w (show s / w + 1 ≤ n by omega)
        rw [Nat.mul_succ] at this
        omega
    have := hbytes n
    rw [if_neg (by omega)]
    refine ⟨_, rfl, ?_⟩
    have hto := shiftedBytes_spec hw hx hcap hs hn.symm hfit
    by_cases h : n ≠ x.size
    · simp only [if_pos h] at hto ⊢
      rw [← hn] at hto ⊢
      exact hto
    · simp only [if_neg h] at hto ⊢
      rw [← hn] at hto ⊢
      exact hto
  · -- past the storage
    have hn := hbytes (min (shiftedSize x (limbCast w (s / w)) (s % w)) cap)
    have hle := Nat.mul_le_mul_left w (Nat.min_le_right (shiftedSize x (limbCast w (s / w)) (s % w)) cap)
    rw [if_pos (by omega)]
    exact ⟨_, rfl, .past _ (by omega) hge⟩

/-- The power of two an algorithm multiplies by. -/
def leftExponent (cap : ℕ) (x : CppInt w) (s : ℕ) : ShiftStrategy → ℕ
  | .limb => w * limbCast w (s / w) + 0
  | .byte => s
  | .generic => w * (limbCast w (s / w) + misplaced cap x s) + s % w

/-- Shifting by bytes needs a limb to clear. -/
def HasLimb (x : CppInt w) (s : ℕ) : ShiftStrategy → Prop
  | .byte => x.mag ≠ 0 → shiftedSize x (limbCast w (s / w)) (s % w) ≠ 0
  | _ => True

/-- **Every left shift** multiplies by a power of two, as far as the storage holds it. -/
theorem leftShift_spec (hw : LimbWidth w) (hx : x.Trimmed) (hcap : x.size ≤ cap) (hmax : w * cap ≤ 2 ^ 32)
    {s : ℕ} (hs : s < 2 ^ 67) {st : ShiftStrategy} (hst : st.Applies w s) (hlimb : HasLimb x s st) :
    ∃ y, leftShift st cap x s = some y ∧ ShiftedTo cap x y (leftExponent cap x s st) := by
  have := hw.neZero
  have hcap' : 2 * cap < 2 ^ 32 := by
    have := Nat.mul_le_mul_right cap hw.le
    have := hx.1
    omega
  cases st with
  | limb => exact ⟨_, rfl, leftShiftLimb_spec hx hcap hcap' hst⟩
  | byte => exact leftShiftByte_spec hw hx hcap hmax hst hs hlimb
  | generic => exact ⟨_, rfl, leftShiftGeneric_spec hx hcap hcap' s⟩

end LeftShift

end SourceLibs.CppInt
