import SourceLibs.CppInt.Shift

/-!
# CppInt — right shifts

The three algorithms of `eval_right_shift` divide by a power of two, provided the limb offset is not
narrowed; a zero limb on top is dropped.  A negative number is incremented first and decremented
afterwards, which rounds towards minus infinity; the increment of `-1` is a negative zero.

* `rightShiftLimb_spec`, `rightShiftGeneric_spec`, `rightShiftByte_spec`, together `rightShift_spec`.
* `evalRightShiftBy_spec`: the quotient rounded down.
-/

namespace SourceLibs.CppInt
open Nat Function BitVec InPlace Words

variable {w : ℕ}

/-! ### The number divided -/

/-- `y` is `x` divided by `2 ^ s`; a zero may have lost its sign. -/
structure ShiftedDown (x y : CppInt w) (s : ℕ) : Prop where
  size_pos : 0 < y.size
  mag_eq : y.mag = x.mag / 2 ^ s
  sign_eq : y.sign = x.sign ∨ y.mag = 0 ∧ y.sign = false

section RightShift
variable {x : CppInt w} {s : ℕ}

theorem div_eq_zero_of_size_le (hs : w * x.size ≤ s) : x.mag / 2 ^ s = 0 := by
  refine div_eq_of_lt (x.mag_lt.trans_le ?_)
  rw [← pow_mul]
  exact Nat.pow_le_pow_right Nat.two_pos hs

theorem ShiftedDown.zero (y : CppInt w) (h : x.mag / 2 ^ s = 0) : ShiftedDown x (y.assignLimb 0) s := by
  have hm : (y.assignLimb 0).mag = 0 := (y.assignLimb_spec 0).mag_eq
  exact ⟨by simp, by rw [hm, h], Or.inr ⟨hm, rfl⟩⟩

theorem trimmed_assignLimb (y : CppInt w) (v : BitVec w) : (y.assignLimb v).Trimmed :=
  ⟨by simp, Or.inl (size_assignLimb y v)⟩

theorem ShiftedDown.of_limbs {q : ℕ → BitVec w} {rs n : ℕ} (hq : natOf q rs = x.mag / 2 ^ s) (hn : 0 < n)
    (h : n = rs ∨ n + 1 = rs ∧ q n = 0) : ShiftedDown x ((x.setLimbs q).setSize n) s := by
  refine ⟨hn, ?_, Or.inl rfl⟩
  rw [mag, size_setSize, limbs_setSize, limbs_setLimbs, ← hq]
  rcases h with rfl | ⟨rfl, h₀⟩
  · rfl
  · rw [natOf_succ, h₀, toNat_eq_zero.mpr rfl, Nat.zero_mul, Nat.add_zero]

/-- A trimmed number shifted by fewer bits than its limbs needs all of them, or all but one. -/
theorem pow_le_shifted (hx : x.Trimmed) (hs : s / w + 1 < x.size) (hw : 0 < w) :
    (2 ^ w) ^ (x.size - s / w - 2) ≤ x.mag / 2 ^ s := by
  have hlt : s < w * (s / w + 1) := lt_mul_div_succ s hw
  generalize s / w = d at hs hlt
  have hle := hx.pow_le (by omega)
  rw [Nat.le_div_iff_mul_le (Nat.two_pow_pos s), ← pow_mul, ← pow_add]
  rw [← pow_mul] at hle
  refine (Nat.pow_le_pow_right Nat.two_pos ?_).trans hle
  rw [show x.size - 1 = x.size - d - 2 + (d + 1) by omega, Nat.mul_add]
  exact Nat.add_le_add_left hlt.le _

theorem shiftLimbs_eq (t d n : ℕ) : ∀ (i : ℕ) (p : ℕ → BitVec w) (j : ℕ),
    shiftLimbs t d n i p j =
      if i ≤ j ∧ j < i + n then p (j + d) >>> t ||| p (j + d + 1) <<< (w - t)
      else if j = i + n then p (j + d) >>> t else p j := by
  induction n with
  | zero =>
    intro i p j
    rw [shiftLimbs, if_neg (by omega)]
    by_cases hj : j = i
    · subst hj
      simp
    · simp [hj]
  | succ n ih =>
    intro i p j
    rw [shiftLimbs, ih]
    have hfar : ∀ k, i + 1 ≤ k → update p i
        (p (i + d) >>> t ||| p (i + d + 1) <<< (w - t)) k = p k := fun k hk =>
      update_of_ne (by omega) _ _
    by_cases h₁ : i + 1 ≤ j ∧ j < i + 1 + n
    · rw [if_pos h₁, if_pos (by omega), hfar (j + d) (by omega), hfar (j + d + 1) (by omega)]
    · rw [if_neg h₁]
      by_cases h₂ : j = i + 1 + n
      · rw [if_pos h₂, if_neg (by omega), if_pos (by omega), hfar (j + d) (by omega)]
      · rw [if_neg h₂]
        by_cases h₃ : j = i
        · subst h₃
          rw [update_self, if_pos (by omega)]
        · rw [update_of_ne h₃, if_neg (by omega), if_neg (by omega)]

section Bits
variable [NeZero w]

theorem natOf_shiftLimbs {d t : ℕ} (ht : t < w) (hd : d < x.size) (p : ℕ → BitVec w) :
    natOf (shiftLimbs t d (x.size - d - 1) 0 p) (x.size - d) = natOf p x.size / 2 ^ (w * d + t) := by
  have hn : w * x.size = w * (x.size - d) + w * d := by
    rw [← Nat.mul_add, Nat.sub_add_cancel hd.le]
  refine natOf_shiftRight (by omega) fun k hk => ?_
  obtain ⟨j, r, hr, rfl⟩ : ∃ j r, r < w ∧ k = w * j + r :=
    ⟨k / w, k % w, mod_lt _ (NeZero.pos w), (div_add_mod k w).symm⟩
  have hj : j < x.size - d := by
    have := Nat.div_lt_of_lt_mul hk
    rwa [mul_add_div (NeZero.pos w), div_eq_of_lt hr, Nat.add_zero] at this
  rw [bitAt_mul_add hr, shiftLimbs_eq, Nat.zero_add]
  rcases Nat.lt_or_ge (r + t) w with hlt | hge
  · -- the bit comes from the limb `d` above
    have hle := Nat.mul_le_mul_left w (show j + 1 ≤ x.size - d by omega)
    rw [Nat.mul_succ] at hle
    rw [show w * j + r + (w * d + t) = w * (j + d) + (r + t) by rw [Nat.mul_add]; omega,
      bitAt_mul_add hlt, decide_eq_true (by rw [Nat.mul_add]; omega), Bool.true_and]
    split
    · rw [getLsbD_or, getLsbD_ushiftRight, getLsbD_shiftLeft,
        decide_eq_true (show r < w - t by omega), Nat.add_comm t]
      simp
    · rw [if_pos (by omega), getLsbD_ushiftRight, Nat.add_comm t]
  · -- or from the one after it
    have hzero : (p (j + d)).getLsbD (t + r) = false := getLsbD_of_ge _ _ (by omega)
    rw [show w * j + r + (w * d + t) = w * (j + d + 1) + (r + t - w) by
      rw [Nat.mul_succ, Nat.mul_add]; omega, bitAt_mul_add (by omega)]
    by_cases hin : j + d + 1 < x.size
    · have hle := Nat.mul_le_mul_left w (show j + d + 1 + 1 ≤ x.size by omega)
      rw [Nat.mul_succ] at hle
      rw [if_pos (by omega), getLsbD_or, getLsbD_ushiftRight, hzero,
        getLsbD_shiftLeft, show r - (w - t) = r + t - w by omega,
        decide_eq_true (show w * (j + d + 1) + (r + t - w) < w * x.size by omega)]
      simp [hr, show ¬ r < w - t by omega]
    · obtain rfl : j = x.size - d - 1 := by omega
      rw [if_neg (by omega), if_pos rfl, getLsbD_ushiftRight, hzero,
        show x.size - d - 1 + d + 1 = x.size by omega, decide_eq_false (by omega), Bool.false_and]

theorem rightShiftGeneric_spec (hx : 0 < x.size) (hs : s / w < 2 ^ w) :
    ShiftedDown x (rightShiftGeneric x s) s ∧ (x.Trimmed → (rightShiftGeneric x s).Trimmed) := by
  have ht := mod_lt s (NeZero.pos w)
  have hdm := div_add_mod s w
  have hpow := pow_le_shifted (x := x) (s := s)
  rw [rightShiftGeneric, show limbCast w (s / w) = s / w from mod_eq_of_lt hs]
  generalize s / w = d at hdm hpow
  generalize s % w = t at ht hdm
  dsimp only
  split
  · rename_i hle
    have hpast := (Nat.mul_le_mul_left w hle).trans (show w * d ≤ s by omega)
    exact ⟨.zero _ (div_eq_zero_of_size_le hpast), fun _ => trimmed_assignLimb _ _⟩
  rename_i hlt
  rw [Nat.not_le] at hlt
  have hq := natOf_shiftLimbs ht hlt x.limbs
  rw [hdm] at hq
  have htop : shiftLimbs t d (x.size - d - 1) 0 x.limbs (x.size - d - 1) = x.limbs (x.size - 1) >>> t := by
    rw [shiftLimbs_eq, if_neg (by omega), if_pos (by omega), show x.size - d - 1 + d = x.size - 1 by omega]
  by_cases h₀ : x.limbs (x.size - 1) >>> t = 0
  · rw [if_pos h₀]
    split
    · rename_i hone
      refine ⟨.zero _ ?_, fun _ => trimmed_assignLimb _ _⟩
      rw [hone] at htop
      show natOf x.limbs x.size / 2 ^ s = 0
      rw [← hq, hone, show x.size - d = 1 by omega, natOf_one, htop, h₀]
      rfl
    · -- the top limb is shifted out, and `resize` drops it
      rename_i hone
      have hdown := ShiftedDown.of_limbs (n := x.size - d - 1) hq (by omega)
        (Or.inr ⟨by omega, htop.trans h₀⟩)
      refine ⟨hdown, fun hx => trimmed_of_pow_le hdown.size_pos (Or.inr ?_)⟩
      rw [hdown.mag_eq]
      exact hpow hx (by omega) (NeZero.pos w)
  · rw [if_neg h₀, if_neg (by omega)]
    have hdown := ShiftedDown.of_limbs (n := x.size - d) hq (by omega) (Or.inl rfl)
    refine ⟨hdown, fun _ => ⟨hdown.size_pos, Or.inr ?_⟩⟩
    show shiftLimbs t d (x.size - d - 1) 0 x.limbs (x.size - d - 1) ≠ 0
    rwa [htop]

/-- **`right_shift_limb`** for whole limbs. -/
theorem rightShiftLimb_spec (hx : 0 < x.size) (hs : s / w < 2 ^ w) (hs' : s % w = 0) :
    ShiftedDown x (rightShiftLimb x s) s ∧ (x.Trimmed → (rightShiftLimb x s).Trimmed) := by
  have hdm := div_add_mod s w
  rw [hs', Nat.add_zero] at hdm
  rw [rightShiftLimb, show limbCast w (s / w) = s / w from mod_eq_of_lt hs]
  generalize s / w = d at hdm
  dsimp only
  split
  · rename_i hle
    have hpast := (Nat.mul_le_mul_left w hle).trans hdm.le
    exact ⟨.zero _ (div_eq_zero_of_size_le hpast), fun _ => trimmed_assignLimb _ _⟩
  rename_i hlt
  rw [Nat.not_le] at hlt
  have hlimb : ∀ j < x.size - d, writeUp (fun (pr : ℕ → BitVec w) i => pr (i + d)) (x.size - d) 0 x.limbs j =
      x.limbs (j + d) := by
    intro j hj
    rw [writeUp_eq (g := fun pr i => pr (i + d)) _ _ _ fun q k _ hq => hq _ (Nat.le_add_right k d),
      if_pos (by omega)]
  have hn : w * x.size = w * (x.size - d) + w * d := by rw [← Nat.mul_add, Nat.sub_add_cancel hlt.le]
  have hq : natOf (writeUp (fun (pr : ℕ → BitVec w) i => pr (i + d)) (x.size - d) 0 x.limbs) (x.size - d) =
      x.mag / 2 ^ s :=
    natOf_shiftRight (by omega) fun k hk => by
      rw [bitAt, hlimb _ (Nat.div_lt_of_lt_mul hk), decide_eq_true (by omega), Bool.true_and, bitAt, ← hdm,
        add_mul_div_left _ _ (NeZero.pos w), add_mul_mod_self_left]
  have hdown := ShiftedDown.of_limbs (n := x.size - d) hq (by omega) (Or.inl rfl)
  refine ⟨hdown, fun hx => ⟨hdown.size_pos, ?_⟩⟩
  rcases hx.2 with h₁ | htop
  · exact Or.inl (show x.size - d = 1 by omega)
  · refine Or.inr (show writeUp _ _ _ _ (x.size - d - 1) ≠ 0 from ?_)
    rwa [hlimb _ (by omega), show x.size - d - 1 + d = x.size - 1 by omega]

omit [NeZero w] in
theorem getLsbD_mask {c r : ℕ} (hc : c < w) (hr : r < w) (v : BitVec w) :
    (v &&& ((1#w <<< c) - 1)).getLsbD r = (v.getLsbD r && decide (r < c)) := by
  have h : (lowMask w c).getLsbD r = decide (r < c) := getLsbD_lowMask hr
  rw [lowMask, if_neg (Nat.not_le.mpr hc)] at h
  rw [getLsbD_and, h]

/-- The bits a shift by part of a limb leaves in the top limb, above which bytes are masked off. -/
theorem natOf_maskedBytes {m : ℕ → BitVec w} {d t : ℕ} (ht₀ : t ≠ 0) (ht : t < w) (hd : d < x.size)
    (hbits : ∀ k, k + (w * d + t) < w * x.size → bitAt m k = bitAt x.limbs (k + (w * d + t))) :
    natOf (update m (x.size - d - 1) (m (x.size - d - 1) &&& ((1#w <<< (w - t)) - 1)))
      (x.size - d) = x.mag / 2 ^ (w * d + t) := by
  have hn : w * x.size = w * (x.size - d) + w * d := by rw [← Nat.mul_add, Nat.sub_add_cancel hd.le]
  refine natOf_shiftRight (by omega) fun k hk => ?_
  obtain ⟨j, r, hr, rfl⟩ : ∃ j r, r < w ∧ k = w * j + r :=
    ⟨k / w, k % w, mod_lt _ (NeZero.pos w), (div_add_mod k w).symm⟩
  have hj : j < x.size - d := by
    have := Nat.div_lt_of_lt_mul hk
    rwa [mul_add_div (NeZero.pos w), div_eq_of_lt hr, Nat.add_zero] at this
  have hle := Nat.mul_le_mul_left w (show j + 1 ≤ x.size - d by omega)
  rw [Nat.mul_succ] at hle
  rw [bitAt_mul_add hr]
  by_cases htop : j = x.size - d - 1
  · -- the bytes of the old top limb that `memmove` left behind are masked off
    have e : w * j + w = w * (x.size - d) := by rw [← Nat.mul_succ, htop]; congr 1; omega
    rw [htop, update_self, getLsbD_mask (by omega) hr, ← bitAt_mul_add hr, ← htop]
    by_cases hin : r < w - t
    · rw [hbits _ (by omega), decide_eq_true hin, decide_eq_true (by omega), Bool.and_comm]
    · rw [decide_eq_false hin, decide_eq_false (by omega), Bool.and_false, Bool.false_and]
  · have hle' := Nat.mul_le_mul_left w (show j + 2 ≤ x.size - d by omega)
    rw [Nat.mul_add] at hle'
    rw [update_of_ne htop, ← bitAt_mul_add hr, hbits _ (by omega), decide_eq_true (by omega),
      Bool.true_and]

omit [NeZero w] in
theorem maskedTop_spec {m : ℕ → BitVec w} {top : BitVec w} {rs : ℕ} (hrs : 0 < rs)
    (hq : natOf (update m (rs - 1) top) rs = x.mag / 2 ^ s) :
    ShiftedDown x (((x.setLimbs m).store (rs - 1) top).setSize
        (if top = 0 ∧ 1 < rs then rs - 1 else rs)) s ∧
      ((1 < rs → (2 ^ w) ^ (rs - 2) ≤ x.mag / 2 ^ s) → (((x.setLimbs m).store (rs - 1) top).setSize
        (if top = 0 ∧ 1 < rs then rs - 1 else rs)).Trimmed) := by
  by_cases hdrop : top = 0 ∧ 1 < rs
  · rw [if_pos hdrop]
    have hdown := ShiftedDown.of_limbs (n := rs - 1) hq (by omega)
      (Or.inr ⟨by omega, by rw [update_self]; exact hdrop.1⟩)
    refine ⟨hdown, fun hpow => trimmed_of_pow_le hdown.size_pos (Or.inr ?_)⟩
    exact (hpow hdrop.2).trans hdown.mag_eq.symm.le
  · rw [if_neg hdrop]
    have hdown := ShiftedDown.of_limbs (n := rs) hq hrs (Or.inl rfl)
    refine ⟨hdown, fun _ => ⟨hdown.size_pos, ?_⟩⟩
    by_cases hone : 1 < rs
    · refine Or.inr (show update m (rs - 1) top (rs - 1) ≠ 0 from ?_)
      rw [update_self]
      exact fun h => hdrop ⟨h, hone⟩
    · exact Or.inl (show rs = 1 by omega)

theorem rightShiftByte_spec (hw : LimbWidth w) (hx : 0 < x.size) (hsize : w * x.size ≤ 2 ^ 32)
    (hs : s / w < 2 ^ w) (hs' : s % 8 = 0) :
    ShiftedDown x (rightShiftByte x s) s ∧ (x.Trimmed → (rightShiftByte x s).Trimmed) := by
  have h8 := hw.eight_dvd
  have hdm := div_add_mod s w
  have ht := mod_lt s (NeZero.pos w)
  have hpow := pow_le_shifted (x := x) (s := s)
  have h8s : 8 * (s / 8) = s := Nat.mul_div_cancel' (dvd_of_mod_eq_zero hs')
  have h8w : 8 * (w / 8) = w := Nat.mul_div_cancel' h8
  have hmod : s % w = 8 * (s / 8 % (w / 8)) := by
    conv_lhs => rw [← h8s, ← h8w]
    exact mul_mod_mul_left _ _ _
  rw [rightShiftByte, show limbCast w (s / w) = s / w from mod_eq_of_lt hs]
  dsimp only
  split
  · rename_i hle
    have hpast := (Nat.mul_le_mul_left w hle).trans (show w * (s / w) ≤ s by omega)
    exact ⟨.zero _ (div_eq_zero_of_size_le hpast), fun _ => trimmed_assignLimb _ _⟩
  rename_i hlt
  rw [Nat.not_le] at hlt
  have hle := Nat.mul_le_mul_left w (succ_le_of_lt hlt)
  rw [Nat.mul_succ] at hle
  have hbytes : 8 * (x.size * (w / 8)) = w * x.size := by
    rw [Nat.mul_left_comm, h8w, Nat.mul_comm]
  rw [limbCast_of_lt hw (by omega)]
  generalize hm : moveBytes x.limbs 0 (s / 8) (x.size * (w / 8) - s / 8) = m
  have hbits : ∀ k, k + s < w * x.size → bitAt m k = bitAt x.limbs (k + s) := by
    intro k hk
    rw [← hm, bitAt_moveBytes h8, if_pos (by omega), Nat.mul_zero, Nat.sub_zero, h8s]
  rw [show (w / 8 - s / 8 % (w / 8)) * 8 = w - s % w by omega]
  generalize s / w = d at *
  generalize s % w = t at *
  subst hdm
  rcases Decidable.eq_or_ne t 0 with rfl | ht₀
  · -- whole limbs
    rw [if_neg (by omega)]
    have hn : w * x.size = w * (x.size - d) + w * d := by rw [← Nat.mul_add, Nat.sub_add_cancel hlt.le]
    have hq : natOf m (x.size - d) = x.mag / 2 ^ (w * d + 0) := natOf_shiftRight (by omega) fun k hk => by
      rw [hbits k (by omega), decide_eq_true (by omega), Bool.true_and]
    have hdown := ShiftedDown.of_limbs (n := x.size - d) hq (by omega) (Or.inl rfl)
    refine ⟨hdown, fun hx => ⟨hdown.size_pos, ?_⟩⟩
    rcases hx.2 with h₁ | htop
    · exact Or.inl (show x.size - d = 1 by omega)
    · refine Or.inr (show m (x.size - d - 1) ≠ 0 from ?_)
      have e : m (x.size - d - 1) = x.limbs (x.size - 1) := eq_of_bitAt fun t ht => by
        have e₁ : w * (x.size - 1) = w * (x.size - d - 1) + w * d := by rw [← Nat.mul_add]; congr 1; omega
        have e₂ : w * (x.size - 1) + w = w * x.size := by rw [← Nat.mul_succ]; congr 1; omega
        rw [hbits _ (by omega), e₁]
        congr 1
        omega
      rwa [e]
  · rw [if_pos (by omega)]
    obtain ⟨hdown, htrim⟩ := maskedTop_spec (x := x) (m := m) (by omega)
      (natOf_maskedBytes ht₀ ht hlt hbits)
    exact ⟨hdown, fun hx => htrim fun hone => hpow hx (by omega) (NeZero.pos w)⟩

end Bits

/-- **Every right shift** divides, and keeps a trimmed number trimmed. -/
theorem rightShift_spec (hw : LimbWidth w) (hx : 0 < x.size) (hsize : w * x.size ≤ 2 ^ 32)
    (hs : s / w < 2 ^ w) {st : ShiftStrategy} (hst : st.Applies w s) :
    ShiftedDown x (rightShift st x s) s ∧ (x.Trimmed → (rightShift st x s).Trimmed) := by
  have := hw.neZero
  cases st with
  | limb => exact rightShiftLimb_spec hx hs hst
  | byte => exact rightShiftByte_spec hw hx hsize hs hst
  | generic => exact rightShiftGeneric_spec hx hs

end RightShift

/-! ### Rounding down -/

theorem evalIncrement_negative {x : CppInt w} (hw : 0 < w) (hw' : w < 2 ^ 30) (hx : x.Canonical)
    (hxm : x.size ≤ maxLimbs w) (hneg : x.sign = true) :
    (evalIncrement x).Trimmed ∧ (evalIncrement x).sign = true ∧ (evalIncrement x).mag + 1 = x.mag := by
  have hlt : x.toInt < 0 := by
    have := hx.sign_eq
    rw [hneg] at this
    exact of_decide_eq_true this.symm
  have hmag : x.toInt = -(x.mag : ℤ) := by rw [toInt, hneg, if_pos rfl]
  by_cases hz : x.toInt = -1
  · obtain ⟨e, hs, hn⟩ := evalIncrement_neg_one hw hx hz
    refine ⟨⟨by rw [hn]; exact Nat.one_pos, Or.inl hn⟩, hs, ?_⟩
    rw [mag, hn, natOf_one, e, limbs_store, update_self, toNat_eq_zero.mpr rfl]
    omega
  · have hfit := mag_lt_max hxm
    have h := (evalIncrement_iff hw hw' hx hxm hz).mpr (by
      rw [Fits]
      omega)
    refine ⟨h.canonical.1, ?_, ?_⟩
    · rw [h.canonical.sign_eq, h.toInt_eq]
      exact decide_eq_true (by omega)
    · rw [h.mag_eq]
      omega

/-- **`eval_right_shift`** rounds towards minus infinity. -/
theorem evalRightShiftBy_spec {x : CppInt w} (hw : LimbWidth w) (hx : x.Canonical)
    (hsize : w * x.size ≤ 2 ^ 32) {s : ℕ} (hs : s / w < 2 ^ w) {st : ShiftStrategy}
    (hst : st.Applies w s) : (evalRightShiftBy st x s).Represents (x.toInt / 2 ^ s) := by
  have hpos : 0 < w := by have := hw.le; omega
  unfold evalRightShiftBy
  split
  · rename_i h₀
    rw [h₀, pow_zero, Int.ediv_one]
    exact ⟨hx, rfl⟩
  dsimp only
  cases hneg : x.sign with
  | false =>
    obtain ⟨hdown, htrim⟩ := rightShift_spec hw hx.1.1 hsize hs hst
    have hsign : (rightShift st x s).sign = false := by
      rcases hdown.sign_eq with h | h
      · rw [h, hneg]
      · exact h.2
    have hrep := (htrim hx.1).represents hsign
    rw [hdown.mag_eq] at hrep
    rw [toInt_of_sign hneg]
    simpa using hrep
  | true =>
    -- `-(m + 1)` shifted down is `-(m / 2 ^ s) - 1`, so the increment and decrement round down
    have hxm : x.size ≤ maxLimbs w := le_maxLimbs hpos (by have := hw.le; omega)
    obtain ⟨htrim₀, hs₀, hm₀⟩ := evalIncrement_negative hpos hw.lt hx hxm hneg
    have hsize₀ : (evalIncrement x).size ≤ x.size := htrim₀.size_le hx.1.1 (by
      have := x.mag_lt
      omega)
    obtain ⟨hdown, htrim⟩ := rightShift_spec hw htrim₀.1 ((Nat.mul_le_mul_left w hsize₀).trans hsize)
      hs hst
    rw [if_pos rfl, if_pos rfl]
    generalize evalIncrement x = x₀ at *
    have hval : (rightShift st x₀ s).toInt = -((x₀.mag / 2 ^ s : ℕ) : ℤ) := by
      rw [← hdown.mag_eq, toInt]
      rcases hdown.sign_eq with h | h
      · rw [h, hs₀, if_pos rfl]
      · rw [h.2, h.1]
        rfl
    have hle : (rightShift st x₀ s).size ≤ x.size := (htrim htrim₀).size_le hx.1.1 (by
      have := x.mag_lt
      have := Nat.div_le_self x₀.mag (2 ^ s)
      rw [hdown.mag_eq]
      omega)
    have e : x.toInt / 2 ^ s = (rightShift st x₀ s).toInt - 1 := by
      have hx₀ : x.toInt = Int.negSucc x₀.mag := by
        rw [toInt, hneg, if_pos rfl, ← hm₀, Int.negSucc_eq]
        push_cast
        rfl
      rw [hval, hx₀, Int.negSucc_ediv _ (by positivity), neg_add']
      push_cast
      rfl
    have hfit : Fits w ((rightShift st x₀ s).toInt - 1) := by
      have := mag_lt_max hxm
      have := Nat.div_le_self x₀.mag (2 ^ s)
      rw [Fits, hval]
      generalize x₀.mag / 2 ^ s = d at *
      omega
    rw [e]
    exact (evalDecrement_iff hpos hw.lt (htrim htrim₀) (hle.trans hxm)).mpr hfit

end SourceLibs.CppInt
