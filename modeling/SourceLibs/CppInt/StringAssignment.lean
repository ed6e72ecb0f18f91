import SourceLibs.CppInt.Text

/-!
# CppInt — octal texts, and what a rejected text leaves behind

The octal branch of `do_assign_string`, and `operator=(const char*)` as a whole.

An octal digit can straddle two limbs.  The limbs are counted from the position of the *lowest* bit
of the leading digit, so the upper bits of that digit may need one limb more: it is added by
`resize` and or-ed into, with whatever the buffer held there.

`operator=` assigns zero to the object before it looks at the text.

* `octal_exact_iff`: an octal text is read exactly for every content of the buffer if and only if
  its leading digit fits the limb its lowest bit falls into, and the value fits `max_limbs`.
* `assignString_unchanged_iff`: an exception leaves the object as it was if and only if it was zero
  or the text raises none.
-/

namespace SourceLibs.CppInt
open List Nat BitVec

variable {w : ℕ} {s : List Char}

/-! ### One octal digit -/

/-- The value of an octal digit. -/
def octVal (c : Char) : Option ℕ := digitUpTo '7' c

theorem octVal_lt {c : Char} {d : ℕ} (h : octVal c = some d) : d < 8 := by
  rw [octVal, digitUpTo] at h
  split at h
  · rename_i hc
    have h7 : c.toNat ≤ '7'.toNat := hc.2
    have : ('7'.toNat = 55) := rfl
    have : ('0'.toNat = 48) := rfl
    rw [Option.some.injEq] at h
    omega
  · cases h

theorem octVal_eq {c : Char} {d : ℕ} (h : octVal c = some d) : c.toNat - '0'.toNat = d := by
  rw [octVal, digitUpTo] at h
  split at h
  · exact Option.some.inj h
  · cases h

theorem eq_zero_of_octVal (c : Char) (h : octVal c = some 0) : c = '0' := by
  have hval := octVal_eq h
  have e₀ : ('0'.toNat = 48) := rfl
  rw [octVal, digitUpTo] at h
  split at h
  · rename_i hc
    have : 48 ≤ c.toNat := hc.1
    exact Char.ext (UInt32.toNat_inj.mp (show c.toNat = '0'.toNat by omega))
  · cases h

theorem testBit_store_or [NeZero w] (x : CppInt w) {limb : ℕ} (h : limb < x.size) (v : BitVec w)
    (k : ℕ) : (x.store limb (x.limbs limb ||| v)).mag.testBit k =
      (x.mag.testBit k || (decide (k / w = limb) && v.getLsbD (k % w))) := by
  rw [testBit_mag_eq, testBit_mag_eq, size_store, limbs_store]
  by_cases hq : k / w = limb
  · simp [hq, h]
  · simp [hq]

theorem testBit_straddle [NeZero w] {d : ℕ} (hd : d < 2 ^ w) (b k : ℕ) :
    ((decide (k / w = b / w) && (BitVec.ofNat w d <<< (b % w)).getLsbD (k % w)) ||
        (decide (k / w = b / w + 1) && (BitVec.ofNat w d >>> (w - b % w)).getLsbD (k % w))) =
      (d <<< b).testBit k := by
  have hkr := mod_lt k (NeZero.pos w)
  have hbr := mod_lt b (NeZero.pos w)
  have hk := div_add_mod k w
  have hb := div_add_mod b w
  have hfar : ∀ i, w ≤ i → d.testBit i = false := fun i hi =>
    testBit_lt_two_pow (hd.trans_le (Nat.pow_le_pow_right Nat.two_pos hi))
  rw [testBit_shiftLeft, getLsbD_shiftLeft, getLsbD_ushiftRight,
    getLsbD_ofNat, getLsbD_ofNat]
  generalize k / w = q at *
  generalize b / w = r at *
  generalize k % w = j at *
  generalize b % w = t at *
  rcases Nat.lt_trichotomy q r with hlt | rfl | hgt
  · -- a limb below
    have := Nat.mul_le_mul_left w (succ_le_of_lt hlt)
    rw [Nat.mul_succ] at this
    simp [hlt.ne, show q ≠ r + 1 by omega, show ¬ b ≤ k by omega]
  · -- the limb of the lowest bit
    by_cases htj : t ≤ j
    · simp [hkr, show b ≤ k by omega, show k - b = j - t by omega, show j - t < w by omega,
        Nat.not_lt.mpr htj]
    · simp [show ¬ b ≤ k by omega, Nat.lt_of_not_le htj]
  · have hle := Nat.mul_le_mul_left w (succ_le_of_lt hgt)
    rw [Nat.mul_succ] at hle
    rcases Nat.eq_or_lt_of_le (succ_le_of_lt hgt) with rfl | hgt'
    · -- the next limb
      rw [Nat.mul_succ] at hk
      have hkb : k - b = w - t + j := by omega
      by_cases hj : w - t + j < w
      · simp [show b ≤ k by omega, hkb, hj]
      · simp [hkb, hj, hfar _ (Nat.le_of_not_lt hj)]
    · have hle' := Nat.mul_le_mul_left w (succ_le_of_lt hgt')
      rw [Nat.mul_succ, Nat.mul_succ] at hle'
      simp [hgt.ne', show q ≠ r + 1 by omega, hfar (k - b) (by omega)]

/-- The bits of an octal digit that do not fit the limb of its lowest bit. -/
theorem toNat_spill {d : ℕ} (hd : d < 2 ^ w) (s : ℕ) :
    (BitVec.ofNat w d >>> s).toNat = d / 2 ^ s := by
  rw [toNat_ushiftRight, toNat_ofNat, mod_eq_of_lt hd, Nat.shiftRight_eq_div_pow]

theorem spill_eq_zero_iff [NeZero w] {d : ℕ} (hd : d < 2 ^ w) (b : ℕ) :
    BitVec.ofNat w d >>> (w - b % w) = 0 ↔ d * 2 ^ (b % w) < 2 ^ w := by
  have hmod := mod_lt b (NeZero.pos w)
  rw [← toNat_eq_zero, toNat_spill hd, div_eq_zero_iff_lt (Nat.two_pow_pos _),
    ← Nat.mul_lt_mul_right (Nat.two_pow_pos (b % w)), ← pow_add, Nat.sub_add_cancel hmod.le]

theorem orOctal_spec (hw : 3 < w) (x : CppInt w) {d b newsize : ℕ} (hd : d < 8) (hb : b / w < x.size)
    (hfit : d * 2 ^ (b % w) < 2 ^ w ∨ b / w + 1 < x.size) (hnew : x.size = newsize) :
    (orOctal x newsize b (BitVec.ofNat w d)).mag = x.mag ||| d <<< b ∧
      (orOctal x newsize b (BitVec.ofNat w d)).size = newsize ∧
      (orOctal x newsize b (BitVec.ofNat w d)).sign = x.sign := by
  subst hnew
  have : NeZero w := ⟨by omega⟩
  have h8 : 2 ^ 3 ≤ 2 ^ (w - b % w) ∨ w - 3 < b % w := by
    by_cases h : w - 3 < b % w
    · exact Or.inr h
    · exact Or.inl (Nat.pow_le_pow_right Nat.two_pos (by omega))
  have hd' : d < 2 ^ w := hd.trans_le (Nat.pow_le_pow_right (n := 2) Nat.two_pos hw.le)
  have hplace := testBit_straddle hd' b
  have hspill := spill_eq_zero_iff hd' b
  have hshift : BitVec.ofNat w d >>> (w - b % w) ≠ 0 → w - 3 < b % w := fun h =>
    h8.resolve_left fun hle => h (by
      rw [← toNat_eq_zero, toNat_spill hd']
      exact div_eq_of_lt (hd.trans_le hle))
  generalize BitVec.ofNat w d = val at *
  set y := x.store (b / w) (x.limbs (b / w) ||| val <<< (b % w)) with hy
  have hlow := testBit_store_or x hb (val <<< (b % w))
  rw [← hy] at hlow
  by_cases hz : val >>> (w - b % w) = 0
  · -- the digit stays in its limb
    have e : orOctal x x.size b val = y := by
      simp only [orOctal, if_pos hb, hz, ne_eq, not_true_eq_false, if_false, ite_self, hy]
    rw [e]
    refine ⟨eq_of_testBit_eq fun k => ?_, rfl, rfl⟩
    rw [hlow, testBit_or, ← hplace, hz]
    simp
  · -- the digit spills over into a limb that is there already
    have hnext : b / w + 1 < x.size := hfit.resolve_left fun h => hz (hspill.mpr h)
    have hnext' : b / w + 1 < y.size := hnext
    have e : orOctal x x.size b val =
        y.store (b / w + 1) (y.limbs (b / w + 1) ||| val >>> (w - b % w)) := by
      simp only [orOctal, if_pos hb, if_pos (hshift hz), ne_eq, hz, not_false_eq_true, if_true,
        if_neg hnext.ne, orExisting, ← hy, if_pos hnext']
    rw [e]
    refine ⟨eq_of_testBit_eq fun k => ?_, rfl, rfl⟩
    rw [testBit_store_or y hnext', hlow, testBit_or, ← hplace, Bool.or_assoc]

/-! ### Octal texts -/

/-- **Octal digits** for which there is room are read as their positional value. -/
theorem octLoop_spec (hw : 3 < w) {newsize : ℕ} {ds : List ℕ} (h : Spells octVal s ds) (acc : ℕ)
    {x : CppInt w} (hx : x.mag = acc * 8 ^ s.length) (hroom : 3 * s.length ≤ w * newsize)
    (hsize : x.size = newsize) :
    ∃ y, octLoop newsize s (3 * (s.length - 1)) x = .ok y ∧ y.mag = horner 8 acc ds ∧
      y.size = newsize ∧ y.sign = x.sign := by
  induction s generalizing ds acc x with
  | nil =>
    obtain rfl : ds = [] := length_eq_zero_iff.mp h.length_eq.symm
    exact ⟨x, rfl, by simpa [horner] using hx, hsize, rfl⟩
  | cons c s ih =>
    obtain ⟨d, ds, rfl, hc, hs⟩ := h.of_cons
    have hd := octVal_lt hc
    rw [length_cons] at hroom
    have hdm := div_add_mod (3 * s.length) w
    have hmod := mod_lt (3 * s.length) (show 0 < w by omega)
    have hlimb : 3 * s.length / w < x.size := by
      rw [hsize]
      exact Nat.div_lt_of_lt_mul (by omega)
    -- the digit lies in one limb, or there is another limb above
    have hfit : d * 2 ^ (3 * s.length % w) < 2 ^ w ∨ 3 * s.length / w + 1 < x.size := by
      by_cases hin : 3 * s.length % w + 3 ≤ w
      · refine Or.inl (lt_of_lt_of_le ?_ (Nat.pow_le_pow_right Nat.two_pos hin))
        rw [pow_add, Nat.mul_comm]
        exact Nat.mul_lt_mul_of_pos_left hd (Nat.two_pow_pos _)
      · refine Or.inr (hsize ▸ lt_of_mul_lt_mul_left (a := w) ?_ (Nat.zero_le w))
        rw [Nat.mul_succ]
        omega
    obtain ⟨hmag, hsz, hsn⟩ := orOctal_spec hw x hd hlimb hfit hsize
    rw [hx, length_cons, show (8 : ℕ) = 2 ^ 3 from rfl, or_digit hd] at hmag
    obtain ⟨y, hy, hm, hys, hyn⟩ := ih hs _ hmag (by omega) hsz
    refine ⟨y, ?_, hm, hys, hyn.trans hsn⟩
    rw [show (c :: s).length - 1 = s.length from rfl, octLoop, show digitUpTo '7' c = some d from hc,
      show 3 * s.length - 3 = 3 * (s.length - 1) by omega]
    exact hy

theorem octLoop_keeps {P : CppInt w → Prop} {newsize : ℕ}
    (hstep : ∀ x bitcount val, P x → P (orOctal x newsize bitcount val)) {ds : List ℕ}
    (h : Spells octVal s ds) :
    ∀ (bitcount : ℕ) (x : CppInt w), P x →
      ∃ y, octLoop newsize s bitcount x = .ok y ∧ P y := by
  induction s generalizing ds with
  | nil => exact fun _ x hx => ⟨x, rfl, hx⟩
  | cons c s ih =>
    intro bitcount x hx
    obtain ⟨d, ds, rfl, hc, hs⟩ := h.of_cons
    rw [octLoop, show digitUpTo '7' c = some d from hc]
    exact ih hs _ _ (hstep x _ _ hx)

theorem octLoop_error {newsize : ℕ} (h : none ∈ s.map octVal) :
    ∀ (bitcount : ℕ) (x : CppInt w), octLoop newsize s bitcount x = .error unexpectedContent := by
  induction s with
  | nil => cases h
  | cons c s ih =>
    intro bitcount x
    rw [octLoop]
    cases hc : digitUpTo '7' c with
    | none => rfl
    | some d =>
      rw [map_cons, octVal, hc, mem_cons] at h
      exact ih (h.resolve_left (by simp)) _ _

/-- The limb past the counted ones is there, and all ones. -/
def AllOnesAt (n : ℕ) (x : CppInt w) : Prop := x.size = n + 1 ∧ x.limbs n = BitVec.allOnes w

theorem allOnes_store_or {p : ℕ → BitVec w} {n : ℕ} (h : p n = BitVec.allOnes w) (i : ℕ) (v : BitVec w) :
    Function.update p i (p i ||| v) n = BitVec.allOnes w := by
  by_cases hi : n = i
  · subst hi
    rw [Function.update_self, h, allOnes_or]
  · rw [Function.update_of_ne hi, h]

theorem AllOnesAt.store_or {n : ℕ} {x : CppInt w} (h : AllOnesAt n x) (i : ℕ) (v : BitVec w) :
    AllOnesAt n (x.store i (x.limbs i ||| v)) := ⟨h.1, allOnes_store_or h.2 i v⟩

theorem AllOnesAt.orExisting {n : ℕ} {x : CppInt w} (h : AllOnesAt n x) (i : ℕ) (v : BitVec w) :
    AllOnesAt n (orExisting x i v) := by
  rw [CppInt.orExisting]
  split
  · exact h.store_or i v
  · exact h

theorem AllOnesAt.orOctal {n : ℕ} (hn : min (uint (n + 1)) (maxLimbs w) = n + 1) {x : CppInt w}
    (h : AllOnesAt n x) (bitcount : ℕ) (val : BitVec w) : AllOnesAt n (orOctal x n bitcount val) := by
  have hy := h.store_or (bitcount / w) (val <<< (bitcount % w))
  unfold CppInt.orOctal
  dsimp only
  split
  · split
    · split
      · refine AllOnesAt.orExisting ?_ _ _
        split
        · exact ⟨hn, hy.2⟩
        · exact hy
      · exact hy
    · exact hy
  · exact h

/-- A digit that does not fit the top limb exposes the limb above. -/
theorem orOctal_spill (hw : 3 < w) (x : CppInt w) {d b newsize : ℕ}
    (hn : min (uint (newsize + 1)) (maxLimbs w) = newsize + 1) (hd : d < 8)
    (hb : b / w + 1 = newsize) (hspill : 2 ^ w ≤ d * 2 ^ (b % w)) (hsize : x.size = newsize)
    (hstale : x.limbs newsize = BitVec.allOnes w) :
    AllOnesAt newsize (orOctal x newsize b (BitVec.ofNat w d)) := by
  have : NeZero w := ⟨by omega⟩
  have hd' : d < 2 ^ w := hd.trans_le (Nat.pow_le_pow_right (n := 2) Nat.two_pos hw.le)
  have hne : BitVec.ofNat w d >>> (w - b % w) ≠ 0 := fun h =>
    absurd ((spill_eq_zero_iff hd' b).mp h) (Nat.not_lt.mpr hspill)
  have hshift : w - 3 < b % w := by
    by_contra hle
    have : d * 2 ^ (b % w) < 2 ^ 3 * 2 ^ (w - 3) :=
      Nat.mul_lt_mul_of_lt_of_le hd (Nat.pow_le_pow_right Nat.two_pos (by omega)) (Nat.two_pow_pos _)
    rw [← pow_add, show 3 + (w - 3) = w by omega] at this
    omega
  unfold orOctal
  dsimp only
  rw [if_pos (by omega), if_pos hshift, if_pos hne, if_pos hb]
  refine AllOnesAt.orExisting ⟨hn, ?_⟩ _ _
  rw [limbs_resize, limbs_store, Function.update_of_ne (by omega)]
  exact hstale

/-- The bits of the leading digit that is not zero stay in the limb of its lowest bit. -/
def LeadingDigitFits (w : ℕ) (s : List Char) : Prop :=
  match s.dropWhile (· = '0') with
  | [] => True
  | c :: t => (c.toNat - '0'.toNat) * 2 ^ (3 * t.length % w) < 2 ^ w

theorem assignMagnitude_octal (p : ℕ → BitVec w) {c : Char} (hx : ¬ (c = 'x' ∨ c = 'X'))
    (s : List Char) :
    assignMagnitude p ('0' :: c :: s) =
      (octLoop (3 * (((c :: s).dropWhile (· = '0')).length - 1) / w + 1) ((c :: s).dropWhile (· = '0'))
        (3 * (((c :: s).dropWhile (· = '0')).length - 1)) (clearedTo (newObject p)
          (3 * (((c :: s).dropWhile (· = '0')).length - 1) / w + 1))).map normalize := by
  rw [assignMagnitude]
  simp only [if_neg hx, firstPosition_eq]
  rfl

theorem doAssignString_octal (p : ℕ → BitVec w) {ds : List ℕ} (h : Spells octVal s ds)
    (hs : s ≠ []) :
    doAssignString p ('0' :: s) =
      (octLoop (3 * ((s.dropWhile (· = '0')).length - 1) / w + 1) (s.dropWhile (· = '0'))
        (3 * ((s.dropWhile (· = '0')).length - 1))
        (clearedTo (newObject p) (3 * ((s.dropWhile (· = '0')).length - 1) / w + 1))).map normalize := by
  cases s with
  | nil => exact absurd rfl hs
  | cons c s =>
    obtain ⟨d, ds, rfl, hc, -⟩ := h.of_cons
    refine assignMagnitude_octal p ?_ s
    rintro (rfl | rfl)
    · rw [show octVal 'x' = none by decide] at hc
      cases hc
    · rw [show octVal 'X' = none by decide] at hc
      cases hc

theorem mag_allOnes_le {x : CppInt w} {n : ℕ} (h : x.size = n + 1)
    (htop : x.limbs n = BitVec.allOnes w) : (2 ^ w - 1) * (2 ^ w) ^ n ≤ x.mag := by
  rw [mag, h, natOf_succ, htop, toNat_allOnes]
  exact Nat.le_add_left _ _

theorem positional_lt_counted {w n : ℕ} (hw : 3 < w) {ds : List ℕ} (hds : ∀ d ∈ ds, d < 8)
    (hn : ds.length = n + 1) : positional 8 ds < 4 * (2 ^ w) ^ (3 * n / w + 1) := by
  have hlt := positional_lt hds
  have hdm := div_add_mod (3 * n) w
  have hmod := mod_lt (3 * n) (show 0 < w by omega)
  have hle : 8 ^ (n + 1) ≤ 4 * (2 ^ w) ^ (3 * n / w + 1) := by
    rw [show (8 : ℕ) = 2 ^ 3 from rfl, ← pow_mul, ← pow_mul, show (4 : ℕ) = 2 ^ 2 from rfl, ← pow_add]
    refine Nat.pow_le_pow_right Nat.two_pos ?_
    rw [Nat.mul_succ w]
    omega
  rw [hn] at hlt
  omega

theorem LimbWidth.four_le (hw : LimbWidth w) : 4 ≤ 2 ^ w - 1 := by
  rcases hw with rfl | rfl <;> decide

/-- A leading digit that spills reads what an unlucky buffer holds. -/
theorem octLoop_stale (hw : LimbWidth w) {c : Char} {t : List Char} {d : ℕ} {es : List ℕ}
    (hc : octVal c = some d) (ht : Spells octVal t es) (hspill : 2 ^ w ≤ d * 2 ^ (3 * t.length % w))
    (hn : 3 * t.length / w + 2 ≤ maxLimbs w) :
    ∃ y, octLoop (3 * t.length / w + 1) (c :: t) (3 * t.length)
        (clearedTo (newObject fun _ => BitVec.allOnes w) (3 * t.length / w + 1)) = .ok y ∧
      0 < y.size ∧ positional 8 (d :: es) < y.mag := by
  have hw3 : 3 < w := by rcases hw with rfl | rfl <;> decide
  have hmax := hw.maxLimbs_lt
  have hgrow : min (uint (3 * t.length / w + 1 + 1)) (maxLimbs w) = 3 * t.length / w + 1 + 1 := by
    rw [uint_of_lt (by omega), Nat.min_eq_left hn]
  have hsize₀ := (clearedTo_spec hw (newObject fun _ => allOnes w) (3 * t.length / w + 1)).2.1 (by omega)
  have hstale : (clearedTo (newObject fun _ => allOnes w) (3 * t.length / w + 1)).limbs
      (3 * t.length / w + 1) = allOnes w := if_neg fun h => absurd (h.2.trans_eq hsize₀) (lt_irrefl _)
  have hones := orOctal_spill hw3 _ hgrow (octVal_lt hc) rfl hspill hsize₀ hstale
  obtain ⟨y, hy, hsize, htop⟩ :=
    octLoop_keeps (fun _ b v h => h.orOctal hgrow b v) ht (3 * t.length - 3) _ hones
  have hlow := mag_allOnes_le hsize htop
  have hlt := positional_lt_counted hw3 ((ht.cons hc).lt octVal_lt) (n := t.length)
    (by rw [length_cons, ht.length_eq])
  have h4 : 4 * (2 ^ w) ^ (3 * t.length / w + 1) ≤ (2 ^ w - 1) * (2 ^ w) ^ (3 * t.length / w + 1) :=
    Nat.mul_le_mul_right _ hw.four_le
  refine ⟨y, ?_, by rw [hsize]; exact succ_pos _, by omega⟩
  rw [octLoop, show digitUpTo '7' c = some d from hc]
  exact hy

theorem octLoop_fits (hw : LimbWidth w) (p : ℕ → BitVec w) {c : Char} {t : List Char} {d : ℕ}
    {es : List ℕ} (hc : octVal c = some d) (ht : Spells octVal t es)
    (hfit : d * 2 ^ (3 * t.length % w) < 2 ^ w) (hn : 3 * t.length / w + 1 ≤ maxLimbs w) :
    ∃ y, octLoop (3 * t.length / w + 1) (c :: t) (3 * t.length)
        (clearedTo (newObject p) (3 * t.length / w + 1)) = .ok y ∧
      y.mag = positional 8 (d :: es) ∧ 0 < y.size ∧ y.sign = false := by
  have hw3 : 3 < w := by rcases hw with rfl | rfl <;> decide
  have hdm := div_add_mod (3 * t.length) w
  have hmod := mod_lt (3 * t.length) (show 0 < w by omega)
  obtain ⟨hm, hsize, hsign⟩ := clearedTo_spec hw (newObject p) (3 * t.length / w + 1)
  have hsize := hsize hn
  obtain ⟨hmag, hsz, hsn⟩ := orOctal_spec hw3 _ (octVal_lt hc) (by rw [hsize]; omega) (Or.inl hfit) hsize
  rw [hm, Nat.zero_or, Nat.shiftLeft_eq, pow_mul] at hmag
  obtain ⟨y, hy, hym, hys, hyn⟩ := octLoop_spec hw3 ht d hmag (by rw [Nat.mul_succ]; omega) hsz
  rw [← Nat.zero_add d, ← Nat.zero_mul 8, ← horner_cons] at hym
  refine ⟨y, ?_, hym, by rw [hys]; exact succ_pos _, by rw [hyn, hsn, hsign]; rfl⟩
  rw [octLoop, show digitUpTo '7' c = some d from hc,
    show 3 * t.length - 3 = 3 * (t.length - 1) by omega]
  exact hy

/-- A leading digit that spills makes a number that needs the limb above. -/
theorem room_of_spill {d n : ℕ} {es : List ℕ} (hspill : 2 ^ w ≤ d * 2 ^ (3 * n % w)) (hn : n = es.length)
    (hfit : Fits w (positional 8 (d :: es))) : 3 * n / w + 2 ≤ maxLimbs w := by
  have hdm := div_add_mod (3 * n) w
  have hle : 2 ^ (w * (3 * n / w + 1)) ≤ positional 8 (d :: es) := by
    calc 2 ^ (w * (3 * n / w + 1)) = 2 ^ (w * (3 * n / w)) * 2 ^ w := by rw [Nat.mul_succ, pow_add]
      _ ≤ 2 ^ (w * (3 * n / w)) * (d * 2 ^ (3 * n % w)) := Nat.mul_le_mul_left _ hspill
      _ = d * 2 ^ (3 * n) := by
        rw [Nat.mul_left_comm, ← pow_add, hdm]
      _ = d * 8 ^ es.length := by rw [show (8 : ℕ) = 2 ^ 3 from rfl, ← pow_mul, hn]
      _ ≤ positional 8 (d :: es) := by
        rw [positional_cons]
        exact Nat.le_add_right _ _
  rw [Fits, Int.natAbs_natCast, ← pow_mul] at hfit
  have hlt := (Nat.pow_lt_pow_iff_right (by decide : 1 < 2)).mp (hle.trans_lt hfit)
  exact lt_of_mul_lt_mul_left hlt (Nat.zero_le w)

theorem orExisting_size (x : CppInt w) (limb : ℕ) (v : BitVec w) : (orExisting x limb v).size = x.size := by
  rw [CppInt.orExisting]
  split <;> rfl

/-- No digit takes the object past `max_limbs`. -/
theorem orOctal_size_le {x : CppInt w} (h : x.size ≤ maxLimbs w) (newsize bitcount : ℕ) (val : BitVec w) :
    (orOctal x newsize bitcount val).size ≤ maxLimbs w := by
  unfold orOctal
  dsimp only
  split
  · split
    · split
      · rw [orExisting_size]
        split
        · exact Nat.min_le_right _ _
        · exact h
      · exact h
    · exact h
  · exact h

/-- A text of octal digits that is read exactly fits. -/
theorem fits_of_octal {s : List Char} {ds : List ℕ} (h : Spells octVal s ds) (hs : s ≠ []) {n : ℕ}
    {p : ℕ → BitVec w} {y : CppInt w} (hy : doAssignString p ('0' :: s) = .ok y)
    (hrep : y.Represents n) : Fits w n := by
  obtain ⟨es, ht, -⟩ := h.dropWhile_zero (show octVal '0' = some 0 by decide) 8
  rw [doAssignString_octal p h hs] at hy
  obtain ⟨z, hz, hzm⟩ := octLoop_keeps (P := fun x : CppInt w => x.size ≤ maxLimbs w)
    (fun x b v hx => orOctal_size_le hx _ b v) ht
    (3 * ((s.dropWhile (· = '0')).length - 1))
    (clearedTo (newObject p) (3 * ((s.dropWhile (· = '0')).length - 1) / w + 1)) (Nat.min_le_right _ _)
  rw [hz] at hy
  obtain rfl : z.normalize = y := Except.ok.inj hy
  exact hrep.fits ((normalize_size_le z).trans hzm)

/-- **Octal texts**: a text of octal digits is read exactly, whatever the buffer held, if and only
if the bits of its leading digit stay in the limb of its lowest bit and `max_limbs` limbs hold the
value. -/
theorem octal_exact_iff (hw : LimbWidth w) {s : List Char} {ds : List ℕ} (h : Spells octVal s ds) :
    (∀ p : ℕ → BitVec w, ∃ y, doAssignString p ('0' :: s) = .ok y ∧ y.Represents (positional 8 ds)) ↔
      LeadingDigitFits w s ∧ Fits w (positional 8 ds) := by
  rcases Decidable.eq_or_ne s [] with rfl | hs
  · obtain rfl : ds = [] := length_eq_zero_iff.mp h.length_eq.symm
    exact ⟨fun _ => ⟨trivial, Nat.pow_pos (Nat.two_pow_pos w)⟩,
      fun _ p => ⟨_, rfl, newObject_represents p⟩⟩
  obtain ⟨es, ht, hv⟩ := h.dropWhile_zero (show octVal '0' = some 0 by decide) 8
  have hhead := head?_dropWhile_zero s
  have hfits : (∀ p : ℕ → BitVec w, ∃ y, doAssignString p ('0' :: s) = .ok y ∧
      y.Represents (positional 8 ds)) → Fits w (positional 8 ds) := fun hall => by
    obtain ⟨y, hy, hrep⟩ := hall fun _ => 0
    exact fits_of_octal h hs hy hrep
  rw [← and_iff_left_of_imp hfits]
  refine and_congr_left fun hfit => ?_
  rw [← hv] at hfit
  simp only [doAssignString_octal _ h hs, LeadingDigitFits, ← hv]
  generalize s.dropWhile (· = '0') = t at ht hhead
  have hn := newsize_le_of_fits 3 ht eq_zero_of_octVal hhead hfit
  cases t with
  | nil =>
    -- only zeros: the cleared limb is left
    obtain rfl : es = [] := length_eq_zero_iff.mp ht.length_eq.symm
    refine ⟨fun _ => trivial, fun _ p => ⟨_, rfl, ?_⟩⟩
    obtain ⟨hm, hsize, hsign⟩ :=
      clearedTo_spec hw (newObject p) (3 * (([] : List Char).length - 1) / w + 1)
    have hrep := normalize_represents (by rw [hsize hn]; exact succ_pos _) hsign
    rwa [hm] at hrep
  | cons c t =>
    obtain ⟨d, es, rfl, hc, hes⟩ := ht.of_cons
    rw [length_cons, Nat.add_sub_cancel] at hn
    simp only [octVal_eq hc, length_cons, Nat.add_sub_cancel]
    constructor
    · intro hall
      by_contra hspill
      have hspill := Nat.not_lt.mp hspill
      obtain ⟨z, hz, hrep⟩ := hall fun _ => allOnes w
      obtain ⟨y, hy, hpos, hlt⟩ := octLoop_stale hw hc hes hspill (room_of_spill hspill hes.length_eq hfit)
      rw [hy] at hz
      obtain rfl : y.normalize = z := Except.ok.inj hz
      rw [← (normalize_spec hpos).2, hrep.mag_eq, Int.natAbs_natCast] at hlt
      exact lt_irrefl _ hlt
    · intro hlow p
      obtain ⟨y, hy, hmag, hpos, hsign⟩ := octLoop_fits hw p hc hes hlow hn
      rw [hy, ← hmag]
      exact ⟨_, rfl, normalize_represents hpos hsign⟩

/-- Eleven digits that fill a limb of 32 bits. -/
theorem octal_exact_iff_eleven : ∃ y,
    doAssignString (fun _ => BitVec.allOnes 32)
      ('0' :: ['3', '7', '7', '7', '7', '7', '7', '7', '7', '7', '7']) = .ok y ∧
      y.Represents (positional 8 [3, 7, 7, 7, 7, 7, 7, 7, 7, 7, 7] : ℕ) :=
  (octal_exact_iff (s := ['3', '7', '7', '7', '7', '7', '7', '7', '7', '7', '7']) (Or.inl rfl)
    (show _ = _ from rfl)).mpr ⟨show 3 * 2 ^ 30 < 2 ^ 32 by decide,
      (show positional 8 [3, 7, 7, 7, 7, 7, 7, 7, 7, 7, 7] < (2 ^ 32) ^ 1 by decide).trans_le
        (Nat.pow_le_pow_right (by decide) maxLimbs_pos)⟩ _

/-- `2 ^ 64` in octal: the leading digit is at bit 63, its upper bit in a limb nobody cleared. -/
theorem octal_reads_stale : ¬ ∀ p : ℕ → BitVec 64, ∃ y,
    doAssignString p ('0' :: '2' :: List.replicate 21 '0') = .ok y ∧ y.Represents (2 ^ 64 : ℕ) := by
  intro hall
  have ht : Spells octVal (List.replicate 21 '0') (List.replicate 21 0) := by
    rw [Spells]
    decide
  have hdrop : ('2' :: List.replicate 21 '0').dropWhile (· = '0') = '2' :: List.replicate 21 '0' := rfl
  have hval : positional 8 (2 :: List.replicate 21 0) = 2 ^ 64 := by decide
  obtain ⟨z, hz, hrep⟩ := hall fun _ => allOnes 64
  obtain ⟨y, hy, hpos, hlt⟩ := octLoop_stale (w := 64) (Or.inr rfl) (c := '2') (d := 2) rfl ht
    (by decide) (by decide)
  rw [doAssignString_octal _ (ht.cons (c := '2') (d := 2) rfl) (by simp), hdrop, length_cons,
    Nat.add_sub_cancel, hy] at hz
  obtain rfl : y.normalize = z := Except.ok.inj hz
  rw [hval, ← (normalize_spec hpos).2, hrep.mag_eq, Int.natAbs_natCast] at hlt
  exact lt_irrefl _ hlt

/-! ### Which texts are rejected -/

/-- The characters after the sign are digits of their base. -/
def readableMagnitude : List Char → Bool
  | '0' :: c :: s =>
    if c = 'x' ∨ c = 'X' then s.all fun d => (hexVal d).isSome
    else (c :: s).all fun d => (octVal d).isSome
  | s => s.all fun d => (decVal d).isSome

/-- A text without an unexpected character. -/
def readable : List Char → Bool
  | '-' :: s => readableMagnitude s
  | s => readableMagnitude s

theorem exists_spells {val : Char → Option ℕ} (h : (s.all fun c => (val c).isSome) = true) :
    ∃ ds, Spells val s ds := by
  induction s with
  | nil => exact ⟨[], rfl⟩
  | cons c s ih =>
    rw [all_cons, Bool.and_eq_true] at h
    obtain ⟨d, hd⟩ := Option.isSome_iff_exists.mp h.1
    obtain ⟨ds, hds⟩ := ih h.2
    exact ⟨d :: ds, hds.cons hd⟩

theorem none_mem_map {val : Char → Option ℕ} (h : (s.all fun c => (val c).isSome) = false) :
    none ∈ s.map val := by
  obtain ⟨c, hc, hnone⟩ := List.all_eq_false.mp h
  exact List.mem_map.mpr ⟨c, hc, by simpa using hnone⟩

/-- The exceptions of an unexpected character. -/
def TextFault.Unexpected (e : TextFault) : Prop := e = unexpectedContent ∨ e = unexpectedCharacter

/-- The outcome for a text, according to whether it has an unexpected character. -/
def ReadOrRejected (ok : Bool) (r : Except TextFault (CppInt w)) : Prop :=
  (ok = true ∧ ∃ y, r = .ok y) ∨ (ok = false ∧ ∃ e : TextFault, e.Unexpected ∧ r = .error e)

theorem ReadOrRejected.map {ok : Bool} {r : Except TextFault (CppInt w)} (h : ReadOrRejected ok r)
    (f : CppInt w → CppInt w) : ReadOrRejected ok (r.map f) := by
  rcases h with ⟨hok, y, rfl⟩ | ⟨hok, e, he, rfl⟩
  · exact Or.inl ⟨hok, f y, rfl⟩
  · exact Or.inr ⟨hok, e, he, rfl⟩

theorem readOrRejected_digits {val : Char → Option ℕ} {r : Except TextFault (CppInt w)}
    (hread : ∀ ds, Spells val s ds → ∃ y, r = .ok y)
    (hreject : none ∈ s.map val → ∃ e : TextFault, e.Unexpected ∧ r = .error e) :
    ReadOrRejected (s.all fun c => (val c).isSome) r := by
  cases h : s.all fun c => (val c).isSome with
  | true =>
    obtain ⟨ds, hds⟩ := exists_spells h
    exact Or.inl ⟨rfl, hread ds hds⟩
  | false => exact Or.inr ⟨rfl, hreject (none_mem_map h)⟩

theorem assignMagnitude_readOrRejected (hw : LimbWidth w) (p : ℕ → BitVec w) (s : List Char) :
    ReadOrRejected (readableMagnitude s) (assignMagnitude p s) := by
  unfold readableMagnitude
  split
  · rename_i c s
    split
    · rename_i hx
      refine readOrRejected_digits (fun ds hds => ?_) fun h =>
        ⟨_, Or.inl rfl, assignMagnitude_hex_error p hx h⟩
      obtain ⟨y, hy, -⟩ := assignMagnitude_hex hw p hx hds
      exact ⟨y, hy⟩
    · rename_i hx
      rw [assignMagnitude_octal p hx]
      refine (readOrRejected_digits (fun ds hds => ?_) fun h =>
        ⟨_, Or.inl rfl, octLoop_error (none_mem_dropWhile (by decide) h) _ _⟩).map _
      obtain ⟨es, hes, -⟩ := hds.dropWhile_zero (show octVal '0' = some 0 by decide) 8
      obtain ⟨y, hy, -⟩ := octLoop_keeps (P := fun _ : CppInt w => True) (fun _ _ _ _ => trivial) hes
        _ _ trivial
      exact ⟨y, hy⟩
  · rename_i hnot
    rcases Decidable.eq_or_ne s ['0'] with rfl | hzero
    · exact Or.inl ⟨by decide, _, rfl⟩
    · have h₀ : s.head? ≠ some '0' := by
        intro h
        obtain ⟨t, rfl⟩ := head?_eq_some_iff.mp h
        cases t with
        | nil => exact hzero rfl
        | cons c t => exact hnot c t rfl
      refine readOrRejected_digits (fun ds hds => ?_) fun h =>
        ⟨_, Or.inr rfl, assignMagnitude_decimal_error hw p h h₀⟩
      obtain ⟨y, hy, -⟩ := assignMagnitude_decimal hw p hds h₀
      exact ⟨y, hy⟩

/-- **`do_assign_string` returns** for the readable texts and rejects the others. -/
theorem doAssignString_readOrRejected (hw : LimbWidth w) (p : ℕ → BitVec w) (s : List Char) :
    ReadOrRejected (readable s) (doAssignString p s) := by
  unfold readable
  split
  · exact (assignMagnitude_readOrRejected hw p _).map negate
  · rename_i hnot
    have e : doAssignString p s = assignMagnitude p s := by
      unfold doAssignString
      split
      · exact absurd rfl (hnot _)
      · rfl
    rw [e]
    exact assignMagnitude_readOrRejected hw p s

/-! ### The object assigned to -/

/-- `operator=(const char*)`: what the object `v` holds afterwards, and the exception.  It is set to
zero first; the result takes its place only at the end. -/
def assignString (v : CppInt w) (p : ℕ → BitVec w) (s : List Char) : CppInt w × Option TextFault :=
  let v := v.assignLimb 0
  match doAssignString p s with
  | .ok result => (result, none)
  | .error e => (v, some e)

/-- The exception for an unexpected character leaves the object with the value it had. -/
def UnchangedOnThrow (v : CppInt w) (p : ℕ → BitVec w) (s : List Char) : Prop :=
  ∀ e : TextFault, e.Unexpected → (assignString v p s).2 = some e →
    (assignString v p s).1.Represents v.toInt

theorem assignString_error (v : CppInt w) {p : ℕ → BitVec w} {e : TextFault}
    (h : doAssignString p s = .error e) : assignString v p s = (v.assignLimb 0, some e) := by
  rw [assignString, h]

/-- **A rejected text** leaves the object as it was if and only if the object was zero. -/
theorem assignString_unchanged_iff (hw : LimbWidth w) (v : CppInt w) (p : ℕ → BitVec w) (s : List Char) :
    UnchangedOnThrow v p s ↔ v.toInt = 0 ∨ readable s = true := by
  have hzero : (v.assignLimb 0).Represents 0 := by simpa using v.assignLimb_spec 0
  rcases doAssignString_readOrRejected hw p s with ⟨hread, y, hy⟩ | ⟨hread, e, he, hs⟩
  · refine iff_of_true (fun e _ hthrow => ?_) (Or.inr hread)
    rw [assignString, hy] at hthrow
    cases hthrow
  · rw [UnchangedOnThrow, assignString_error v hs]
    constructor
    · intro hall
      have hrep := hall e he rfl
      exact Or.inl (hrep.toInt_eq.symm.trans hzero.toInt_eq)
    · rintro (hv | hr)
      · intro _ _ _
        rw [hv]
        exact hzero
      · rw [hread] at hr
        cases hr

/-- A readable text raises no exception. -/
theorem assignString_unchanged_iff_seven : UnchangedOnThrow (⟨fun _ => 7, 1, false⟩ : CppInt 32)
    (fun _ => BitVec.allOnes 32) ['-', '0', 'x', 'f'] :=
  (assignString_unchanged_iff (Or.inl rfl) _ _ _).mpr (Or.inr rfl)

/-- `5 = "12a"` throws and leaves zero. -/
theorem assignString_loses_value : ¬ UnchangedOnThrow (⟨fun _ => 5, 1, false⟩ : CppInt 32)
    (fun _ => 0) ['1', '2', 'a'] := by
  intro hall
  have hs : doAssignString (fun _ : ℕ => (0 : BitVec 32)) ['1', '2', 'a'] = .error unexpectedCharacter := rfl
  have hrep := hall _ (Or.inr rfl) (by rw [assignString_error _ hs])
  rw [assignString_error _ hs] at hrep
  exact absurd hrep.toInt_eq (by decide)

end SourceLibs.CppInt
