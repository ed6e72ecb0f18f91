import SourceLibs.CppInt.RightShift
import SourceLibs.CppInt.Text

/-!
# CppInt — the text round trip

What `do_get_string` prints, and that `do_assign_string` reads it back.

* `getBits_hex`: hexadecimal text spells the number modulo `2 ^ Bits`.
* `blocksLoop_of_lt`, `blocksLoop_returns`: decimal text spells the number when the text has room
  for it, and has never more digits than the room.
-/

namespace SourceLibs.CppInt
open List Nat Radix

variable {w : ℕ} {x : CppInt w} {ds : List ℕ}

/-! ### Shifting right -/

theorem rightShiftGeneric_within [NeZero w] (hx : 0 < x.size) {s : ℕ} (hs : s < w) :
    (rightShiftGeneric x s).mag = x.mag >>> s ∧ 0 < (rightShiftGeneric x s).size := by
  have h := (rightShiftGeneric_spec hx (s := s) (by
    rw [div_eq_of_lt hs]
    exact Nat.two_pow_pos w)).1
  exact ⟨by rw [h.mag_eq, Nat.shiftRight_eq_div_pow], h.size_pos⟩

/-! ### Writing characters -/

/-- The text while it is written: zeros in front, digits behind. -/
theorem putChar_replicate (n : ℕ) (D : List Char) (c : Char) :
    putChar (List.replicate (n + 1) '0' ++ D) n c = .ok (List.replicate n '0' ++ c :: D) := by
  rw [putChar, if_pos (by simp; omega), Int.toNat_natCast, List.replicate_succ', List.append_assoc,
    set_append_right _ _ (by simp)]
  simp

theorem putChar_negative {result : List Char} {pos : ℤ} (h : pos < 0) (c : Char) :
    putChar result pos c = .error .undefined := by
  rw [putChar, if_neg (by omega)]

theorem toNat_limbs_zero (hx : 0 < x.size) : (x.limbs 0).toNat = x.mag % 2 ^ w := by
  obtain ⟨n, hn⟩ := exists_eq_add_one_of_ne_zero (Nat.pos_iff_ne_zero.mp hx)
  have h := value_split (2 ^ w) (fun i => (x.limbs i).toNat) 1 n
  rw [mag, natOf, hn, Nat.add_comm n 1, h, value_one, pow_one, add_mul_mod_self_left,
    mod_eq_of_lt (x.limbs 0).isLt]

theorem toNat_low_bits (hx : 0 < x.size) {s : ℕ} (hs : s ≤ w) :
    (x.limbs 0 &&& BitVec.ofNat w (2 ^ s - 1)).toNat = x.mag % 2 ^ s := by
  have hpow : 2 ^ s ≤ 2 ^ w := Nat.pow_le_pow_right (by decide) hs
  have hpos := Nat.two_pow_pos s
  rw [BitVec.toNat_and, BitVec.toNat_ofNat, mod_eq_of_lt (a := 2 ^ s - 1) (by omega),
    and_two_pow_sub_one_eq_mod, toNat_limbs_zero hx, mod_mod_of_dvd _ (Nat.pow_dvd_pow 2 hs)]

/-! ### Hexadecimal text -/

/-- **The hexadecimal loop** spells the low digits. -/
theorem bitsLoop_spec (hw : LimbWidth w) (n : ℕ) {t : CppInt w} (ht : 0 < t.size) {D : List Char}
    (hD : Spells hexVal D ds) :
    ∃ t' R es, bitsLoop 4 (BitVec.ofNat w (2 ^ 4 - 1)) n t (List.replicate n '0' ++ D) (n - 1) =
        .ok (t', R, -1) ∧
      Spells hexVal R (es ++ ds) ∧ positional 16 es = t.mag % 16 ^ n := by
  have : NeZero w := ⟨by rcases hw with rfl | rfl <;> decide⟩
  have h4 : 4 < w := by rcases hw with rfl | rfl <;> decide
  induction n generalizing t D ds with
  | zero => exact ⟨t, D, [], rfl, hD, by rw [pow_zero, mod_one]; rfl⟩
  | succ n ih =>
    have hdigit := toNat_low_bits ht (s := 4) (by omega)
    have hd : t.mag % 2 ^ 4 < 16 := mod_lt _ (by decide)
    obtain ⟨hshift, hpos⟩ := rightShiftGeneric_within ht h4
    obtain ⟨t', R, es, hR, hspell, hval⟩ := ih hpos (hD.cons (hexVal_digitChar hd))
    refine ⟨t', R, es ++ [t.mag % 2 ^ 4], ?_, by rwa [List.append_assoc], ?_⟩
    · rw [bitsLoop, show ((n + 1 : ℕ) : ℤ) - 1 = n by omega, putChar_replicate, hdigit]
      exact hR
    · rw [positional_append, hval, hshift, Nat.shiftRight_eq_div_pow, pow_succ 16 n,
        Nat.mul_comm (16 ^ n) 16, mod_mul, positional_cons]
      simp only [length_singleton, length_nil, positional, horner, foldl_nil,
        show 2 ^ 4 = 16 from rfl]
      omega

theorem spells_replicate_zero {val : Char → Option ℕ} (hval : val '0' = some 0) (n : ℕ) :
    Spells val (List.replicate n '0') (List.replicate n 0) := by
  rw [Spells, map_replicate, map_replicate, hval]

theorem Spells.unique {val : Char → Option ℕ} {s : List Char} {ds es : List ℕ}
    (h : Spells val s ds) (h' : Spells val s es) : ds = es :=
  map_injective_iff.mpr (Option.some_injective ℕ) (h.symm.trans h')

theorem trimBits_spells {s : List Char} (h : Spells hexVal s ds) :
    ∃ ds', Spells hexVal (trimBits s) ds' ∧ positional 16 ds' = positional 16 ds := by
  have h₀ : hexVal '0' = some 0 := by decide
  rw [trimBits]
  split
  · rename_i hall
    have hs : s = List.replicate s.length '0' := eq_replicate_of_mem fun c hc => by
      simpa using List.all_eq_true.mp hall c hc
    have hds : ds = List.replicate s.length 0 := h.unique (by
      rw [hs, length_replicate]
      exact spells_replicate_zero h₀ _)
    refine ⟨List.replicate (s.length - (s.length - 1)) 0, ?_, ?_⟩
    · rw [hs, length_replicate, drop_replicate]
      exact spells_replicate_zero h₀ _
    · have e := fun n => positional_replicate_zero 16 n []
      simp only [append_nil] at e
      rw [hds, e, e]
  · exact h.dropWhile_zero h₀ 16

/-- **Hexadecimal text** spells the number modulo `2 ^ Bits`. -/
theorem getBits_hex (hw : LimbWidth w) (hx : 0 < x.size) (hsign : x.sign = false) :
    ∃ s ds, getBits x 4 (some ['0', 'x']) = .ok ('0' :: 'x' :: s) ∧ Spells hexVal s ds ∧
      positional 16 ds = x.mag % 2 ^ uint (x.size * w) := by
  have h4 : uint (x.size * w) % 4 = 0 := by
    rw [uint]
    rcases hw with rfl | rfl <;> omega
  obtain ⟨t, R, es, hR, hspell, hval⟩ := bitsLoop_spec hw (uint (x.size * w) / 4) hx
    (show Spells hexVal [] [] from rfl)
  rw [append_nil] at hR hspell
  obtain ⟨ds, hds, hv⟩ := trimBits_spells hspell
  refine ⟨trimBits R, ds, ?_, hds, ?_⟩
  · simp only [getBits, hsign, Bool.false_eq_true, if_false, h4, ne_eq, not_true_eq_false,
      Nat.add_zero, length_replicate, hR, ok_bind, putRest]
    rfl
  · rw [hv, hval, sixteen_pow, show 4 * (uint (x.size * w) / 4) = uint (x.size * w) by omega]

/-! ### Decimal text -/

theorem toNat_div_mod_ten (hw : LimbWidth w) (v : BitVec w) :
    (v % 10).toNat = v.toNat % 10 ∧ (v / 10).toNat = v.toNat / 10 := by
  have hten : (10 : BitVec w).toNat = 10 := by
    rcases hw with rfl | rfl <;> rfl
  exact ⟨by rw [BitVec.toNat_umod, hten], by rw [BitVec.toNat_udiv, hten]⟩

/-- **The digits of a block**, as many as there is room for. -/
theorem putBlock_spec (hw : LimbWidth w) (k : ℕ) (v : BitVec w) {n : ℕ} (hn : 0 < n)
    {D : List Char} (hD : Spells decVal D ds) :
    ∃ D' es, putBlock k v (List.replicate n '0' ++ D) (n - 1) =
        .ok (List.replicate (n - min k n) '0' ++ D', ((n - min k n : ℕ) : ℤ) - 1) ∧
      Spells decVal D' (es ++ ds) ∧ es.length = min k n ∧
      positional 10 es = v.toNat % 10 ^ min k n := by
  induction k generalizing n v D ds with
  | zero => exact ⟨D, [], by simp [putBlock], hD, by simp, by simp [positional, horner, mod_one]⟩
  | succ k ih =>
    obtain ⟨m, rfl⟩ := exists_eq_add_one_of_ne_zero (Nat.pos_iff_ne_zero.mp hn)
    obtain ⟨hmod, hdiv⟩ := toNat_div_mod_ten hw v
    have hput := hD.cons (decVal_digitChar (mod_lt v.toNat (show 0 < 10 by decide)))
    rw [putBlock, show ((m + 1 : ℕ) : ℤ) - 1 = m by omega, putChar_replicate, hmod, ok_bind]
    rcases Nat.eq_zero_or_pos m with rfl | hm
    · refine ⟨_, [v.toNat % 10], ?_, hput, ?_, ?_⟩
      · simp
      · simp
      · simp [positional, horner]
    · rw [if_neg (by omega)]
      obtain ⟨D', es, hR, hspell, hlen, hval⟩ := ih (v / 10) hm hput
      refine ⟨D', es ++ [v.toNat % 10], ?_, by rwa [List.append_assoc], by simp [hlen], ?_⟩
      · rw [hR, show m - min k m = m + 1 - min (k + 1) (m + 1) by omega]
      · rw [show min (k + 1) (m + 1) = min k m + 1 by omega, positional_append, hval, hdiv,
          pow_succ, Nat.mul_comm _ 10, mod_mul, positional_cons]
        simp only [length_singleton, length_nil, positional, horner, foldl_nil]
        omega

theorem blocksLoop_succ (hw : LimbWidth w) (fuel : ℕ) {t r : CppInt w} (ht : t.Canonical)
    (htm : t.size ≤ maxLimbs w) (hts : t.sign = false) (hne : t.mag ≠ 0) (result : List Char) (pos : ℤ) :
    ∃ (t' r' : CppInt w) (v : BitVec w), t'.Canonical ∧ t'.size ≤ maxLimbs w ∧ t'.sign = false ∧
      t'.mag = t.mag / 10 ^ digitsPerBlock10 w ∧ v.toNat = t.mag % 10 ^ digitsPerBlock10 w ∧
      blocksLoop (fuel + 1) t r result pos =
        (putBlock (digitsPerBlock10 w) v result pos >>= fun y => blocksLoop fuel t' r' y.1 y.2) := by
  have hb := assignLimb_spec (zero w) (maxBlock10 w)
  have hbm := hb.mag_eq
  rw [Int.natAbs_natCast, hw.toNat_maxBlock10] at hbm
  obtain ⟨res, r', hdiv, hr', hsome, hq⟩ := divideUnsignedHelper_spec hw.lt (some (zero w)) r ht
    hts htm hb.canonical (hb.sign_of_nonneg (Int.natCast_nonneg _))
      ((size_assignLimb _ _).trans_le maxLimbs_pos)
    (by rw [hbm]; positivity) (Or.inr (Or.inl (size_assignLimb _ _))) (Nat.le_refl _)
  obtain ⟨q, rfl⟩ := Option.isSome_iff_exists.mp hsome
  have hq := hq q rfl
  rw [hbm] at hq hr'
  have hassign := assign_spec t hq.canonical
  rw [hq.toInt_eq] at hassign
  have hfit : Fits w ((t.mag / 10 ^ digitsPerBlock10 w : ℕ) : ℤ) :=
    (Nat.div_le_self _ _).trans_lt (mag_lt_max htm)
  refine ⟨t.assign q, r', r'.limbs 0, hassign.canonical, hassign.size_le hfit,
    hassign.sign_of_nonneg (Int.natCast_nonneg _), ?_, ?_, ?_⟩
  · rw [hassign.mag_eq, Int.natAbs_natCast]
  · rw [toNat_limbs_zero hr'.canonical.1.1, hr'.mag_eq, Int.natAbs_natCast]
    exact mod_eq_of_lt ((mod_lt _ (by positivity)).trans hw.ten_pow_lt)
  · rw [blocksLoop, ht.1.evalGetSign_ne_zero, decide_eq_true hne, if_pos rfl, hdiv]

theorem blocksLoop_zero {t r : CppInt w} (ht : t.Canonical) (h₀ : t.mag = 0) (fuel : ℕ)
    (result : List Char) (pos : ℤ) : blocksLoop (fuel + 1) t r result pos = .ok result := by
  rw [blocksLoop, ht.1.evalGetSign_ne_zero]
  simp [h₀]

/-- **Decimal digits** of a number that fits the room. -/
theorem blocksLoop_of_lt (hw : LimbWidth w) (fuel : ℕ) {t r : CppInt w} (ht : t.Canonical)
    (htm : t.size ≤ maxLimbs w) (hts : t.sign = false) (hfuel : t.mag < fuel) {n : ℕ}
    (hroom : t.mag < 10 ^ n) {D : List Char}
    (hD : Spells decVal D ds) :
    ∃ R es, blocksLoop fuel t r (List.replicate n '0' ++ D) (n - 1) = .ok R ∧ Spells decVal R es ∧
      positional 10 es = t.mag * 10 ^ ds.length + positional 10 ds := by
  induction fuel generalizing t r n D ds with
  | zero => omega
  | succ fuel ih =>
    by_cases h₀ : t.mag = 0
    · refine ⟨_, _, blocksLoop_zero ht h₀ _ _ _, (spells_replicate_zero (by decide) n).append hD, ?_⟩
      rw [positional_replicate_zero, h₀, Nat.zero_mul, Nat.zero_add]
    · have hn : 0 < n := by
        rcases Nat.eq_zero_or_pos n with rfl | hn
        · rw [pow_zero] at hroom
          omega
        · exact hn
      obtain ⟨t', r', v, ht', htm', hts', hmag, hv, hloop⟩ := blocksLoop_succ hw fuel ht htm hts h₀
        (List.replicate n '0' ++ D) (n - 1) (r := r)
      obtain ⟨D', es, hput, hspell, hlen, hval⟩ := putBlock_spec hw (digitsPerBlock10 w) v hn hD
      have hB := digitsPerBlock10_pos w
      generalize digitsPerBlock10 w = B at *
      -- the digits left over after the room is used up are zeros
      have hsplit : t.mag = t'.mag * 10 ^ min B n + v.toNat % 10 ^ min B n ∧
          t'.mag < 10 ^ (n - min B n) := by
        rw [hmag, hv]
        rcases Nat.le_total B n with hle | hle
        · rw [Nat.min_eq_left hle, mod_mod, Nat.mul_comm, div_add_mod]
          refine ⟨rfl, Nat.div_lt_of_lt_mul ?_⟩
          rwa [← pow_add, Nat.add_sub_cancel' hle]
        · have hlt : t.mag < 10 ^ B := hroom.trans_le (Nat.pow_le_pow_right (by decide) hle)
          rw [Nat.min_eq_right hle, div_eq_of_lt hlt, mod_eq_of_lt hlt,
            mod_eq_of_lt hroom, Nat.sub_self]
          exact ⟨by omega, by decide⟩
      have hdec : t'.mag < t.mag := by
        rw [hmag]
        exact Nat.div_lt_self (Nat.pos_of_ne_zero h₀) (one_lt_pow (by omega) (by decide))
      obtain ⟨R, fs, hR, hR', hRv⟩ := ih (r := r') ht' htm' hts' (by omega) hsplit.2 hspell
      refine ⟨R, fs, ?_, hR', ?_⟩
      · rw [hloop, hput, ok_bind]
        exact hR
      · rw [hRv, length_append, hlen, positional_append, hval, pow_add]
        rw [hsplit.1]
        ring

theorem blocksLoop_returns (hw : LimbWidth w) (fuel : ℕ) {t r : CppInt w} (ht : t.Canonical)
    (htm : t.size ≤ maxLimbs w) (hts : t.sign = false) {n : ℕ} {D : List Char}
    (hD : Spells decVal D ds) {R : List Char}
    (hR : blocksLoop fuel t r (List.replicate n '0' ++ D) (n - 1) = .ok R) :
    ∃ es, Spells decVal R es ∧ es.length = n + ds.length := by
  induction fuel generalizing t r n D ds with
  | zero => cases hR
  | succ fuel ih =>
    by_cases h₀ : t.mag = 0
    · rw [blocksLoop_zero ht h₀] at hR
      cases hR
      exact ⟨_, (spells_replicate_zero (by decide) n).append hD, by simp⟩
    · obtain ⟨t', r', v, ht', htm', hts', -, -, hloop⟩ := blocksLoop_succ hw fuel ht htm hts h₀
        (List.replicate n '0' ++ D) (n - 1) (r := r)
      rw [hloop] at hR
      rcases Nat.eq_zero_or_pos n with rfl | hn
      · obtain ⟨k, hk⟩ := exists_eq_add_one_of_ne_zero (digitsPerBlock10_pos w).ne'
        rw [hk, putBlock, putChar_negative (by decide)] at hR
        cases hR
      · obtain ⟨D', es, hput, hspell, hlen, -⟩ := putBlock_spec hw (digitsPerBlock10 w) v hn hD
        rw [hput, ok_bind] at hR
        obtain ⟨fs, hfs, hlen'⟩ := ih ht' htm' hts' hspell hR
        exact ⟨fs, hfs, by rw [hlen', length_append, hlen]; omega⟩

theorem spells_toDigits (n : ℕ) :
    ∃ ds, Spells decVal (Nat.toDigits 10 n) ds ∧ positional 10 ds = n := by
  have hdigit : ∀ d < 10, decVal (Nat.digitChar d) = some d := by decide
  induction n using Nat.strong_induction_on with
  | h n ih =>
    rw [toDigits_eq_if (by decide)]
    split
    · rename_i hlt
      exact ⟨[n], by rw [Spells, map_singleton, hdigit n hlt]; rfl, by simp [positional, horner]⟩
    · rename_i hge
      obtain ⟨ds, hds, hv⟩ := ih (n / 10) (by omega)
      refine ⟨ds ++ [n % 10], hds.append ?_, ?_⟩
      · rw [Spells, map_singleton, hdigit _ (mod_lt _ (by decide))]
        rfl
      · rw [positional_append, hv, positional_cons]
        simp only [length_singleton, length_nil, positional, horner, foldl_nil]
        omega

/-! ### The round trip -/

/-- `Bits` of a number did not wrap. -/
def BitsFit (x : CppInt w) : Prop := x.size * w < 2 ^ 32

theorem mag_lt_two_pow (x : CppInt w) : x.mag < 2 ^ (x.size * w) := by
  have h := mag_lt x
  rwa [← pow_mul, Nat.mul_comm] at h

theorem toInt_eq_signed (x : CppInt w) : x.toInt = signed x.sign x.mag := rfl

theorem doAssignString_trimDecimal (hw : LimbWidth w) (p : ℕ → BitVec w) (neg : Bool)
    {R : List Char} (h : Spells decVal R ds) :
    (∃ y, doAssignString p (signText neg (trimDecimal R)) = .ok y ∧
      y.Represents (signed neg (positional 10 ds))) ↔ Fits w (positional 10 ds) := by
  obtain ⟨ds', h', hv⟩ := h.dropWhile_zero (by decide) 10
  rw [trimDecimal, ← hv]
  split
  · rename_i hnil
    rw [hnil] at h'
    obtain rfl : ds' = [] := length_eq_zero_iff.mp h'.length_eq.symm
    exact doAssignString_iff neg (fun _ => by decide)
      ⟨_, rfl, maxLimbs_pos, fun _ => newObject_represents p⟩
  · have hhead := head?_dropWhile_zero R
    refine doAssignString_iff neg (fun _ hc => ?_) (assignMagnitude_decimal hw p h' hhead)
    obtain ⟨s, hs⟩ := head?_eq_some_iff.mp hc
    rw [hs] at h'
    obtain ⟨d, -, -, hd, -⟩ := h'.of_cons
    rw [show decVal '-' = none by decide] at hd
    cases hd

theorem unsigned_spec (hx : x.Canonical) :
    (if x.sign then x.negate else x).Canonical ∧ (if x.sign then x.negate else x).sign = false ∧
      (if x.sign then x.negate else x).mag = x.mag ∧
      (if x.sign then x.negate else x).size = x.size := by
  cases hs : x.sign with
  | false => exact ⟨hx, hs, rfl, rfl⟩
  | true =>
    have h := hx.negate
    refine ⟨h.canonical, h.sign_of_nonneg ?_, rfl, rfl⟩
    rw [toInt_eq_signed, hs, signed, if_pos rfl]
    omega

theorem decimalDigits_of_fits (hw : LimbWidth w) (hx : x.Canonical) (hxm : x.size ≤ maxLimbs w)
    (hfit : BitsFit x) :
    ∃ R ds, decimalDigits x = .ok R ∧ Spells decVal R ds ∧ positional 10 ds = x.mag := by
  obtain ⟨ht, hts, htm, hsize⟩ := unsigned_spec hx
  rw [decimalDigits]
  split
  · rename_i h₁
    obtain ⟨ds, hds, hv⟩ := spells_toDigits x.mag
    refine ⟨_, ds, ?_, hds, hv⟩
    rw [mag, h₁, natOf_one]
    cases x.sign <;> rfl
  · have hroom : x.mag < 10 ^ (uint (x.size * w) / 3 + 1) := by
      have hbits := mag_lt_two_pow x
      rw [uint_of_lt hfit]
      generalize x.size * w = bits at *
      calc x.mag < 2 ^ bits := hbits
        _ ≤ 2 ^ (3 * (bits / 3 + 1)) := Nat.pow_le_pow_right (by decide) (by omega)
        _ = 8 ^ (bits / 3 + 1) := pow_mul 2 3 _
        _ ≤ 10 ^ (bits / 3 + 1) := Nat.pow_le_pow_left (by decide) _
    rw [← htm] at hroom
    obtain ⟨R, es, hR, hspell, hv⟩ := blocksLoop_of_lt hw _ (r := zero w) ht
      (hsize.trans_le hxm) hts (Nat.lt_succ_self _)
      hroom (show Spells decVal [] [] from rfl)
    refine ⟨R, es, ?_, hspell, ?_⟩
    · rw [append_nil] at hR
      simp only [length_replicate]
      exact hR
    · rw [hv, htm]
      simp [positional, horner]

theorem decimalDigits_of_not_fits (hw : LimbWidth w) (hx : x.Canonical) (hxm : x.size ≤ maxLimbs w)
    (hfit : ¬ BitsFit x)
    {R : List Char} (hR : decimalDigits x = .ok R) :
    ∃ ds, Spells decVal R ds ∧ positional 10 ds < x.mag := by
  obtain ⟨ht, hts, htm, hsize⟩ := unsigned_spec hx
  rw [BitsFit, Nat.not_lt] at hfit
  have h₁ : x.size ≠ 1 := by
    intro h₁
    rw [h₁] at hfit
    rcases hw with rfl | rfl <;> omega
  rw [decimalDigits, if_neg h₁] at hR
  simp only [length_replicate] at hR
  obtain ⟨ds, hds, hlen⟩ := blocksLoop_returns hw _ ht (hsize.trans_le hxm) hts
    (show Spells decVal [] [] from rfl)
    (by rw [append_nil]; exact hR)
  refine ⟨ds, hds, (positional_lt (hds.lt decVal_lt)).trans_le ?_⟩
  have hbig := hx.1.pow_le h₁
  rw [← pow_mul] at hbig
  have hsz : w * (x.size - 1) = x.size * w - w := by rw [Nat.mul_sub, Nat.mul_one, Nat.mul_comm]
  have hw' : w ≤ 64 := by rcases hw with rfl | rfl <;> decide
  rw [hlen, length_nil, Nat.add_zero, uint]
  generalize x.size * w = bits at *
  calc 10 ^ (bits % 2 ^ 32 / 3 + 1) ≤ 16 ^ (bits % 2 ^ 32 / 3 + 1) := Nat.pow_le_pow_left (by decide) _
    _ = 2 ^ (4 * (bits % 2 ^ 32 / 3 + 1)) := sixteen_pow _
    _ ≤ 2 ^ (w * (x.size - 1)) := Nat.pow_le_pow_right (by decide) (by omega)
    _ ≤ x.mag := hbig

/-- `x` printed with the flags `f` and read back is `x`. -/
def RoundTrips (p : ℕ → BitVec w) (f : FmtFlags) (x : CppInt w) : Prop :=
  ∃ s y, doGetString x f = .ok s ∧ doAssignString p s = .ok y ∧ y.Represents x.toInt

theorem signed_inj {neg : Bool} {m n : ℕ} (h : signed neg m = signed neg n) : m = n := by
  cases neg <;> simpa [signed] using h

/-- **Decimal.** -/
theorem roundTrips_decimal_iff (hw : LimbWidth w) (p : ℕ → BitVec w) (hx : x.Canonical)
    (hxm : x.size ≤ maxLimbs w) : RoundTrips p {} x ↔ BitsFit x := by
  have hget : ∀ R, decimalDigits x = .ok R →
      doGetString x {} = .ok (signText x.sign (trimDecimal R)) := by
    intro R hR
    show getDecimal x false = _
    rw [getDecimal, hR]
    rfl
  have hxfit := mag_lt_max hxm
  constructor
  · rintro ⟨s, y, hs, hy, hrep⟩
    by_contra hfit
    have hs' : getDecimal x false = .ok s := hs
    cases hR : decimalDigits x with
    | error e =>
      rw [getDecimal, hR] at hs'
      cases hs'
    | ok R =>
      obtain ⟨ds, hds, hlt⟩ := decimalDigits_of_not_fits hw hx hxm hfit hR
      obtain ⟨y', hy', hrep'⟩ := (doAssignString_trimDecimal hw p x.sign hds).mpr (hlt.trans hxfit)
      rw [hget R hR] at hs
      cases hs
      rw [hy'] at hy
      cases hy
      have := signed_inj (hrep'.toInt_eq.symm.trans hrep.toInt_eq)
      omega
  · intro hfit
    obtain ⟨R, ds, hR, hds, hv⟩ := decimalDigits_of_fits hw hx hxm hfit
    obtain ⟨y, hy, hrep⟩ := (doAssignString_trimDecimal hw p x.sign hds).mpr (by rw [hv]; exact hxfit)
    refine ⟨_, y, hget R hR, hy, ?_⟩
    rwa [hv] at hrep

/-- **Hexadecimal.** -/
theorem roundTrips_hex_iff (hw : LimbWidth w) (p : ℕ → BitVec w) (hx : x.Canonical)
    (hxm : x.size ≤ maxLimbs w) (hnn : 0 ≤ x.toInt) :
    RoundTrips p { hex := true, showbase := true } x ↔ BitsFit x := by
  have hsign : x.sign = false := by
    rw [hx.sign_eq]
    exact decide_eq_false (Int.not_lt.mpr hnn)
  obtain ⟨s, ds, hs, hspell, hv⟩ := getBits_hex hw hx.1.1 hsign
  have hle : positional 16 ds ≤ x.mag := by
    rw [hv]
    exact mod_le _ _
  obtain ⟨y, hy, hrep⟩ := (doAssignString_iff false (by simp)
    (assignMagnitude_hex hw p (Or.inl rfl) hspell)).mpr (hle.trans_lt (mag_lt_max hxm))
  have hget : doGetString x { hex := true, showbase := true } = .ok ('0' :: 'x' :: s) := hs
  have hx' : x.toInt = signed false x.mag := by rw [toInt_eq_signed, hsign]
  constructor
  · rintro ⟨s', y', hs', hy', hrep'⟩
    rw [hget] at hs'
    cases hs'
    rw [show signText false ('0' :: 'x' :: s) = '0' :: 'x' :: s from rfl, hy'] at hy
    cases hy
    have he := signed_inj ((hrep.toInt_eq.symm.trans hrep'.toInt_eq).trans hx')
    -- a number printed modulo `2 ^ Bits` is itself only below `2 ^ Bits`
    have hlt : x.mag < 2 ^ uint (x.size * w) := by
      rw [← he, hv]
      exact mod_lt _ (Nat.two_pow_pos _)
    by_contra hfit
    rw [BitsFit, Nat.not_lt] at hfit
    have h₁ : x.size ≠ 1 := by
      intro h₁
      rw [h₁] at hfit
      rcases hw with rfl | rfl <;> omega
    have hbig := (hx.1.pow_le h₁).trans_lt hlt
    rw [← pow_mul, Nat.pow_lt_pow_iff_right (by decide)] at hbig
    have hsz : w * (x.size - 1) = x.size * w - w := by rw [Nat.mul_sub, Nat.mul_one, Nat.mul_comm]
    have hw' : w ≤ 64 := by rcases hw with rfl | rfl <;> decide
    rw [uint] at hbig
    generalize x.size * w = bits at *
    omega
  · intro hfit
    refine ⟨_, y, hget, hy, ?_⟩
    rw [hv, uint_of_lt hfit, mod_eq_of_lt (mag_lt_two_pow x)] at hrep
    rwa [hx']

end SourceLibs.CppInt
