import SourceLibs.Crc.Crc

/-!
# Crc — augmented messages

`augmented_crc` of `crc.hpp`: the next byte of the message enters at the low end of the remainder,
so that the message has to be followed by as many zeros as the remainder is wide.  The bits are a
multiple of `CHAR_BIT`.

* `setWidth_augmentedStep`: a byte is eight zeros of the register, and the byte in its low end.
* `augmented_lags`: the register of the ordinary computer is the augmented one after `Bits` zeros.
* `augmentedCrc_eq`: the augmented checksum of a message followed by zeros, and by its checksum.
-/

namespace SourceLibs.Crc
open List BitVec

open ShiftRegister

variable {n W : ℕ}

/-! ### The source -/

/-- The loop body of `augmented_crc`. -/
def augmentedStep (truncPoly : BitVec n) (rem : BitVec W) (p : BitVec 8) : BitVec W :=
  let byteIndex : BitVec 8 := (rem >>> (n - 8)).setWidth 8
  let rem := rem <<< 8
  let rem := rem ||| p.setWidth W
  rem ^^^ initTable n (truncPoly.setWidth W) false byteIndex

def augmentedCrc (W : ℕ) (truncPoly : BitVec n) (buffer : List (BitVec 8))
    (initialRemainder : BitVec W) : BitVec W :=
  buffer.foldl (augmentedStep truncPoly) initialRemainder &&& sigBits W n

/-- The `n / 8` bytes of a checksum, the high one first. -/
def bigEndian (n : ℕ) (checksum : BitVec W) : List (BitVec 8) :=
  (List.range (n / 8)).map fun i => (checksum >>> (n - 8 * (i + 1))).setWidth 8

/-! ### The register -/

/-- A byte of the augmented message. -/
def augment (poly ρ : BitVec n) (p : BitVec 8) : BitVec n := zeros poly ρ 8 ^^^ p.setWidth n

/-- **A byte** is eight zeros of the register, and the byte in its low end. -/
theorem setWidth_augmentedStep (h8 : 8 ≤ n) (hW : n ≤ W) (truncPoly : BitVec n) (rem : BitVec W)
    (p : BitVec 8) :
    (augmentedStep truncPoly rem p).setWidth n = augment truncPoly (rem.setWidth n) p := by
  have hor : (rem <<< 8 ||| p.setWidth W).setWidth n =
      rem.setWidth n <<< 8 ^^^ p.setWidth n := by
    refine eq_of_getLsbD_eq fun i hi => ?_
    rw [getLsbD_setWidth, getLsbD_or, getLsbD_xor, getLsbD_shiftLeft,
      getLsbD_shiftLeft, getLsbD_setWidth, getLsbD_setWidth,
      getLsbD_setWidth]
    by_cases hlow : i < 8
    · simp [hlow, hi, show i < W by omega]
    · simp [hlow, hi, show i < W by omega, show i - 8 < n by omega,
        getLsbD_of_ge p i (by omega)]
  have hindex : ∀ j < 8, ((rem >>> (n - 8)).setWidth 8).getMsbD j =
      (rem.setWidth n).getMsbD j := by
    intro j hj
    rw [getMsbD_eq_getLsbD, getMsbD_eq_getLsbD, getLsbD_setWidth,
      getLsbD_ushiftRight, getLsbD_setWidth]
    simp [hj, show 8 - 1 - j < 8 by omega, show j < n by omega, show n - 1 - j < n by omega,
      show n - 8 + (8 - 1 - j) = n - 1 - j by omega]
  have htable : (initTable n (truncPoly.setWidth W) false
      ((rem >>> (n - 8)).setWidth 8)).setWidth n =
        run truncPoly 0 (fun j => false ^^ (rem.setWidth n).getMsbD j) 8 := by
    rw [initTable_eq]
    simp only [helperReflect, Bool.false_eq_true, if_false]
    rw [setWidth_tableRemainder (by omega) hW _ _ (Nat.le_refl 8),
      setWidth_setWidth_of_le _ hW, setWidth_eq]
    exact run_congr _ _ fun j hj => by rw [hindex j hj, Bool.false_xor]
  have hzeros : zeros truncPoly (rem.setWidth n) 8 = rem.setWidth n <<< 8 ^^^
      run truncPoly 0 (fun j => false ^^ (rem.setWidth n).getMsbD j) 8 :=
    run_eq_shiftLeft_xor (by omega) truncPoly (rem.setWidth n) (fun _ => false) 8
  rw [augmentedStep, setWidth_xor, hor, htable, augment, hzeros]
  ac_rfl

theorem setWidth_foldl (h8 : 8 ≤ n) (hW : n ≤ W) (truncPoly : BitVec n) (M : List (BitVec 8))
    (rem : BitVec W) : (M.foldl (augmentedStep truncPoly) rem).setWidth n =
      M.foldl (augment truncPoly) (rem.setWidth n) := by
  induction M generalizing rem with
  | nil => rfl
  | cons p M ih => rw [foldl_cons, foldl_cons, ih, setWidth_augmentedStep h8 hW]

/-- The message from a content: zeros from the content, and the message from zero. -/
theorem foldl_augment (hn : 0 < n) (poly : BitVec n) (M : List (BitVec 8)) (ρ : BitVec n) :
    M.foldl (augment poly) ρ = zeros poly ρ (8 * M.length) ^^^ M.foldl (augment poly) 0 := by
  induction M generalizing ρ with
  | nil => simp [zeros, run]
  | cons p M ih =>
    rw [foldl_cons, foldl_cons, ih, ih (augment poly 0 p), augment, augment,
      zeros_zero hn, zeros_xor, ← zeros_add, length_cons, Nat.mul_succ,
      Nat.add_comm (8 * M.length), ofNat_eq_ofNat, BitVec.zero_xor]
    ac_rfl

/-- **The lag**: the ordinary computer's register is the augmented one after `n` zeros. -/
theorem augmented_lags (h8 : 8 ≤ n) (poly : BitVec n) (M : List (BitVec 8)) (ρ : BitVec n) :
    M.foldl (absorb ⟨poly, 0, 0, false, false⟩) (zeros poly ρ n) =
      zeros poly (M.foldl (augment poly) ρ) n := by
  induction M generalizing ρ with
  | nil => rfl
  | cons p M ih =>
    have hbyte : absorb ⟨poly, 0, 0, false, false⟩ (zeros poly ρ n) p =
        zeros poly (augment poly ρ p) n :=
      calc absorb ⟨poly, 0, 0, false, false⟩ (zeros poly ρ n) p
          = zeros poly (zeros poly ρ n) 8 ^^^ run poly 0 p.getMsbD 8 :=
            run_eq_zeros_xor poly _ _ 8
        _ = zeros poly (zeros poly ρ 8) n ^^^ zeros poly (p.setWidth n) n := by
            rw [zeros_zeros, zeros_setWidth (by omega) h8]
        _ = zeros poly (augment poly ρ p) n := by rw [augment, zeros_xor]
    rw [foldl_cons, foldl_cons, hbyte, ih]

theorem foldl_zeroBytes (hn : 0 < n) (poly : BitVec n) (k : ℕ) :
    (List.replicate k 0#8).foldl (augment poly) 0 = 0 := by
  induction k with
  | zero => rfl
  | succ k ih =>
    have hbyte : augment poly 0 0#8 = 0 := by
      rw [augment, zeros_zero hn]
      simp
    rw [List.replicate_succ, foldl_cons, hbyte, ih]

/-- **The bytes of a checksum** fill the register with it: no one leaves. -/
theorem foldl_bigEndian (hn : 0 < n) (poly : BitVec n) (checksum : BitVec W) {k : ℕ}
    (hk : 8 * k ≤ n) :
    ((List.range k).map fun i => (checksum >>> (n - 8 * (i + 1))).setWidth 8).foldl (augment poly) 0 =
      checksum.setWidth n >>> (n - 8 * k) := by
  induction k with
  | zero =>
    rw [range_zero, map_nil, foldl_nil, Nat.mul_zero, Nat.sub_zero]
    exact (ushiftRight_eq_zero (Nat.le_refl n)).symm
  | succ k ih =>
    have hk' : 8 * k + 8 ≤ n := by omega
    have hhigh : ∀ j < 8, (checksum.setWidth n >>> (n - 8 * k)).getMsbD j = false := by
      intro j hj
      rw [getMsbD_eq_getLsbD, getLsbD_ushiftRight,
        getLsbD_of_ge _ _ (by omega), Bool.and_false]
    rw [range_succ, map_append, foldl_append, ih (by omega), map_singleton,
      foldl_cons, foldl_nil, augment, zeros_of_getMsbD hn poly _ hhigh]
    refine eq_of_getLsbD_eq fun i hi => ?_
    rw [getLsbD_xor, getLsbD_shiftLeft, getLsbD_ushiftRight,
      getLsbD_ushiftRight, getLsbD_setWidth, getLsbD_setWidth,
      getLsbD_setWidth, getLsbD_setWidth, getLsbD_ushiftRight]
    by_cases hlow : i < 8
    · simp [hlow, hi, show n - 8 * (k + 1) + i < n by omega]
    · simp [hlow, hi, show n - 8 * k + (i - 8) = n - 8 * (k + 1) + i by omega]

/-! ### The checksums -/

/-- **Augmented and ordinary agree.**  For every width that is a positive multiple of eight, every
polynomial and every message: the augmented checksum of the message followed by as many zero bytes
as the remainder has is the ordinary checksum, and that of the message followed by its checksum is
zero. -/
theorem augmentedCrc_eq (hn : 0 < n) (h8 : 8 ∣ n) (hW : n ≤ W) (poly : BitVec n)
    (M : List (BitVec 8)) :
    let p : Params n := ⟨poly, 0, 0, false, false⟩
    let c := ((CrcOptimal.new p W).processBytes p M).checksum p
    augmentedCrc W poly (M ++ List.replicate (n / 8) 0#8) 0 = c ∧
      augmentedCrc W poly (M ++ bigEndian n c) 0 = 0 := by
  intro p c
  have hle : 8 ≤ n := Nat.le_of_dvd hn h8
  have hlen : 8 * (n / 8) = n := Nat.mul_div_cancel' h8
  -- the register of the message, followed by zeros
  have hC : (zeros poly (M.foldl (augment poly) 0) n).toNat = c.toNat := by
    have hres := (CrcOptimal.results hW (CrcOptimal.holds_processBytes hn hW (by omega)
      (CrcOptimal.holds_new hW p) M)).2
    have hlag := augmented_lags hle poly M 0
    rw [zeros_zero hn] at hlag
    rw [← hlag, hres, checksumOf]
    simp [p]
  have htail : ∀ tail : List (BitVec 8), tail.length = n / 8 →
      (augmentedCrc W poly (M ++ tail) 0).toNat =
        (zeros poly (M.foldl (augment poly) 0) n ^^^ tail.foldl (augment poly) 0).toNat := by
    intro tail hl
    rw [augmentedCrc, toNat_and_sigBits hW, setWidth_foldl hle hW, foldl_append,
      foldl_augment hn poly tail, hl, hlen]
    simp
  refine ⟨eq_of_toNat_eq ?_, eq_of_toNat_eq ?_⟩
  · rw [htail _ length_replicate, foldl_zeroBytes hn, ← hC]
    simp
  · have hbytes : (bigEndian n c).foldl (augment poly) 0 = c.setWidth n := by
      rw [bigEndian, foldl_bigEndian hn poly c (by omega), hlen, Nat.sub_self,
        ushiftRight_zero]
    have hcn : c.setWidth n = zeros poly (M.foldl (augment poly) 0) n := by
      refine eq_of_toNat_eq ?_
      rw [toNat_setWidth, ← hC, Nat.mod_eq_of_lt (isLt _)]
    rw [htail _ (by rw [bigEndian, length_map, length_range]), hbytes, hcn,
      BitVec.xor_self]
    simp

/-- `CRC-16` with the polynomial `0x1021` over three bytes, in a wider container. -/
theorem augmentedCrc_eq_three :
    augmentedCrc 32 0x1021#16 ([0x31, 0x32, 0x33] ++ List.replicate 2 0#8) 0 =
      ((CrcOptimal.new (⟨0x1021#16, 0, 0, false, false⟩ : Params 16) 32).processBytes
        ⟨0x1021#16, 0, 0, false, false⟩ [0x31, 0x32, 0x33]).checksum
        ⟨0x1021#16, 0, 0, false, false⟩ :=
  (augmentedCrc_eq (n := 16) (W := 32) (by decide) (by decide) (by decide) 0x1021#16
    [0x31, 0x32, 0x33]).1

end SourceLibs.Crc
