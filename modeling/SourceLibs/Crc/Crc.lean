import Mathlib.Tactic.IntervalCases
import SourceLibs.Support.Bits
import SourceLibs.Support.ShiftRegister

/-!
# Crc — the bitwise and the table-driven computer

`crc.hpp`.  `crc_basic` divides bit by bit; `crc_optimal` takes a byte at a time through a table of
256 remainders, and keeps its remainder reflected when `ReflectIn`.  Both keep `n = Bits` bits in a
wider unsigned type, `L = uint_t<Bits>::least` and `W = uint_t<Bits>::fast`, and let the bits above
run over; those of `least` and `fast` need not be the same width.  `CHAR_BIT` is 8.

* `reflect_eq`: `reflector<Bits>::reflect` reverses the low bits.
* `CrcBasic.holds_processByte`: a byte of `crc_basic` is eight bits of the register
  (`ShiftRegister.run`).
* `initTable_eq`: an entry of the table is the register's answer to a byte, from zero.
* `CrcOptimal.holds_step`: a byte of `crc_optimal` is those eight bits too, reflected or not.
* `crcOptimal_eq_crcBasic`: the two computers agree after any calls.
-/

namespace SourceLibs.Crc
open BitVec

open ShiftRegister

/-- The template parameters, all below `2^Bits`. -/
structure Params (n : ℕ) where
  truncPoly : BitVec n
  initRem : BitVec n
  finalXor : BitVec n
  reflectIn : Bool
  reflectRem : Bool

/-- A call with data. -/
inductive Call where
  | processByte (byte : BitVec 8)
  | processBytes (buffer : List (BitVec 8))

/-- The bytes of a call. -/
def Call.bytes : Call → List (BitVec 8)
  | processByte byte => [byte]
  | processBytes buffer => buffer

/-! ### Masks and reflection -/

section
variable {w : ℕ}

/-- `high_bit`, `high_bit_fast`. -/
def highBit (w bits : ℕ) : BitVec w := 1#w <<< (bits - 1)

/-- `sig_bits`, `sig_bits_fast`. -/
def sigBits (w bits : ℕ) : BitVec w := ~~~(~~~(0#w) <<< bits)

/-- `x` and `reflection` after `i` turns of the loop of `reflect`. -/
def reflectLoop (bits : ℕ) (x : BitVec w) : ℕ → BitVec w × BitVec w
  | 0 => (x, 0)
  | i + 1 =>
    let s := reflectLoop bits x i
    (s.1 >>> 1, if s.1 &&& 1 ≠ 0 then s.2 ||| (1#w <<< (bits - 1 - i)) else s.2)

/-- `reflector<Bits>::reflect`. -/
def reflect (bits : ℕ) (x : BitVec w) : BitVec w := (reflectLoop bits x bits).2

end

/-! ### The bitwise computer -/

/-- `crc_basic`: the register and the parameters. -/
structure CrcBasic (L : ℕ) where
  rem : BitVec L
  poly : BitVec L
  final : BitVec L
  rftIn : Bool
  rftOut : Bool

namespace CrcBasic
variable {L : ℕ}

/-- The constructor. -/
def new (L : ℕ) {n : ℕ} (p : Params n) : CrcBasic L where
  rem := p.initRem.setWidth L
  poly := p.truncPoly.setWidth L
  final := p.finalXor.setWidth L
  rftIn := p.reflectIn
  rftOut := p.reflectRem

def processBit (bits : ℕ) (c : CrcBasic L) (bit : Bool) : CrcBasic L :=
  let rem := c.rem ^^^ (if bit then highBit L bits else 0)
  let doPolyDiv := rem &&& highBit L bits ≠ 0
  let rem := rem <<< 1
  { c with rem := if doPolyDiv then rem ^^^ c.poly else rem }

/-- The loop of `process_bits`. -/
def processBitsLoop (bits : ℕ) (c : CrcBasic L) (byte : BitVec 8) : ℕ → CrcBasic L
  | 0 => c
  | i + 1 => processBitsLoop bits (c.processBit bits (byte &&& 0x80 ≠ 0)) (byte <<< 1) i

/-- `process_bits`: the last `bitCount` bits of a byte. -/
def processBits (bits : ℕ) (c : CrcBasic L) (byte : BitVec 8) (bitCount : ℕ) : CrcBasic L :=
  processBitsLoop bits c (byte <<< (8 - bitCount)) bitCount

def processByte (bits : ℕ) (c : CrcBasic L) (byte : BitVec 8) : CrcBasic L :=
  c.processBits bits (if c.rftIn then reflect 8 byte else byte) 8

/-- `process_block`, `process_bytes`. -/
def processBytes (bits : ℕ) (c : CrcBasic L) (buffer : List (BitVec 8)) : CrcBasic L :=
  buffer.foldl (processByte bits) c

/-- One call. -/
def call (bits : ℕ) (c : CrcBasic L) : Call → CrcBasic L
  | .processByte byte => c.processByte bits byte
  | .processBytes buffer => c.processBytes bits buffer

def getInterimRemainder (bits : ℕ) (c : CrcBasic L) : BitVec L := c.rem &&& sigBits L bits

def checksum (bits : ℕ) (c : CrcBasic L) : BitVec L :=
  ((if c.rftOut then reflect bits c.rem else c.rem) ^^^ c.final) &&& sigBits L bits

end CrcBasic

/-! ### The table -/

section
variable {W : ℕ}

/-- `crc_helper<Bits, DoReflect>::reflect`. -/
def helperReflect (doReflect : Bool) (bits : ℕ) (x : BitVec W) : BitVec W :=
  if doReflect then reflect bits x else x

/-- `remainder<Bits, (Bits > CHAR_BIT)>::align_msb`. -/
def alignMsb (bits : ℕ) (rem : BitVec W) : BitVec 8 :=
  if 8 < bits then (rem >>> (bits - 8)).setWidth 8 else (rem <<< (8 - bits)).setWidth 8

/-- `crc_helper<Bits, DoReflect>::index`. -/
def helperIndex (doReflect : Bool) (bits : ℕ) (rem : BitVec W) (x : BitVec 8) : BitVec 8 :=
  if doReflect then (x.setWidth W ^^^ rem).setWidth 8 else x ^^^ alignMsb bits rem

/-- `crc_helper<Bits, DoReflect>::shift`. -/
def helperShift (doReflect : Bool) (rem : BitVec W) : BitVec W :=
  if doReflect then rem >>> 8 else rem <<< 8

/-- The `remainder` of a `dividend` after the masks `0x80`, `0x40`, …, of which `i`. -/
def tableRemainder (bits : ℕ) (truncPoly : BitVec W) (dividend : BitVec 8) : ℕ → BitVec W
  | 0 => 0
  | i + 1 =>
    let remainder := tableRemainder bits truncPoly dividend i
    let remainder :=
      if dividend &&& (0x80#8 >>> i) ≠ 0 then remainder ^^^ highBit W bits else remainder
    if remainder &&& highBit W bits ≠ 0 then (remainder <<< 1) ^^^ truncPoly
    else remainder <<< 1

/-- `table_` after the first `k` dividends. -/
def fillTable (bits : ℕ) (truncPoly : BitVec W) (doReflect : Bool) : ℕ → BitVec 8 → BitVec W
  | 0 => fun _ => 0
  | k + 1 => Function.update (fillTable bits truncPoly doReflect k)
      (helperReflect doReflect 8 (BitVec.ofNat 8 k))
      (helperReflect doReflect bits (tableRemainder bits truncPoly (BitVec.ofNat 8 k) 8))

/-- The table of the remainders of bytes. -/
def initTable (bits : ℕ) (truncPoly : BitVec W) (doReflect : Bool) : BitVec 8 → BitVec W :=
  fillTable bits truncPoly doReflect 256

end

/-! ### The table-driven computer -/

/-- `crc_optimal<Bits, …>`: its remainder. -/
structure CrcOptimal (W : ℕ) where
  rem : BitVec W

namespace CrcOptimal
variable {n W : ℕ} (p : Params n)

/-- The constructor. -/
def new (W : ℕ) : CrcOptimal W where
  rem := helperReflect p.reflectIn n (p.initRem.setWidth W)

/-- The loop body of `process_block`. -/
def step (c : CrcOptimal W) (byte : BitVec 8) : CrcOptimal W :=
  let byteIndex := helperIndex p.reflectIn n c.rem byte
  let rem := helperShift p.reflectIn c.rem
  { rem := rem ^^^ initTable n (p.truncPoly.setWidth W) p.reflectIn byteIndex }

/-- `process_block`, `process_bytes`. -/
def processBytes (c : CrcOptimal W) (buffer : List (BitVec 8)) : CrcOptimal W :=
  buffer.foldl (step p) c

def processByte (c : CrcOptimal W) (byte : BitVec 8) : CrcOptimal W := c.processBytes p [byte]

/-- One call. -/
def call (c : CrcOptimal W) : Call → CrcOptimal W
  | .processByte byte => c.processByte p byte
  | .processBytes buffer => c.processBytes p buffer

def getInterimRemainder (c : CrcOptimal W) : BitVec W :=
  helperReflect p.reflectIn n c.rem &&& sigBits W n

def checksum (c : CrcOptimal W) : BitVec W :=
  (helperReflect (p.reflectRem != p.reflectIn) n c.rem ^^^ p.finalXor.setWidth W) &&& sigBits W n

end CrcOptimal

/-! ### Bits of the containers -/

section
variable {w : ℕ} {bits : ℕ}

theorem and_highBit_ne_zero (hb : 0 < bits) (x : BitVec w) :
    (x &&& highBit w bits ≠ 0) ↔ (x.setWidth bits).msb = true := by
  rw [highBit, and_shift_ne_zero, msb_eq_getLsbD_last, getLsbD_setWidth]
  simp [show bits - 1 < bits by omega]

theorem setWidth_highBit (hb : 0 < bits) (hw : bits ≤ w) :
    (highBit w bits).setWidth bits = BitVec.twoPow bits (bits - 1) := by
  refine eq_of_getLsbD_eq fun i hi => ?_
  have h : highBit w bits = twoPow w (bits - 1) := rfl
  rw [h, getLsbD_setWidth, getLsbD_twoPow, getLsbD_twoPow]
  simp [show bits - 1 < w by omega, show bits - 1 < bits by omega, hi]

theorem toNat_and_sigBits (hw : bits ≤ w) (x : BitVec w) :
    (x &&& sigBits w bits).toNat = (x.setWidth bits).toNat := by
  have h : x &&& sigBits w bits = (x.setWidth bits).setWidth w := by
    refine eq_of_getLsbD_eq fun i hi => ?_
    simp only [sigBits, getLsbD_and, getLsbD_not, getLsbD_shiftLeft,
      getLsbD_setWidth, getLsbD_zero, hi]
    by_cases hb : i < bits <;> simp [hb]
    omega
  rw [h, toNat_setWidth_of_le hw]

theorem setWidth_shiftLeft' {n : ℕ} (hw : n ≤ w) (x : BitVec w) (k : ℕ) :
    (x <<< k).setWidth n = x.setWidth n <<< k := by
  refine eq_of_getLsbD_eq fun i hi => ?_
  simp only [getLsbD_setWidth, getLsbD_shiftLeft, hi, Nat.lt_of_lt_of_le hi hw]
  by_cases hk : i < k
  · simp [hk]
  · simp [hk, show i - k < n by omega]

theorem reflectLoop_eq (hw : bits ≤ w) (x : BitVec w) {i : ℕ} (hi : i ≤ bits) :
    (reflectLoop bits x i).1 = x >>> i ∧ ∀ j, (reflectLoop bits x i).2.getLsbD j =
      (decide (bits - i ≤ j ∧ j < bits) && x.getLsbD (bits - 1 - j)) := by
  induction i with
  | zero =>
    refine ⟨by simp [reflectLoop], fun j => ?_⟩
    simp [reflectLoop, show ¬ (bits ≤ j ∧ j < bits) by omega]
  | succ i ih =>
    obtain ⟨h₁, h₂⟩ := ih (by omega)
    refine ⟨by simp only [reflectLoop, h₁, BitVec.shiftRight_add], fun j => ?_⟩
    have hcond : ((reflectLoop bits x i).1 &&& 1 ≠ 0) ↔ x.getLsbD i = true := by
      have h := and_shift_ne_zero (x >>> i) 0
      rwa [BitVec.shiftLeft_zero, getLsbD_ushiftRight, Nat.add_zero, ← h₁] at h
    simp only [reflectLoop, hcond]
    rcases eq_or_ne j (bits - 1 - i) with rfl | hne
    · -- the bit that this turn sets
      rw [show bits - 1 - (bits - 1 - i) = i by omega]
      cases hx : x.getLsbD i with
      | true =>
        have hone : (1#w <<< (bits - 1 - i)).getLsbD (bits - 1 - i) = true := by
          rw [← twoPow, getLsbD_twoPow]
          simpa using show bits - 1 - i < w by omega
        rw [if_pos rfl, getLsbD_or, hone, Bool.or_true, Bool.and_true, eq_comm,
          decide_eq_true_eq]
        omega
      | false => simp [h₂, show ¬ bits - i ≤ bits - 1 - i by omega]
    · have hdec : (decide (bits - (i + 1) ≤ j ∧ j < bits) : Bool) =
          decide (bits - i ≤ j ∧ j < bits) := decide_eq_decide.mpr (by omega)
      rw [hdec, ← h₂]
      split
      · have hbit : (1#w <<< (bits - 1 - i)).getLsbD j = false := by
          rw [← twoPow, getLsbD_twoPow]
          simp [Ne.symm hne]
        rw [getLsbD_or, hbit, Bool.or_false]
      · rfl

/-- **`reflect`** reverses the low bits and clears the others. -/
theorem reflect_eq (hw : bits ≤ w) (x : BitVec w) :
    reflect bits x = (x.setWidth bits).reverse.setWidth w := by
  refine eq_of_getLsbD_eq fun i hi => ?_
  rw [reflect, (reflectLoop_eq hw x le_rfl).2, getLsbD_setWidth, getLsbD_reverse,
    getMsbD_eq_getLsbD, getLsbD_setWidth]
  by_cases h : i < bits
  · simp [h, hi, show bits - 1 - i < bits by omega]
  · simp [h]

theorem setWidth_reflect (hw : bits ≤ w) (x : BitVec w) :
    (reflect bits x).setWidth bits = (x.setWidth bits).reverse := by
  rw [reflect_eq hw, setWidth_setWidth_of_le _ hw, setWidth_eq]

end

/-! ### The register of a computer -/

/-- The bits of a byte in the order they enter. -/
def byteBits (reflectIn : Bool) (byte : BitVec 8) : ℕ → Bool :=
  if reflectIn then byte.getLsbD else byte.getMsbD

/-- A byte enters the register. -/
def absorb {n : ℕ} (p : Params n) (ρ : BitVec n) (byte : BitVec 8) : BitVec n :=
  run p.truncPoly ρ (byteBits p.reflectIn byte) 8

theorem reflect_eight (byte : BitVec 8) : reflect 8 byte = byte.reverse := by
  rw [reflect_eq le_rfl, setWidth_eq, setWidth_eq]

/-- The bits of the byte a computer shifts through. -/
theorem getMsbD_helperReflect (reflectIn : Bool) (byte : BitVec 8) (j : ℕ) :
    (helperReflect reflectIn 8 byte).getMsbD j = byteBits reflectIn byte j := by
  cases reflectIn with
  | false => rfl
  | true =>
    rw [helperReflect, if_pos rfl, reflect_eight, getMsbD_reverse]
    rfl

theorem setWidth_step {n w : ℕ} (hn : 0 < n) (hw : n ≤ w) (poly rem : BitVec w) (bit : Bool) :
    (if (rem ^^^ (if bit then highBit w n else 0)) &&& highBit w n ≠ 0
      then ((rem ^^^ (if bit then highBit w n else 0)) <<< 1) ^^^ poly
      else (rem ^^^ (if bit then highBit w n else 0)) <<< 1).setWidth n =
        step (poly.setWidth n) (rem.setWidth n) bit := by
  have hin : (rem ^^^ (if bit then highBit w n else 0)).setWidth n =
      rem.setWidth n ^^^ (if bit then twoPow n (n - 1) else 0) := by
    rw [setWidth_xor]
    cases bit with
    | false => simp
    | true => rw [if_pos rfl, if_pos rfl, setWidth_highBit hn hw]
  simp only [step, and_highBit_ne_zero hn, ← hin]
  generalize (rem ^^^ (if bit then highBit w n else 0)) = r
  split
  · rw [setWidth_xor, setWidth_shiftLeft' hw]
  · rw [setWidth_shiftLeft' hw, ofNat_eq_ofNat, BitVec.xor_zero]

namespace CrcBasic
variable {n L : ℕ}

/-- The computer holds `ρ` in its low bits. -/
structure Holds (p : Params n) (c : CrcBasic L) (ρ : BitVec n) : Prop where
  rem_eq : c.rem.setWidth n = ρ
  poly_eq : c.poly = p.truncPoly.setWidth L
  final_eq : c.final = p.finalXor.setWidth L
  rftIn_eq : c.rftIn = p.reflectIn
  rftOut_eq : c.rftOut = p.reflectRem

variable {p : Params n} {c : CrcBasic L} {ρ : BitVec n}

theorem holds_new (hL : n ≤ L) (p : Params n) : (new L p).Holds p p.initRem :=
  ⟨by rw [new, setWidth_setWidth_of_le _ hL, setWidth_eq], rfl, rfl, rfl, rfl⟩

theorem holds_processBit (hn : 0 < n) (hL : n ≤ L) (h : c.Holds p ρ) (bit : Bool) :
    (c.processBit n bit).Holds p (step p.truncPoly ρ bit) := by
  refine ⟨?_, h.poly_eq, h.final_eq, h.rftIn_eq, h.rftOut_eq⟩
  have hp : c.poly.setWidth n = p.truncPoly := by
    rw [h.poly_eq, setWidth_setWidth_of_le _ hL, setWidth_eq]
  rw [← h.rem_eq, ← hp]
  exact setWidth_step hn hL c.poly c.rem bit

theorem holds_processBitsLoop (hn : 0 < n) (hL : n ≤ L) (h : c.Holds p ρ) (byte : BitVec 8)
    (k : ℕ) : (processBitsLoop n c byte k).Holds p (run p.truncPoly ρ byte.getMsbD k) := by
  induction k generalizing c ρ byte with
  | zero => exact h
  | succ k ih =>
    have hbit : decide (byte &&& 0x80 ≠ 0) = byte.getMsbD 0 := by
      have := and_highBit_ne_zero (show 0 < 8 by decide) byte
      rw [setWidth_eq] at this
      exact Bool.eq_iff_iff.mpr (decide_eq_true_iff.trans this)
    have hnext := ih (holds_processBit hn hL h (byte &&& 0x80 ≠ 0)) (byte <<< 1)
    have hshift : (byte <<< 1).getMsbD = fun j => byte.getMsbD (j + 1) :=
      funext fun j => getMsbD_shiftLeft _ _
    rw [hbit, hshift] at hnext
    rw [run_succ_eq]
    rwa [processBitsLoop, hbit]

/-- **A byte** is eight bits of the register. -/
theorem holds_processByte (hn : 0 < n) (hL : n ≤ L) (h : c.Holds p ρ) (byte : BitVec 8) :
    (c.processByte n byte).Holds p (absorb p ρ byte) := by
  have hloop := holds_processBitsLoop hn hL h (helperReflect p.reflectIn 8 byte) 8
  rw [run_congr _ _ fun j _ => getMsbD_helperReflect p.reflectIn byte j] at hloop
  unfold processByte processBits
  rw [h.rftIn_eq, Nat.sub_self, BitVec.shiftLeft_zero]
  exact hloop

end CrcBasic

/-! ### The table's entries -/

section
variable {n W : ℕ}

theorem and_mask_ne_zero (dividend : BitVec 8) {i : ℕ} (hi : i < 8) :
    (dividend &&& (0x80#8 >>> i) ≠ 0) ↔ dividend.getMsbD i = true := by
  have hmask : 0x80#8 >>> i = 1#8 <<< (7 - i) := by
    interval_cases i <;> rfl
  rw [hmask, and_shift_ne_zero, getMsbD_eq_getLsbD]
  simp [hi]

theorem setWidth_tableRemainder (hn : 0 < n) (hW : n ≤ W) (poly : BitVec W) (dividend : BitVec 8)
    {i : ℕ} (hi : i ≤ 8) : (tableRemainder n poly dividend i).setWidth n =
      run (poly.setWidth n) 0 dividend.getMsbD i := by
  induction i with
  | zero => simp [tableRemainder, run]
  | succ i ih =>
    have hbit : (if dividend &&& (0x80#8 >>> i) ≠ 0
        then tableRemainder n poly dividend i ^^^ highBit W n
        else tableRemainder n poly dividend i) =
        tableRemainder n poly dividend i ^^^
          (if dividend.getMsbD i = true then highBit W n else 0) := by
      simp only [and_mask_ne_zero dividend (Nat.lt_of_succ_le hi)]
      cases dividend.getMsbD i <;> simp
    rw [run, ← ih (by omega), ← setWidth_step hn hW, tableRemainder]
    simp only [hbit]

theorem helperReflect_helperReflect (doReflect : Bool) (byte : BitVec 8) :
    helperReflect doReflect 8 (helperReflect doReflect 8 byte) = byte := by
  cases doReflect with
  | false => rfl
  | true =>
    simp only [helperReflect, if_true]
    rw [reflect_eight, reflect_eight, reverse_reverse_eq]

/-- The entries written so far stay: no index comes twice. -/
theorem fillTable_eq (poly : BitVec W) (doReflect : Bool) {k : ℕ} (hk : k ≤ 256) {j : ℕ}
    (hj : j < k) :
    fillTable n poly doReflect k (helperReflect doReflect 8 (BitVec.ofNat 8 j)) =
      helperReflect doReflect n (tableRemainder n poly (BitVec.ofNat 8 j) 8) := by
  induction k with
  | zero => omega
  | succ k ih =>
    rw [fillTable]
    rcases eq_or_ne j k with rfl | hne
    · rw [Function.update_self]
    · have hidx : helperReflect doReflect 8 (BitVec.ofNat 8 j) ≠
          helperReflect doReflect 8 (BitVec.ofNat 8 k) := by
        intro heq
        have h := congrArg (helperReflect doReflect 8) heq
        rw [helperReflect_helperReflect, helperReflect_helperReflect] at h
        have hnat := congrArg BitVec.toNat h
        simp only [toNat_ofNat] at hnat
        omega
      rw [Function.update_of_ne hidx, ih (by omega) (by omega)]

/-- **The table**: the entry of an index is the remainder of the byte it stands for. -/
theorem initTable_eq (poly : BitVec W) (doReflect : Bool) (index : BitVec 8) :
    initTable n poly doReflect index = helperReflect doReflect n
      (tableRemainder n poly (helperReflect doReflect 8 index) 8) := by
  have h := fillTable_eq (n := n) poly doReflect le_rfl
    (helperReflect doReflect 8 index).isLt
  rwa [BitVec.ofNat_toNat, setWidth_eq, helperReflect_helperReflect] at h

theorem getMsbD_alignMsb (h8 : 8 ≤ W) (rem : BitVec W) {j : ℕ} (hj : j < 8) :
    (alignMsb n rem).getMsbD j = (rem.setWidth n).getMsbD j := by
  unfold alignMsb
  rw [getMsbD_eq_getLsbD]
  split
  · rename_i hn
    rw [getLsbD_setWidth, getLsbD_ushiftRight, getMsbD_eq_getLsbD,
      getLsbD_setWidth, show n - 8 + (8 - 1 - j) = n - 1 - j by omega]
    simp [hj, show 8 - 1 - j < 8 by omega, show j < n by omega, show n - 1 - j < n by omega]
  · rename_i hn
    rw [getLsbD_setWidth, getLsbD_shiftLeft, getMsbD_eq_getLsbD,
      getLsbD_setWidth]
    by_cases hjn : j < n
    · rw [show 8 - 1 - j - (8 - n) = n - 1 - j by omega]
      simp [hj, hjn, show 8 - 1 - j < 8 by omega, show 8 - 1 - j < W by omega,
        show ¬ 8 - 1 - j < 8 - n by omega, show n - 1 - j < n by omega]
    · simp [hjn, show 8 - 1 - j < 8 - n by omega]

end

/-! ### The table-driven computer's register -/

namespace CrcOptimal
variable {n W : ℕ} {p : Params n} {c : CrcOptimal W} {ρ : BitVec n}

/-- The computer holds `ρ`: in its low bits, or reflected with nothing above. -/
def Holds (p : Params n) (c : CrcOptimal W) (ρ : BitVec n) : Prop :=
  if p.reflectIn then c.rem = ρ.reverse.setWidth W else c.rem.setWidth n = ρ

theorem holds_new (hW : n ≤ W) (p : Params n) : (new p W).Holds p p.initRem := by
  unfold Holds new helperReflect
  split
  · rw [reflect_eq hW, setWidth_setWidth_of_le _ hW, setWidth_eq]
  · rw [setWidth_setWidth_of_le _ hW, setWidth_eq]

theorem reverse_shiftLeft (hW : n ≤ W) (ρ : BitVec n) :
    ρ.reverse.setWidth W >>> 8 = (ρ <<< 8).reverse.setWidth W := by
  refine eq_of_getLsbD_eq fun i hi => ?_
  rw [getLsbD_ushiftRight, getLsbD_setWidth, getLsbD_setWidth,
    getLsbD_reverse, getLsbD_reverse, getMsbD_shiftLeft, Nat.add_comm 8 i]
  by_cases h : i + 8 < n
  · simp [hi, show i + 8 < W by omega]
  · rw [getMsbD_of_ge _ _ (Nat.le_of_not_lt h), Bool.and_false, Bool.and_false]

theorem reverse_xor (a b : BitVec n) : (a ^^^ b).reverse = a.reverse ^^^ b.reverse := by
  refine eq_of_getLsbD_eq fun i hi => ?_
  simp only [getLsbD_reverse, getLsbD_xor, getMsbD_xor]

/-- **A byte through the table** is eight bits of the register. -/
theorem holds_step (hn : 0 < n) (hW : n ≤ W) (h8 : 8 ≤ W) (h : c.Holds p ρ) (byte : BitVec 8) :
    (c.step p byte).Holds p (absorb p ρ byte) := by
  have htable : ∀ index : BitVec 8, (∀ j < 8, byteBits p.reflectIn index j =
      (byteBits p.reflectIn byte j ^^ ρ.getMsbD j)) →
      (tableRemainder n (p.truncPoly.setWidth W) (helperReflect p.reflectIn 8 index) 8).setWidth n =
        run p.truncPoly 0 (fun j => byteBits p.reflectIn byte j ^^ ρ.getMsbD j) 8 := by
    intro index hbits
    rw [setWidth_tableRemainder hn hW _ _ le_rfl, setWidth_setWidth_of_le _ hW,
      setWidth_eq]
    exact run_congr _ _ fun j hj => (getMsbD_helperReflect _ _ _).trans (hbits j hj)
  rw [absorb, run_eq_shiftLeft_xor hn]
  unfold Holds at h ⊢
  unfold step
  dsimp only
  rw [initTable_eq]
  cases hr : p.reflectIn with
  | false =>
    simp only [hr, Bool.false_eq_true, if_false] at h htable ⊢
    rw [setWidth_xor]
    congr 1
    · rw [helperShift, if_neg Bool.false_ne_true, setWidth_shiftLeft' hW, h]
    · refine htable _ fun j hj => ?_
      simp only [byteBits, Bool.false_eq_true, if_false, helperIndex]
      rw [getMsbD_xor, getMsbD_alignMsb h8 _ hj, h]
  | true =>
    simp only [hr, if_true] at h htable ⊢
    rw [reverse_xor, setWidth_xor]
    congr 1
    · rw [helperShift, if_pos rfl, h, reverse_shiftLeft hW]
    · have hrem : helperReflect true n (tableRemainder n (p.truncPoly.setWidth W)
          (helperReflect true 8 (helperIndex true n c.rem byte)) 8) = _ := reflect_eq hW _
      rw [hrem, htable]
      intro j hj
      simp only [byteBits, if_true, helperIndex]
      rw [getLsbD_setWidth, getLsbD_xor, getLsbD_setWidth, h,
        getLsbD_setWidth, getLsbD_reverse]
      simp [hj, show j < W by omega]

end CrcOptimal

/-! ### Calls and results -/

section
variable {n L W : ℕ} {p : Params n} {ρ : BitVec n}

/-- The register after bytes. -/
def absorbAll (p : Params n) (bytes : List (BitVec 8)) : BitVec n :=
  bytes.foldl (absorb p) p.initRem

theorem CrcBasic.holds_processBytes (hn : 0 < n) (hL : n ≤ L) {c : CrcBasic L} (h : c.Holds p ρ)
    (buffer : List (BitVec 8)) : (c.processBytes n buffer).Holds p (buffer.foldl (absorb p) ρ) := by
  induction buffer generalizing c ρ with
  | nil => exact h
  | cons byte buffer ih => exact ih (holds_processByte hn hL h byte)

theorem CrcOptimal.holds_processBytes (hn : 0 < n) (hW : n ≤ W) (h8 : 8 ≤ W) {c : CrcOptimal W}
    (h : c.Holds p ρ) (buffer : List (BitVec 8)) :
    (c.processBytes p buffer).Holds p (buffer.foldl (absorb p) ρ) := by
  induction buffer generalizing c ρ with
  | nil => exact h
  | cons byte buffer ih => exact ih (holds_step hn hW h8 h byte)

/-- **Any calls** of the bitwise computer. -/
theorem CrcBasic.holds_calls (hn : 0 < n) (hL : n ≤ L) (p : Params n) (calls : List Call) :
    (calls.foldl (call n) (new L p)).Holds p (absorbAll p (calls.flatMap Call.bytes)) := by
  suffices ∀ (c : CrcBasic L) (ρ : BitVec n), c.Holds p ρ →
      (calls.foldl (call n) c).Holds p ((calls.flatMap Call.bytes).foldl (absorb p) ρ) from
    this _ _ (holds_new hL p)
  induction calls with
  | nil => exact fun c ρ h => h
  | cons d calls ih =>
    intro c ρ h
    rw [List.flatMap_cons, List.foldl_append]
    cases d with
    | processByte byte => exact ih _ _ (holds_processByte hn hL h byte)
    | processBytes buffer => exact ih _ _ (holds_processBytes hn hL h buffer)

/-- **Any calls** of the table-driven computer. -/
theorem CrcOptimal.holds_calls (hn : 0 < n) (hW : n ≤ W) (h8 : 8 ≤ W) (p : Params n)
    (calls : List Call) :
    (calls.foldl (call p) (new p W)).Holds p (absorbAll p (calls.flatMap Call.bytes)) := by
  suffices ∀ (c : CrcOptimal W) (ρ : BitVec n), c.Holds p ρ →
      (calls.foldl (call p) c).Holds p ((calls.flatMap Call.bytes).foldl (absorb p) ρ) from
    this _ _ (holds_new hW p)
  induction calls with
  | nil => exact fun c ρ h => h
  | cons d calls ih =>
    intro c ρ h
    rw [List.flatMap_cons, List.foldl_append]
    cases d with
    | processByte byte => exact ih _ _ (holds_processBytes hn hW h8 h [byte])
    | processBytes buffer => exact ih _ _ (holds_processBytes hn hW h8 h buffer)

/-- The checksum of a register. -/
def checksumOf (p : Params n) (ρ : BitVec n) : BitVec n :=
  (if p.reflectRem then ρ.reverse else ρ) ^^^ p.finalXor

theorem CrcBasic.results (hL : n ≤ L) {c : CrcBasic L} (h : c.Holds p ρ) :
    (c.getInterimRemainder n).toNat = ρ.toNat ∧
      (c.checksum n).toNat = (checksumOf p ρ).toNat := by
  unfold getInterimRemainder checksum checksumOf
  rw [toNat_and_sigBits hL, toNat_and_sigBits hL, h.rem_eq, setWidth_xor, h.final_eq,
    setWidth_setWidth_of_le _ hL, setWidth_eq, h.rftOut_eq]
  refine ⟨rfl, ?_⟩
  cases p.reflectRem with
  | false => simp [h.rem_eq]
  | true => simp [setWidth_reflect hL, h.rem_eq]

theorem CrcOptimal.results (hW : n ≤ W) {c : CrcOptimal W} (h : c.Holds p ρ) :
    (c.getInterimRemainder p).toNat = ρ.toNat ∧
      (c.checksum p).toNat = (checksumOf p ρ).toNat := by
  have hlow : c.rem.setWidth n = if p.reflectIn then ρ.reverse else ρ := by
    unfold Holds at h
    split at h
    · rename_i hr
      rw [h, setWidth_setWidth_of_le _ hW, setWidth_eq, if_pos hr]
    · rename_i hr
      rw [h, if_neg hr]
  unfold getInterimRemainder checksum checksumOf
  rw [toNat_and_sigBits hW, toNat_and_sigBits hW, setWidth_xor,
    setWidth_setWidth_of_le _ hW, setWidth_eq]
  -- reflecting back, or once more
  cases hi : p.reflectIn <;> cases ho : p.reflectRem <;>
    simp [helperReflect, setWidth_reflect hW, hlow, hi, reverse_reverse_eq]

/-- **The two computers agree.**  For every width of the remainder, every container of at least
that width, every parameters and any two sequences of calls that pass the same bytes, the interim
remainders and the checksums are equal. -/
theorem crcOptimal_eq_crcBasic (hn : 1 ≤ n) (hL : n ≤ L) (hW : n ≤ W) (h8 : 8 ≤ W) (p : Params n)
    (calls calls' : List Call) (hbytes : calls.flatMap Call.bytes = calls'.flatMap Call.bytes) :
    ((calls.foldl (CrcOptimal.call p) (.new p W)).getInterimRemainder p).toNat =
        ((calls'.foldl (CrcBasic.call n) (.new L p)).getInterimRemainder n).toNat ∧
      ((calls.foldl (CrcOptimal.call p) (.new p W)).checksum p).toNat =
        ((calls'.foldl (CrcBasic.call n) (.new L p)).checksum n).toNat := by
  obtain ⟨h₁, h₂⟩ := CrcOptimal.results hW (CrcOptimal.holds_calls hn hW h8 p calls)
  obtain ⟨h₃, h₄⟩ := CrcBasic.results hL (CrcBasic.holds_calls hn hL p calls')
  rw [h₁, h₂, h₃, h₄, hbytes]
  exact ⟨rfl, rfl⟩

/-- `crc_optimal<5, 0x05, 0x1F, 0x1F, true, true>`, a remainder shorter than a byte, over two bytes
in one call and in two. -/
theorem crcOptimal_eq_crcBasic_usb :
    let p : Params 5 := ⟨0x05, 0x1F, 0x1F, true, true⟩
    (([Call.processBytes [0x31, 0x32]].foldl (CrcOptimal.call p) (.new p 8)).getInterimRemainder
        p).toNat =
        (([Call.processByte 0x31, Call.processByte 0x32].foldl (CrcBasic.call 5)
          (.new 8 p)).getInterimRemainder 5).toNat ∧
      (([Call.processBytes [0x31, 0x32]].foldl (CrcOptimal.call p) (.new p 8)).checksum p).toNat =
        (([Call.processByte 0x31, Call.processByte 0x32].foldl (CrcBasic.call 5)
          (.new 8 p)).checksum 5).toNat :=
  crcOptimal_eq_crcBasic (by decide) (by decide) (by decide) (by decide) _ _ _ rfl

end

end SourceLibs.Crc
