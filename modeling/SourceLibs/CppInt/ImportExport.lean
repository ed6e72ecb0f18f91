import SourceLibs.CppInt.Divide
import SourceLibs.Support.Bits
import Mathlib.Data.Nat.Log

/-!
# CppInt — import and export of bits

`cpp_int/import_export.hpp` on the unbounded backend: a number is written as chunks of
`chunk_size` bits, most or least significant first, and read back.  A chunk written is a
`uintmax_t`, a chunk read an unsigned value of `v` bits.  Bit positions are `unsigned` on one side
of a call and `int` on the other; the arithmetic of the first is modulo `2 ^ 32`, that of the second
is undefined when it overflows (`none`).

* `getLsbD_extractBits`: a chunk holds the bits from its position on, also across limbs.
* `testBit_assignBits`: a chunk adds its bits at its position.
* `exportBits_of_fits`, `exportBits_length_lt`: the chunks written, as long as positions fit `int`,
  and otherwise too few of them.
* `importBitsGeneric_mask`: of a chunk, only the low `chunk_size` bits are read.
* `testBit_importBitsGeneric`: the number read from chunks.
-/

namespace SourceLibs.CppInt
open List

variable {w v : ℕ} (x : CppInt w)

/-! ### The machine's integers -/

/-- An `unsigned` value. -/
def uint (n : ℕ) : ℕ := n % 2 ^ 32

/-- The `int` an `unsigned` or wider value is converted to. -/
def toIntType (n : ℤ) : ℤ := n.bmod (2 ^ 32)

/-- `a + b` of type `int`, where it is defined. -/
def addInt (a b : ℤ) : Option ℤ :=
  if -2 ^ 31 ≤ a + b ∧ a + b < 2 ^ 31 then some (a + b) else none

/-! ### Export -/

/-- `count == digits ? ~0 : (1 << count) - 1`, the low `count` bits of a word of `v`. -/
def lowMask (v count : ℕ) : BitVec v := if v ≤ count then ~~~(0#v) else (1#v <<< count) - 1

/-- `extract_bits`: `count` bits from `location` on. -/
def extractBits [NeZero w] (val : CppInt w) (location count : ℕ) : BitVec 64 :=
  let limb := location / w
  let shift := location % w
  let result : BitVec 64 :=
    if _h : w - shift < count then
      extractBits val (uint (location + w - shift)) (count - (w - shift)) <<< (w - shift)
    else 0
  if limb < val.size then
    result ||| ((val.limbs limb >>> shift).setWidth 64 &&& lowMask 64 count)
  else result
termination_by count
decreasing_by
  have := Nat.mod_lt location (NeZero.pos w)
  omega

/-- `eval_msb_imp`: the highest bit that is set. -/
def evalMsbImp (a : CppInt w) : ℕ :=
  uint ((a.size - 1) * w + Nat.log2 (a.limbs (a.size - 1)).toNat)

/-- `while(bit_location % bit_step) ++bit_location;`. -/
def alignLocation (bitStep : ℤ) : ℕ → ℤ → Option ℤ
  | 0, _ => none
  | fuel + 1, bitLocation =>
    if bitLocation.tmod bitStep ≠ 0 then do
      let bitLocation ← addInt bitLocation 1
      alignLocation bitStep fuel bitLocation
    else some bitLocation

/-- The `do` loop of `export_bits`. -/
@[simp] def exportLoop [NeZero w] (val : CppInt w) (chunkSize bitcount : ℕ) (bitStep : ℤ) :
    ℕ → ℤ → Option (List (BitVec 64))
  | 0, _ => none
  | fuel + 1, bitLocation => do
    let chunk := extractBits val (bitLocation % 2 ^ 32).toNat chunkSize
    let bitLocation ← addInt bitLocation bitStep
    if 0 ≤ bitLocation ∧ bitLocation < toIntType bitcount then do
      let out ← exportLoop val chunkSize bitcount bitStep fuel bitLocation
      some (chunk :: out)
    else some [chunk]

/-- `export_bits`: what is written through `out`. -/
def exportBits [NeZero w] (val : CppInt w) (chunkSize : ℕ) (msvFirst : Bool) : Option (List (BitVec 64)) :=
  if evalGetSign val = 0 then some [0]
  else do
    let bitcount := uint (evalMsbImp val + 1)
    let bitLocation := if msvFirst then toIntType ((bitcount - chunkSize : ℤ) % 2 ^ 32) else 0
    let bitStep : ℤ := if msvFirst then -chunkSize else chunkSize
    let bitLocation ← alignLocation bitStep (chunkSize + 1) bitLocation
    exportLoop val chunkSize bitcount bitStep (bitcount + 1) bitLocation

/-! ### Import -/

/-- `limbs()[limb] |= value`, with the limb added first where it is the next one. -/
def orLimb (val : CppInt w) (limb : ℕ) (value : BitVec w) : CppInt w :=
  if value ≠ 0 then
    if val.size = limb then (val.resize (limb + 1)).store limb value
    else if limb < val.size then val.store limb (val.limbs limb ||| value)
    else val
  else val

/-- `assign_bits`: the bits of a chunk are put in. -/
def assignBits [NeZero w] (val : CppInt w) (bits : BitVec v) (bitLocation chunkBits : ℕ) : CppInt w :=
  let limb := bitLocation / w
  let shift := bitLocation % w
  let value := (bits &&& (lowMask w chunkBits).setWidth v).setWidth w <<< shift
  let val := orLimb val limb value
  if _h : w - shift < chunkBits then
    let bits := bits >>> (w - shift)
    if bits ≠ 0 then assignBits val bits (uint (bitLocation + (w - shift))) (chunkBits - (w - shift))
    else val
  else val
termination_by chunkBits
decreasing_by
  have := Nat.mod_lt bitLocation (NeZero.pos w)
  omega

/-- `resize_to_bit_size`: zeros up to so many bits. -/
def resizeToBitSize (newval : CppInt w) (bits : ℕ) : CppInt w :=
  let limbCount := bits / w + if bits % w ≠ 0 then 1 else 0
  let newval := newval.resize limbCount
  newval.setLimbs (memset newval.limbs newval.size)

/-- The loop of `import_bits_generic`. -/
def importLoop [NeZero w] (chunkSize : ℕ) (change : ℤ) : List (BitVec v) → ℤ → CppInt w → CppInt w
  | [], _, newval => newval
  | c :: chunks, bitLocation, newval =>
    importLoop chunkSize change chunks (bitLocation + change)
      (assignBits newval c (bitLocation % 2 ^ 32).toNat chunkSize)

/-- `import_bits_generic`, `newval` being the new backend object. -/
def importBitsGeneric [NeZero w] (newval : CppInt w) (chunks : List (BitVec v)) (chunkSize : ℕ)
    (msvFirst : Bool) : CppInt w :=
  let bits := chunks.length * chunkSize
  let newval := resizeToBitSize newval (uint bits)
  let bitLocation : ℤ := if msvFirst then bits - chunkSize else 0
  let change : ℤ := if msvFirst then -chunkSize else chunkSize
  (importLoop chunkSize change chunks bitLocation newval).normalize

/-! ### Bits of a number -/

theorem testBit_mag {k : ℕ} (hk : k < w * x.size) :
    x.mag.testBit k = (x.limbs (k / w)).getLsbD (k % w) :=
  Radix.testBit_value (fun i => (x.limbs i).isLt) _ _ hk

theorem testBit_mag_of_ge {k : ℕ} (hk : w * x.size ≤ k) : x.mag.testBit k = false := by
  refine Nat.testBit_lt_two_pow (x.mag_lt.trans_le ?_)
  rw [← pow_mul]
  exact Nat.pow_le_pow_right Nat.two_pos hk

theorem getLsbD_lowMask {v count i : ℕ} (hi : i < v) :
    (lowMask v count).getLsbD i = decide (i < count) := by
  unfold lowMask
  split
  · simp [hi]
    omega
  · rename_i h
    have hlt : 2 ^ count < 2 ^ v := Nat.pow_lt_pow_right (by decide) (by omega)
    have hone : (1#v <<< count).toNat = 2 ^ count := by
      rw [BitVec.toNat_shiftLeft, BitVec.toNat_ofNat, Nat.mod_eq_of_lt (Nat.one_lt_two_pow (by omega)),
        Nat.shiftLeft_eq, Nat.one_mul, Nat.mod_eq_of_lt hlt]
    have hle : (1 : BitVec v) ≤ 1#v <<< count := by
      rw [BitVec.le_def, hone]
      have : (1 : BitVec v).toNat = 1 := by
        show 1 % 2 ^ v = 1
        exact Nat.mod_eq_of_lt (Nat.one_lt_two_pow (by omega))
      rw [this]
      exact Nat.one_le_two_pow
    rw [← BitVec.testBit_toNat, BitVec.toNat_sub_of_le hle, hone,
      show (1 : BitVec v).toNat = 1 from Nat.mod_eq_of_lt (Nat.one_lt_two_pow (by omega)),
      Nat.testBit_two_pow_sub_one]

theorem testBit_mag_eq [NeZero w] (k : ℕ) :
    x.mag.testBit k = (decide (k / w < x.size) && (x.limbs (k / w)).getLsbD (k % w)) := by
  have hpos := NeZero.pos w
  by_cases hk : k / w < x.size
  · rw [testBit_mag x (by rwa [Nat.mul_comm, ← Nat.div_lt_iff_lt_mul hpos])]
    simp [hk]
  · rw [testBit_mag_of_ge x (by rwa [Nat.mul_comm, ← Nat.le_div_iff_mul_le hpos, ← Nat.not_lt])]
    simp [hk]

/-- The limb and the bit of a position inside the limb of an earlier one. -/
theorem div_mod_add [NeZero w] {k i : ℕ} (h : i < w - k % w) :
    (k + i) / w = k / w ∧ (k + i) % w = k % w + i := by
  have hpos := NeZero.pos w
  have hk := Nat.div_add_mod k w
  have hmod : k % w + i < w := by omega
  have he : k + i = w * (k / w) + (k % w + i) := by omega
  rw [he, Nat.mul_add_div hpos, Nat.mul_add_mod, Nat.div_eq_of_lt hmod, Nat.mod_eq_of_lt hmod]
  exact ⟨rfl, rfl⟩

theorem uint_of_lt {n : ℕ} (h : n < 2 ^ 32) : uint n = n := Nat.mod_eq_of_lt h

/-- **A chunk** holds the bits from its position on. -/
theorem getLsbD_extractBits [NeZero w] {count location : ℕ} (hc : count ≤ 64)
    (hfit : location + count < 2 ^ 32) (i : ℕ) :
    (extractBits x location count).getLsbD i =
      (decide (i < count) && x.mag.testBit (location + i)) := by
  induction count using Nat.strong_induction_on generalizing location i with
  | h count ih =>
    have hmod := Nat.mod_lt location (NeZero.pos w)
    rcases Nat.lt_or_ge i 64 with hi | hi
    swap
    · rw [BitVec.getLsbD_of_ge _ _ hi, decide_eq_false (by omega), Bool.false_and]
    -- the part beyond the limb
    have hrec : (if _h : w - location % w < count then
        extractBits x (uint (location + w - location % w)) (count - (w - location % w)) <<<
          (w - location % w) else 0 : BitVec 64).getLsbD i =
        (decide (w - location % w ≤ i ∧ i < count) && x.mag.testBit (location + i)) := by
      split
      · rename_i h
        rw [uint_of_lt (by omega), BitVec.getLsbD_shiftLeft,
          ih _ (by omega) (by omega) (by omega)]
        by_cases hge : w - location % w ≤ i
        · rw [show location + w - location % w + (i - (w - location % w)) = location + i by omega]
          simp only [hi, Nat.not_lt.mpr hge, decide_true, decide_false, Bool.not_false,
            Bool.true_and, hge, true_and]
          congr 2
          exact propext (by omega)
        · simp [hge, Nat.lt_of_not_le hge]
      · rw [decide_eq_false (by omega), Bool.false_and]
        exact BitVec.getLsbD_zero
    -- the part in the limb
    have hlimb : ((x.limbs (location / w) >>> (location % w)).setWidth 64 &&&
        lowMask 64 count).getLsbD i =
        (decide (i < count) && (x.limbs (location / w)).getLsbD (location % w + i)) := by
      rw [BitVec.getLsbD_and, getLsbD_lowMask hi, BitVec.getLsbD_setWidth,
        BitVec.getLsbD_ushiftRight, decide_eq_true hi, Bool.true_and, Bool.and_comm]
    rw [extractBits]
    rcases Nat.lt_or_ge i (w - location % w) with hin | hout
    · obtain ⟨hd, hm⟩ := div_mod_add (w := w) hin
      rw [testBit_mag_eq, hd, hm]
      split
      · rename_i hs
        rw [BitVec.getLsbD_or, hrec, hlimb, decide_eq_false (by omega), Bool.false_and,
          Bool.false_or, decide_eq_true hs, Bool.true_and]
      · rename_i hs
        rw [hrec, decide_eq_false (by omega), decide_eq_false hs, Bool.false_and, Bool.false_and,
          Bool.and_false]
    · have hzero : (x.limbs (location / w)).getLsbD (location % w + i) = false :=
        BitVec.getLsbD_of_ge _ _ (by omega)
      have hdec : decide (w - location % w ≤ i ∧ i < count) = decide (i < count) :=
        decide_eq_decide.mpr (by omega)
      split
      · rw [BitVec.getLsbD_or, hrec, hlimb, hzero, Bool.and_false, Bool.or_false, hdec]
      · rw [hrec, hdec]

theorem orLimb_spec [NeZero w] {limb : ℕ} {value : BitVec w} (h : value ≠ 0 → limb < x.size) :
    (orLimb x limb value).size = x.size ∧ (orLimb x limb value).sign = x.sign ∧
      ∀ k, (orLimb x limb value).mag.testBit k =
        (x.mag.testBit k || (decide (k / w = limb) && value.getLsbD (k % w))) := by
  unfold orLimb
  by_cases hv : value = 0
  · rw [if_neg (not_not.mpr hv), hv]
    exact ⟨rfl, rfl, fun k => by simp⟩
  · have hlimb := h hv
    rw [if_pos hv, if_neg (by omega), if_pos hlimb]
    refine ⟨rfl, rfl, fun k => ?_⟩
    rw [testBit_mag_eq, testBit_mag_eq, size_store, limbs_store]
    by_cases hq : k / w = limb
    · simp [hq, hlimb]
    · simp [hq]

section ChunkValue
variable {bits : BitVec v} {location chunkBits : ℕ}

/-- What a chunk adds to the limb of its position. -/
def chunkValue (w : ℕ) (bits : BitVec v) (location chunkBits : ℕ) : BitVec w :=
  (bits &&& (lowMask w chunkBits).setWidth v).setWidth w <<< (location % w)

theorem getLsbD_chunkValue (hbits : ∀ i, chunkBits ≤ i → bits.getLsbD i = false) {j : ℕ}
    (hj : j < w) : (chunkValue w bits location chunkBits).getLsbD j =
      (decide (location % w ≤ j) && bits.getLsbD (j - location % w)) := by
  rw [chunkValue, BitVec.getLsbD_shiftLeft, BitVec.getLsbD_setWidth, BitVec.getLsbD_and,
    BitVec.getLsbD_setWidth, getLsbD_lowMask (by omega)]
  by_cases hle : location % w ≤ j
  · rcases Nat.lt_or_ge (j - location % w) v with hv | hv
    · rcases Nat.lt_or_ge (j - location % w) chunkBits with hc | hc
      · simp [hj, hle, hv, hc, Nat.not_lt.mpr hle, show j - location % w < w by omega]
      · simp [hj, hle, hbits _ hc]
    · rw [BitVec.getLsbD_of_ge bits _ hv]
      simp
  · simp [hle, Nat.lt_of_not_le hle]

/-- The positions in the number of the bits that fall into the limb. -/
theorem chunkValue_place [NeZero w] (hbits : ∀ i, chunkBits ≤ i → bits.getLsbD i = false) (k : ℕ) :
    (decide (k / w = location / w) && (chunkValue w bits location chunkBits).getLsbD (k % w)) =
      (decide (location ≤ k ∧ k < location + (w - location % w)) &&
        bits.getLsbD (k - location)) := by
  have hpos := NeZero.pos w
  have hmod := Nat.mod_lt location hpos
  have hdm := Nat.div_add_mod location w
  have hkm := Nat.mod_lt k hpos
  have hkdm := Nat.div_add_mod k w
  rw [getLsbD_chunkValue hbits hkm]
  by_cases hq : k / w = location / w
  · rw [hq] at hkdm
    rw [decide_eq_true hq, Bool.true_and]
    congr 1
    · exact decide_eq_decide.mpr (by omega)
    · congr 1
      omega
  · rw [decide_eq_false hq, Bool.false_and]
    by_cases hin : location ≤ k ∧ k < location + (w - location % w)
    · have hsame := (div_mod_add (w := w) (k := location) (i := k - location) (by omega)).1
      rw [show location + (k - location) = k by omega] at hsame
      exact absurd hsame hq
    · rw [decide_eq_false hin, Bool.false_and]

theorem limb_lt_of_chunkValue [NeZero w] (hbits : ∀ i, chunkBits ≤ i → bits.getLsbD i = false) {n : ℕ}
    (hfit : location + chunkBits ≤ w * n) (hv : chunkValue w bits location chunkBits ≠ 0) :
    location / w < n := by
  have hmod := Nat.mod_lt location (NeZero.pos w)
  have hdm := Nat.div_add_mod location w
  obtain ⟨j, hj, hset⟩ : ∃ j < w, (chunkValue w bits location chunkBits).getLsbD j = true := by
    by_contra hnone
    refine hv (BitVec.eq_of_getLsbD_eq fun j hj => ?_)
    have hj' := Bool.eq_false_iff.mpr fun hset => hnone ⟨j, hj, hset⟩
    simpa using hj'
  rw [getLsbD_chunkValue hbits hj, Bool.and_eq_true, decide_eq_true_eq] at hset
  have hlt : j - location % w < chunkBits := by
    by_contra hge
    rw [hbits _ (by omega)] at hset
    cases hset.2
  refine Nat.div_lt_of_lt_mul ?_
  omega

end ChunkValue

/-- **A chunk read** adds its bits at its position. -/
theorem testBit_assignBits [NeZero w] (bits : BitVec v) (chunkBits location : ℕ)
    (hbits : ∀ i, chunkBits ≤ i → bits.getLsbD i = false)
    (hfit : location + chunkBits ≤ w * x.size) (h32 : location + chunkBits < 2 ^ 32) :
    (assignBits x bits location chunkBits).size = x.size ∧
      (assignBits x bits location chunkBits).sign = x.sign ∧
      ∀ k, (assignBits x bits location chunkBits).mag.testBit k =
        (x.mag.testBit k || (decide (location ≤ k) && bits.getLsbD (k - location))) := by
  induction chunkBits using Nat.strong_induction_on generalizing x bits location with
  | h chunkBits ih =>
    have hmod := Nat.mod_lt location (NeZero.pos w)
    obtain ⟨hsize, hsign, hor⟩ := orLimb_spec x fun hv => limb_lt_of_chunkValue hbits hfit hv
    simp only [chunkValue_place hbits] at hor
    rw [assignBits]
    dsimp only
    rw [← chunkValue]
    generalize orLimb x (location / w) (chunkValue w bits location chunkBits) = y at hsize hsign hor
    -- where no bits are left past the limb
    have hdone : (∀ i, w - location % w ≤ i → bits.getLsbD i = false) → ∀ k,
        y.mag.testBit k =
          (x.mag.testBit k || (decide (location ≤ k) && bits.getLsbD (k - location))) := by
      intro hrest k
      rw [hor k]
      congr 1
      by_cases hge : location + (w - location % w) ≤ k
      · rw [hrest (k - location) (by omega), Bool.and_false, Bool.and_false]
      · congr 1
        exact decide_eq_decide.mpr (by omega)
    by_cases hmore : w - location % w < chunkBits
    · rw [dif_pos hmore]
      by_cases hzero : bits >>> (w - location % w) = 0
      · rw [if_neg (not_not.mpr hzero)]
        refine ⟨hsize, hsign, hdone fun i hi => ?_⟩
        have hb := congrArg (fun v => BitVec.getLsbD v (i - (w - location % w))) hzero
        simpa [Nat.add_sub_cancel' hi] using hb
      · rw [if_pos hzero, uint_of_lt (by omega)]
        obtain ⟨hsize', hsign', hbit'⟩ := ih (chunkBits - (w - location % w)) (by omega) y
          (bits >>> (w - location % w)) (location + (w - location % w))
          (fun i hi => by
            rw [BitVec.getLsbD_ushiftRight]
            exact hbits _ (by omega))
          (by rw [hsize]; omega) (by omega)
        refine ⟨hsize'.trans hsize, hsign'.trans hsign, fun k => ?_⟩
        rw [hbit' k, hor k, BitVec.getLsbD_ushiftRight, Bool.or_assoc]
        congr 1
        by_cases hge : location + (w - location % w) ≤ k
        · rw [decide_eq_false (by omega : ¬ (location ≤ k ∧ k < location + (w - location % w))),
            Bool.false_and, Bool.false_or, decide_eq_true hge,
            decide_eq_true (by omega : location ≤ k)]
          congr 2
          omega
        · rw [decide_eq_false hge, Bool.false_and, Bool.or_false]
          congr 1
          exact decide_eq_decide.mpr (by omega)
    · rw [dif_neg hmore]
      exact ⟨hsize, hsign, hdone fun i hi => hbits i (by omega)⟩

/-! ### Chunks read -/

theorem chunkValue_zero (location chunkBits : ℕ) : chunkValue w (0#v) location chunkBits = 0 := by
  rw [chunkValue, BitVec.zero_and, BitVec.setWidth_zero, BitVec.zero_shiftLeft]
  rfl

theorem assignBits_zero [NeZero w] (location chunkBits : ℕ) :
    assignBits x (0#v) location chunkBits = x := by
  have hor : orLimb x (location / w) (0 : BitVec w) = x := if_neg (not_not.mpr rfl)
  rw [assignBits]
  dsimp only
  rw [← chunkValue, chunkValue_zero, hor, BitVec.zero_ushiftRight]
  split
  · exact if_neg (not_not.mpr rfl)
  · rfl

theorem assignBits_mask [NeZero w] (bits : BitVec v) (location chunkBits : ℕ) :
    assignBits x (bits &&& lowMask v chunkBits) location chunkBits =
      assignBits x bits location chunkBits := by
  induction chunkBits using Nat.strong_induction_on generalizing x bits location with
  | h chunkBits ih =>
    have hmod := Nat.mod_lt location (NeZero.pos w)
    have hvalue : chunkValue w (bits &&& lowMask v chunkBits) location chunkBits =
        chunkValue w bits location chunkBits := by
      rw [chunkValue, chunkValue]
      congr 1
      refine BitVec.eq_of_getLsbD_eq fun i hi => ?_
      rw [BitVec.getLsbD_setWidth, BitVec.getLsbD_setWidth, BitVec.getLsbD_and,
        BitVec.getLsbD_and, BitVec.getLsbD_and, BitVec.getLsbD_setWidth, getLsbD_lowMask hi]
      rcases Nat.lt_or_ge i v with hv | hv
      · rw [getLsbD_lowMask hv]
        by_cases hc : i < chunkBits
        · simp [hc]
        · simp [hc]
      · rw [BitVec.getLsbD_of_ge bits _ hv, Bool.false_and, Bool.false_and]
    have hrest : (bits &&& lowMask v chunkBits) >>> (w - location % w) =
        bits >>> (w - location % w) &&& lowMask v (chunkBits - (w - location % w)) := by
      refine BitVec.eq_of_getLsbD_eq fun i hi => ?_
      rw [BitVec.getLsbD_ushiftRight, BitVec.getLsbD_and, BitVec.getLsbD_and,
        BitVec.getLsbD_ushiftRight, getLsbD_lowMask hi]
      rcases Nat.lt_or_ge (w - location % w + i) v with hv | hv
      · rw [getLsbD_lowMask hv]
        exact congrArg _ (decide_eq_decide.mpr (by omega))
      · rw [BitVec.getLsbD_of_ge bits _ hv, Bool.false_and, Bool.false_and]
    have hskip : ∀ (y : CppInt w) (b : BitVec v) (l n : ℕ),
        (if b ≠ 0 then assignBits y b l n else y) = assignBits y b l n := fun y b l n => by
      split
      · rfl
      · rename_i h
        rw [not_not.mp h]
        exact (assignBits_zero y l n).symm
    rw [assignBits, assignBits]
    dsimp only
    rw [← chunkValue, ← chunkValue, hvalue, hrest, hskip, hskip]
    split
    · exact ih _ (by omega) _ _ _
    · rfl

theorem importLoop_mask [NeZero w] (c : ℕ) (change : ℤ) (l : List (BitVec v)) (location : ℤ)
    (x : CppInt w) :
    importLoop c change (l.map (· &&& lowMask v c)) location x = importLoop c change l location x := by
  induction l generalizing location x with
  | nil => rfl
  | cons b l ih => rw [map_cons, importLoop, importLoop, assignBits_mask, ih]

theorem importBitsGeneric_mask [NeZero w] (newval : CppInt w) (l : List (BitVec v)) (c : ℕ)
    (msvFirst : Bool) :
    importBitsGeneric newval (l.map (· &&& lowMask v c)) c msvFirst =
      importBitsGeneric newval l c msvFirst := by
  rw [importBitsGeneric, importBitsGeneric, length_map, importLoop_mask]

theorem toNat_emod_of_lt {n : ℕ} (h : n < 2 ^ 32) : ((n : ℤ) % 2 ^ 32).toNat = n := by
  omega

theorem importLoop_spec [NeZero w] {c : ℕ} (change : ℤ) (pos : ℕ → ℕ) (l : List (BitVec v))
    (x : CppInt w) (hl : ∀ b ∈ l, ∀ i, c ≤ i → b.getLsbD i = false)
    (hpos : ∀ j < l.length, pos j + c ≤ w * x.size ∧ pos j + c < 2 ^ 32)
    (hstep : ∀ j, j + 1 < l.length → (pos (j + 1) : ℤ) = pos j + change) :
    (importLoop c change l (pos 0) x).size = x.size ∧
      (importLoop c change l (pos 0) x).sign = x.sign ∧
      ∀ k, (importLoop c change l (pos 0) x).mag.testBit k = true ↔ x.mag.testBit k = true ∨
        ∃ j, ∃ h : j < l.length, pos j ≤ k ∧ l[j].getLsbD (k - pos j) = true := by
  induction l generalizing pos x with
  | nil => exact ⟨rfl, rfl, fun k => by simp [importLoop]⟩
  | cons b l ih =>
    obtain ⟨hfit, h32⟩ := hpos 0 (by simp)
    obtain ⟨hsize, hsign, hbit⟩ := testBit_assignBits x b c (pos 0) (hl b (by simp)) hfit h32
    rw [importLoop, toNat_emod_of_lt (by omega)]
    generalize assignBits x b (pos 0) c = y at hsize hsign hbit
    have hrest : importLoop c change l (pos 0 + change) y =
        importLoop c change l (pos (0 + 1)) y := by
      cases l with
      | nil => rfl
      | cons b' l => rw [hstep 0 (by simp)]
    obtain ⟨hsize', hsign', hbit'⟩ := ih (fun j => pos (j + 1)) y
      (fun b hb => hl b (mem_cons_of_mem _ hb))
      (fun j hj => by rw [hsize]; exact hpos (j + 1) (by simpa using hj))
      (fun j hj => hstep (j + 1) (by simpa using hj))
    rw [hrest]
    refine ⟨hsize'.trans hsize, hsign'.trans hsign, fun k => ?_⟩
    rw [hbit' k, hbit k, Bool.or_eq_true, Bool.and_eq_true, decide_eq_true_eq, or_assoc]
    refine or_congr_right ⟨?_, ?_⟩
    · rintro (⟨h₁, h₂⟩ | ⟨j, hj, h₁, h₂⟩)
      · exact ⟨0, by simp, h₁, h₂⟩
      · exact ⟨j + 1, by simpa using hj, h₁, h₂⟩
    · rintro ⟨j, hj, h₁, h₂⟩
      cases j with
      | zero => exact .inl ⟨h₁, h₂⟩
      | succ j => exact .inr ⟨j, by simpa using hj, h₁, h₂⟩

theorem roundUp_bounds {b n : ℕ} (hb : 0 < b) (hn : 0 < n) :
    n ≤ b * (n / b + if n % b ≠ 0 then 1 else 0) ∧
      b * ((n / b + if n % b ≠ 0 then 1 else 0) - 1) < n := by
  have hdm := Nat.div_add_mod n b
  have hmod := Nat.mod_lt n hb
  split
  · rw [Nat.add_sub_cancel, Nat.mul_succ]
    omega
  · rw [Nat.add_zero, Nat.mul_sub, Nat.mul_one]
    omega

/-- A size in bits that an `unsigned` holds is granted. -/
theorem resizeToBitSize_spec [NeZero w] (bits : ℕ) (h : 0 < bits) (h32 : bits < 2 ^ 32) :
    0 < (resizeToBitSize x bits).size ∧ bits ≤ w * (resizeToBitSize x bits).size ∧
      (resizeToBitSize x bits).mag = 0 ∧ (resizeToBitSize x bits).sign = x.sign := by
  obtain ⟨hlow, hup⟩ := roundUp_bounds (NeZero.pos w) h
  have hpos : 0 < bits / w + if bits % w ≠ 0 then 1 else 0 := Nat.pos_of_mul_pos_left (h.trans_le hlow)
  have hgranted : (bits / w + if bits % w ≠ 0 then 1 else 0) ≤ maxLimbs w := by
    refine le_maxLimbs (NeZero.pos w) ?_
    rw [Nat.mul_sub_one] at hup
    omega
  have hsize : (resizeToBitSize x bits).size = bits / w + if bits % w ≠ 0 then 1 else 0 :=
    Nat.min_eq_left hgranted
  rw [hsize]
  exact ⟨hpos, hlow, natOf_memset _ le_rfl, rfl⟩

/-- The place of the chunk at `j`, counted in chunks from the least significant. -/
def chunkPlace (msvFirst : Bool) (n j : ℕ) : ℕ := if msvFirst then n - 1 - j else j

section Place
variable {msvFirst : Bool} {n : ℕ}

theorem chunkPlace_lt {j : ℕ} (hj : j < n) : chunkPlace msvFirst n j < n := by
  unfold chunkPlace
  split <;> omega

theorem chunkPlace_chunkPlace {j : ℕ} (hj : j < n) :
    chunkPlace msvFirst n (chunkPlace msvFirst n j) = j := by
  unfold chunkPlace
  split <;> omega

theorem getD_chunkPlace {l : List (BitVec v)} {q : ℕ} (hq : q < l.length) :
    (if msvFirst then l.reverse else l).getD q 0 = l.getD (chunkPlace msvFirst l.length q) 0 := by
  unfold chunkPlace
  split
  · rw [getD_eq_getElem _ _ (by simpa using hq), getD_eq_getElem _ _ (by omega),
      List.getElem_reverse]
  · rfl

theorem cast_chunkPlace_zero (hn : 0 < n) (c : ℕ) :
    (if msvFirst then ((n * c : ℕ) : ℤ) - c else 0) = ((chunkPlace msvFirst n 0 * c : ℕ) : ℤ) := by
  unfold chunkPlace
  cases msvFirst with
  | false => simp
  | true =>
    have : ((n - 1 - 0 : ℕ) : ℤ) = n - 1 := by omega
    simp only [if_true, Nat.cast_mul, this]
    ring

theorem cast_chunkPlace_succ {j : ℕ} (hj : j + 1 < n) (c : ℕ) :
    ((chunkPlace msvFirst n (j + 1) * c : ℕ) : ℤ) =
      (chunkPlace msvFirst n j * c : ℕ) + if msvFirst then -(c : ℤ) else c := by
  unfold chunkPlace
  cases msvFirst with
  | false => push_cast; ring
  | true =>
    have : ((n - 1 - (j + 1) : ℕ) : ℤ) = ((n - 1 - j : ℕ) : ℤ) - 1 := by omega
    simp only [if_true, Nat.cast_mul, this]
    ring

theorem chunk_covers_iff {l : List (BitVec v)} {c : ℕ} (hc : 0 < c)
    (hl : ∀ b ∈ l, ∀ i, c ≤ i → b.getLsbD i = false) (k : ℕ) :
    (∃ j, ∃ h : j < l.length, chunkPlace msvFirst l.length j * c ≤ k ∧
        l[j].getLsbD (k - chunkPlace msvFirst l.length j * c) = true) ↔
      ((if msvFirst then l.reverse else l).getD (k / c) 0).getLsbD (k % c) = true := by
  have hkc := Nat.div_add_mod k c
  have hkm := Nat.mod_lt k hc
  constructor
  · rintro ⟨j, hj, hle, hset⟩
    have hlt : k - chunkPlace msvFirst l.length j * c < c := by
      by_contra hge
      rw [hl _ (getElem_mem hj) _ (by omega)] at hset
      cases hset
    have hq : k / c = chunkPlace msvFirst l.length j :=
      Nat.div_eq_of_lt_le hle (by rw [Nat.add_mul, Nat.one_mul]; omega)
    rw [hq, Nat.mul_comm] at hkc
    rw [hq, getD_chunkPlace (chunkPlace_lt hj), chunkPlace_chunkPlace hj, getD_eq_getElem _ _ hj,
      show k % c = k - chunkPlace msvFirst l.length j * c by omega]
    exact hset
  · intro hset
    have hq : k / c < l.length := by
      by_contra hge
      have hlen : (if msvFirst then l.reverse else l).length ≤ k / c := by
        split
        · simpa using hge
        · omega
      rw [getD_eq_default _ _ hlen] at hset
      simp at hset
    rw [getD_chunkPlace hq, getD_eq_getElem _ _ (chunkPlace_lt hq)] at hset
    refine ⟨chunkPlace msvFirst l.length (k / c), chunkPlace_lt hq, ?_, ?_⟩
    · rw [chunkPlace_chunkPlace hq]
      exact Nat.div_mul_le_self k c
    · rw [Nat.mul_comm] at hkc
      rw [chunkPlace_chunkPlace hq, show k - k / c * c = k % c by omega]
      exact hset

end Place

/-- **The number read** from chunks of `c` bits, in the order of their significance. -/
theorem testBit_importBitsGeneric [NeZero w] {newval : CppInt w} (hnew : newval.sign = false)
    {l : List (BitVec v)} (hne : l ≠ []) {c : ℕ} (hc : 0 < c)
    (hl : ∀ b ∈ l, ∀ i, c ≤ i → b.getLsbD i = false) (h32 : l.length * c < 2 ^ 32)
    (msvFirst : Bool) :
    (importBitsGeneric newval l c msvFirst).Represents
        (importBitsGeneric newval l c msvFirst).mag ∧
      ∀ k, (importBitsGeneric newval l c msvFirst).mag.testBit k =
        ((if msvFirst then l.reverse else l).getD (k / c) 0).getLsbD (k % c) := by
  have hlen : 0 < l.length := length_pos_iff.mpr hne
  obtain ⟨hpos, hfit, hzero, hsign⟩ :=
    resizeToBitSize_spec newval (l.length * c) (Nat.mul_pos hlen hc) h32
  obtain ⟨hsize, hsign', hbit⟩ := importLoop_spec (if msvFirst then -(c : ℤ) else c)
    (fun j => chunkPlace msvFirst l.length j * c) l (resizeToBitSize newval (l.length * c)) hl
    (fun j hj => by
      have hle : (chunkPlace msvFirst l.length j + 1) * c ≤ l.length * c :=
        Nat.mul_le_mul_right c (chunkPlace_lt hj)
      rw [Nat.add_mul, Nat.one_mul] at hle
      omega)
    (fun j hj => cast_chunkPlace_succ hj c)
  unfold importBitsGeneric
  dsimp only
  rw [uint_of_lt h32, cast_chunkPlace_zero hlen]
  generalize hx : importLoop c (if msvFirst then -(c : ℤ) else c) l
    ((chunkPlace msvFirst l.length 0 * c : ℕ) : ℤ) (resizeToBitSize newval (l.length * c)) = y at *
  obtain ⟨htrim, hmag⟩ := normalize_spec (x := y) (by rw [hsize]; exact hpos)
  have hs : y.normalize.sign = false := by
    rw [sign_normalize, hsign', hsign, hnew]
  refine ⟨htrim.represents hs, fun k => ?_⟩
  rw [hmag, Bool.eq_iff_iff, hbit k, hzero, Nat.zero_testBit]
  simp only [Bool.false_eq_true, false_or]
  exact chunk_covers_iff hc hl k

/-! ### Chunks written -/

theorem evalMsbImp_eq {x : CppInt w} (h : x.Trimmed) (h0 : x.mag ≠ 0) :
    evalMsbImp x = uint (x.mag.size - 1) := by
  obtain ⟨n, hn⟩ := Nat.exists_eq_add_one_of_ne_zero (by have := h.1; omega : x.size ≠ 0)
  have htop : (x.limbs n).toNat ≠ 0 := by
    intro he
    rcases h.2 with h₁ | hne
    · obtain rfl : n = 0 := by omega
      rw [mag, hn, natOf_one] at h0
      exact h0 he
    · rw [hn, Nat.add_sub_cancel] at hne
      exact hne (toNat_eq_zero.mp he)
  have hmag : x.mag = natOf x.limbs n + (x.limbs n).toNat * (2 ^ w) ^ n := by
    rw [mag, hn, natOf_succ]
  have hlow := natOf_lt x.limbs n
  obtain ⟨hle, hlt⟩ := (Nat.log2_eq_iff htop).mp rfl
  have hsize : x.mag.size = n * w + Nat.log2 (x.limbs n).toNat + 1 := by
    have hpow : (2 ^ w) ^ n = 2 ^ (n * w) := by rw [← pow_mul, Nat.mul_comm]
    rw [hpow] at hmag hlow
    refine le_antisymm (Nat.size_le.mpr ?_) (Nat.lt_size.mpr ?_)
    · have hmul := Nat.mul_le_mul_right (2 ^ (n * w)) hlt
      rw [Nat.succ_mul] at hmul
      calc x.mag < 2 ^ (n * w) + (x.limbs n).toNat * 2 ^ (n * w) := by omega
        _ ≤ 2 ^ (Nat.log2 (x.limbs n).toNat + 1) * 2 ^ (n * w) := by omega
        _ = 2 ^ (n * w + Nat.log2 (x.limbs n).toNat + 1) := by rw [← pow_add]; congr 1; omega
    · have hmul := Nat.mul_le_mul_right (2 ^ (n * w)) hle
      rw [← pow_add, Nat.add_comm] at hmul
      omega
  rw [evalMsbImp, hsize, hn, Nat.add_sub_cancel, Nat.add_sub_cancel]

/-- The start is moved up to a multiple of the chunk size. -/
theorem alignLocation_eq {step a : ℤ} (m : ℤ) {c fuel : ℕ} (hstep : step = c ∨ step = -c)
    (hlow : c * (m - 1) < a) (hle : a ≤ c * m) (hmin : -2 ^ 31 ≤ a) (hmax : c * m < 2 ^ 31)
    (hfuel : c * m - a < fuel) : alignLocation step fuel a = some (c * m) := by
  have hdvd : ∀ b : ℤ, b.tmod step = 0 ↔ (c : ℤ) ∣ b := fun b => by
    rcases hstep with rfl | rfl
    · exact Int.dvd_iff_tmod_eq_zero.symm
    · rw [Int.tmod_neg]
      exact Int.dvd_iff_tmod_eq_zero.symm
  induction fuel generalizing a with
  | zero => omega
  | succ fuel ih =>
    rw [alignLocation]
    by_cases he : a = c * m
    · rw [if_neg (not_not.mpr ((hdvd a).mpr ⟨m, he⟩)), he]
    · have hnot : ¬ (c : ℤ) ∣ a := by
        rintro ⟨q, rfl⟩
        have h₁ : m - 1 < q := lt_of_mul_lt_mul_left hlow (Int.natCast_nonneg c)
        have h₂ : q ≤ m := by
          by_contra hgt
          have := Int.mul_le_mul_of_nonneg_left (show m + 1 ≤ q by omega) (Int.natCast_nonneg c)
          rw [Int.mul_add, Int.mul_one] at this
          have hc : (c : ℤ) ≠ 0 := fun h0 => he (by simp [h0])
          omega
        exact he (by rw [show q = m by omega])
      rw [if_pos (mt (hdvd a).mp hnot), addInt, if_pos (by omega)]
      exact ih (by omega) (by omega) (by omega) (by omega)

theorem toIntType_of_lt {n : ℕ} (h : n < 2 ^ 31) : toIntType n = n := by
  rw [toIntType, Int.bmod_def]
  split <;> omega

theorem toIntType_neg {n : ℕ} (h : 2 ^ 31 ≤ n) (h' : n < 2 ^ 32) : toIntType n < 0 := by
  rw [toIntType, Int.bmod_def]
  split <;> omega

theorem addInt_of_mem {a b : ℤ} (h : -2 ^ 31 ≤ a + b) (h' : a + b < 2 ^ 31) :
    addInt a b = some (a + b) := if_pos ⟨h, h'⟩

section Loops
variable [NeZero w] {x : CppInt w} {c bitcount : ℕ}

/-- The chunk at a place. -/
def chunkAt (x : CppInt w) (c i : ℕ) : BitVec 64 := extractBits x (i * c) c

/-- Least significant first: the chunks from `j` on. -/
theorem exportLoop_up (hc : 0 < c) (hbits : bitcount < 2 ^ 31) {n : ℕ} (hlast : (n - 1) * c < bitcount)
    (hn : bitcount ≤ n * c) (hfit : n * c < 2 ^ 31) (m j fuel : ℕ) (hj : j + m + 1 = n)
    (hfuel : m < fuel) :
    exportLoop x c bitcount c fuel ((j * c : ℕ) : ℤ) =
      some ((List.range' j (m + 1)).map (chunkAt x c)) := by
  induction m generalizing j fuel with
  | zero =>
    obtain ⟨fuel, rfl⟩ := Nat.exists_eq_add_one_of_ne_zero (by omega : fuel ≠ 0)
    have hstep : ((j * c : ℕ) : ℤ) + c = ((n * c : ℕ) : ℤ) := by rw [← hj]; push_cast; ring
    have hle : j * c ≤ n * c := Nat.mul_le_mul_right c (by omega)
    rw [exportLoop, addInt_of_mem (by omega) (by omega), Option.bind_eq_bind, Option.bind_some,
      hstep, if_neg (by rw [toIntType_of_lt hbits]; omega), toNat_emod_of_lt (by omega)]
    rfl
  | succ m ih =>
    obtain ⟨fuel, rfl⟩ := Nat.exists_eq_add_one_of_ne_zero (by omega : fuel ≠ 0)
    have hstep : ((j * c : ℕ) : ℤ) + c = (((j + 1) * c : ℕ) : ℤ) := by push_cast; ring
    have hle : (j + 1) * c ≤ (n - 1) * c := Nat.mul_le_mul_right c (by omega)
    have hjc : j * c ≤ (j + 1) * c := Nat.mul_le_mul_right c (by omega)
    rw [exportLoop, addInt_of_mem (by omega) (by omega), Option.bind_eq_bind, Option.bind_some,
      hstep, if_pos ⟨by omega, by rw [toIntType_of_lt hbits]; omega⟩,
      ih (j + 1) fuel (by omega) (by omega), toNat_emod_of_lt (by omega), range'_succ]
    rfl

/-- Least significant first, where the position after the last chunk is no `int`. -/
theorem exportLoop_overflow (hbits : bitcount < 2 ^ 31) {n : ℕ}
    (hlast : (n - 1) * c < bitcount) (hover : 2 ^ 31 ≤ n * c) (m j fuel : ℕ) (hj : j + m + 1 = n) :
    exportLoop x c bitcount c fuel ((j * c : ℕ) : ℤ) = none := by
  induction m generalizing j fuel with
  | zero =>
    cases fuel with
    | zero => rfl
    | succ fuel =>
      have hstep : ((j * c : ℕ) : ℤ) + c = ((n * c : ℕ) : ℤ) := by rw [← hj]; push_cast; ring
      rw [exportLoop, addInt, hstep, if_neg (by omega)]
      rfl
  | succ m ih =>
    cases fuel with
    | zero => rfl
    | succ fuel =>
      have hstep : ((j * c : ℕ) : ℤ) + c = (((j + 1) * c : ℕ) : ℤ) := by push_cast; ring
      have hle : (j + 1) * c ≤ (n - 1) * c := Nat.mul_le_mul_right c (by omega)
      rw [exportLoop, addInt_of_mem (by omega) (by omega), Option.bind_eq_bind, Option.bind_some,
        hstep, if_pos ⟨by omega, by rw [toIntType_of_lt hbits]; omega⟩,
        ih (j + 1) fuel (by omega)]
      rfl

theorem exportLoop_down (hc : 0 < c) (hc' : c ≤ 64) (hbits : bitcount < 2 ^ 31) (j fuel : ℕ)
    (hj : j * c < bitcount) (hfuel : j < fuel) :
    exportLoop x c bitcount (-c) fuel ((j * c : ℕ) : ℤ) =
      some (((List.range (j + 1)).map (chunkAt x c)).reverse) := by
  induction j generalizing fuel with
  | zero =>
    obtain ⟨fuel, rfl⟩ := Nat.exists_eq_add_one_of_ne_zero (by omega : fuel ≠ 0)
    rw [exportLoop, addInt_of_mem (by omega) (by omega), Option.bind_eq_bind, Option.bind_some,
      if_neg (by omega), toNat_emod_of_lt (by omega)]
    rfl
  | succ j ih =>
    obtain ⟨fuel, rfl⟩ := Nat.exists_eq_add_one_of_ne_zero (by omega : fuel ≠ 0)
    have hstep : (((j + 1) * c : ℕ) : ℤ) + -c = ((j * c : ℕ) : ℤ) := by push_cast; ring
    have hle : j * c ≤ (j + 1) * c := Nat.mul_le_mul_right c (by omega)
    rw [exportLoop, addInt_of_mem (by omega) (by omega), Option.bind_eq_bind, Option.bind_some,
      hstep, if_pos ⟨by omega, by rw [toIntType_of_lt hbits]; omega⟩,
      ih fuel (by omega) (by omega), toNat_emod_of_lt (by omega), range_succ (n := j + 1),
      map_append, List.reverse_append]
    rfl

/-- Past the first chunk the loop writes only at positions below `bitcount`, as an `int`. -/
theorem exportLoop_length {step : ℤ} (fuel : ℕ) (a : ℤ)
    {l : List (BitVec 64)} (hl : exportLoop x c bitcount step fuel a = some l) :
    l.length = 1 ∨ 1 < l.length ∧ 0 ≤ a + step ∧ a + step < toIntType bitcount ∧
      0 ≤ a + (l.length - 1) * step ∧ a + (l.length - 1) * step < toIntType bitcount := by
  induction fuel generalizing a l with
  | zero => cases hl
  | succ fuel ih =>
    rw [exportLoop, Option.bind_eq_bind, Option.bind_eq_some_iff] at hl
    obtain ⟨b, hb, hl⟩ := hl
    obtain ⟨-, hb⟩ := Option.ite_none_right_eq_some.mp hb
    cases hb
    split at hl
    · rename_i hgo
      rw [Option.bind_eq_bind, Option.bind_eq_some_iff] at hl
      obtain ⟨out, hout, hl⟩ := hl
      cases hl
      refine .inr ⟨?_, hgo.1, hgo.2, ?_⟩
      · rcases ih _ hout with h | h
        · simp [h]
        · simp only [length_cons]
          omega
      · rcases ih _ hout with h | ⟨-, -, -, h₁, h₂⟩
        · simp only [length_cons, h]
          push_cast
          constructor <;> linarith [hgo.1, hgo.2]
        · simp only [length_cons]
          push_cast
          constructor <;> linarith
    · cases hl
      exact .inl rfl

end Loops

/-! ### The round trip -/

/-- How many chunks of `c` bits hold `bits` bits. -/
def chunkCount (bits c : ℕ) : ℕ := (bits + c - 1) / c

theorem chunkCount_bounds {bits c : ℕ} (hb : 0 < bits) (hc : 0 < c) :
    0 < chunkCount bits c ∧ (chunkCount bits c - 1) * c < bits ∧ bits ≤ chunkCount bits c * c := by
  have hdm := Nat.div_add_mod (bits + c - 1) c
  have hmod := Nat.mod_lt (bits + c - 1) hc
  rw [← chunkCount, Nat.mul_comm] at hdm
  have hpos : 0 < chunkCount bits c := Nat.div_pos (by omega) hc
  refine ⟨hpos, ?_, by omega⟩
  rw [Nat.sub_mul, Nat.one_mul]
  omega

/-- Every position `export_bits` computes is an `int`. -/
def PositionsFit (x : CppInt w) (c : ℕ) (msvFirst : Bool) : Prop :=
  if msvFirst then x.mag.size < 2 ^ 31 else chunkCount x.mag.size c * c < 2 ^ 31

section RoundTrip
variable [NeZero w] {x : CppInt w} {c : ℕ}

/-- The chunks, least significant first. -/
def chunksOf (x : CppInt w) (c : ℕ) : List (BitVec 64) :=
  (List.range (chunkCount x.mag.size c)).map (chunkAt x c)

theorem exportBits_eq (hx : x.Trimmed) (h0 : x.mag ≠ 0) (msvFirst : Bool) :
    exportBits x c msvFirst =
      (alignLocation (if msvFirst then -c else c) (c + 1)
        (if msvFirst then toIntType ((((x.mag.size % 2 ^ 32 : ℕ) : ℤ) - c) % 2 ^ 32) else 0)).bind
        (exportLoop x c (x.mag.size % 2 ^ 32) (if msvFirst then -c else c)
          (x.mag.size % 2 ^ 32 + 1)) := by
  have hsign : evalGetSign x ≠ 0 := by
    have := hx.evalGetSign_ne_zero
    rw [decide_eq_true h0, bne_iff_ne] at this
    exact this
  have hpos : 0 < x.mag.size := Nat.size_pos.mpr (Nat.pos_of_ne_zero h0)
  have hcount : uint (evalMsbImp x + 1) = x.mag.size % 2 ^ 32 := by
    rw [evalMsbImp_eq hx h0, uint, uint, Nat.mod_add_mod, Nat.sub_add_cancel hpos]
  rw [exportBits, if_neg hsign, hcount]
  rfl

/-- **The chunks written**, where the positions fit. -/
theorem exportBits_of_fits (hx : x.Trimmed) (h0 : x.mag ≠ 0) (hc : 0 < c) (hc' : c ≤ 64)
    {msvFirst : Bool} (hfit : PositionsFit x c msvFirst) :
    exportBits x c msvFirst = some (if msvFirst then (chunksOf x c).reverse else chunksOf x c) := by
  have hsize : 0 < x.mag.size := Nat.size_pos.mpr (Nat.pos_of_ne_zero h0)
  obtain ⟨hpos, hlast, hn⟩ := chunkCount_bounds hsize hc
  rw [exportBits_eq hx h0]
  cases msvFirst with
  | false =>
    have hfit : chunkCount x.mag.size c * c < 2 ^ 31 := hfit
    have hb : x.mag.size < 2 ^ 31 := by omega
    have halign : alignLocation c (c + 1) 0 = some ((c : ℤ) * 0) := alignLocation_eq 0 (.inl rfl)
      (by simpa using hc) (by simp) (by omega) (by simp) (by simp)
    have hup := exportLoop_up (x := x) hc hb hlast hn hfit (chunkCount x.mag.size c - 1) 0
      (x.mag.size + 1) (by omega) (by
        have : chunkCount x.mag.size c - 1 ≤ (chunkCount x.mag.size c - 1) * c :=
          Nat.le_mul_of_pos_right _ hc
        omega)
    rw [Nat.mod_eq_of_lt (by omega)]
    simp only [Bool.false_eq_true, if_false]
    rw [halign, Option.bind_some, Int.mul_zero]
    rw [Nat.zero_mul, Nat.sub_add_cancel hpos, ← range_eq_range'] at hup
    exact hup
  | true =>
    have hb : x.mag.size < 2 ^ 31 := hfit
    have hstart : toIntType ((x.mag.size - c : ℤ) % 2 ^ 32) = x.mag.size - c := by
      rw [toIntType, Int.bmod_def]
      split <;> omega
    have hmul : (c : ℤ) * ((chunkCount x.mag.size c - 1 : ℕ) : ℤ) =
        (((chunkCount x.mag.size c - 1) * c : ℕ) : ℤ) := by push_cast; ring
    have hprev : (c : ℤ) * (((chunkCount x.mag.size c - 1 : ℕ) : ℤ) - 1) =
        (((chunkCount x.mag.size c - 1) * c : ℕ) : ℤ) - c := by push_cast; ring
    have hnext : chunkCount x.mag.size c * c = (chunkCount x.mag.size c - 1) * c + c := by
      conv_lhs => rw [← Nat.sub_add_cancel hpos, Nat.add_mul, Nat.one_mul]
    have halign : alignLocation (-c) (c + 1) (x.mag.size - c) =
        some ((c : ℤ) * ((chunkCount x.mag.size c - 1 : ℕ) : ℤ)) := alignLocation_eq _ (.inr rfl)
      (by rw [hprev]; omega) (by rw [hmul]; omega) (by omega) (by rw [hmul]; omega)
      (by rw [hmul]; omega)
    have hdown := exportLoop_down (x := x) hc hc' hb (chunkCount x.mag.size c - 1)
      (x.mag.size + 1) hlast (by
        have : chunkCount x.mag.size c - 1 ≤ (chunkCount x.mag.size c - 1) * c :=
          Nat.le_mul_of_pos_right _ hc
        omega)
    rw [Nat.mod_eq_of_lt (by omega)]
    simp only [if_true]
    rw [hstart, halign, Option.bind_some, hmul, hdown,
      Nat.sub_add_cancel hpos]
    rfl

/-- Where they do not, nothing is written or too few chunks are. -/
theorem exportBits_of_not_fits (hx : x.Trimmed) (h0 : x.mag ≠ 0) (hc : 0 < c) (hc' : c ≤ 64)
    {msvFirst : Bool} (hfit : ¬ PositionsFit x c msvFirst) {l : List (BitVec 64)}
    (hl : exportBits x c msvFirst = some l) : l.length < chunkCount x.mag.size c := by
  have hsize : 0 < x.mag.size := Nat.size_pos.mpr (Nat.pos_of_ne_zero h0)
  obtain ⟨hpos, hlast, hn⟩ := chunkCount_bounds hsize hc
  rw [exportBits_eq hx h0, Option.bind_eq_some_iff] at hl
  obtain ⟨a, ha, hl⟩ := hl
  rcases Nat.lt_or_ge x.mag.size (2 ^ 31) with hb | hb
  · -- only the position after the last chunk is too large
    cases msvFirst with
    | true => exact absurd hb hfit
    | false =>
      have hover : 2 ^ 31 ≤ chunkCount x.mag.size c * c := Nat.le_of_not_lt hfit
      have halign : alignLocation c (c + 1) 0 = some ((c : ℤ) * 0) := alignLocation_eq 0 (.inl rfl)
        (by simpa using hc) (by simp) (by omega) (by simp) (by simp)
      simp only [Bool.false_eq_true, if_false] at ha hl
      rw [halign, Int.mul_zero, Option.some.injEq] at ha
      have hnone := exportLoop_overflow (x := x) hb hlast hover
        (chunkCount x.mag.size c - 1) 0 (x.mag.size + 1) (by omega)
      rw [Nat.mod_eq_of_lt (by omega), ← ha] at hl
      rw [Nat.zero_mul] at hnone
      rw [show ((0 : ℕ) : ℤ) = 0 from rfl, hl] at hnone
      cases hnone
  · -- the number of bits is no `int`
    have hT : toIntType ((x.mag.size % 2 ^ 32 : ℕ) : ℤ) ≤ (x.mag.size : ℤ) - 2 ^ 31 := by
      rcases Nat.lt_or_ge (x.mag.size % 2 ^ 32) (2 ^ 31) with hlt | hge
      · rw [toIntType_of_lt hlt]
        omega
      · have := toIntType_neg hge (Nat.mod_lt _ (by decide))
        omega
    by_contra hlen
    have hmany : (chunkCount x.mag.size c : ℤ) * c ≤ l.length * c :=
      Int.mul_le_mul_of_nonneg_right (by omega) (by omega)
    have hn' : (x.mag.size : ℤ) ≤ (chunkCount x.mag.size c : ℤ) * c := by exact_mod_cast hn
    rcases exportLoop_length _ _ hl with hone | ⟨-, h₁, h₂, h₃, h₄⟩
    · rw [hone] at hmany
      omega
    · cases msvFirst with
      | false =>
        simp only [Bool.false_eq_true, if_false] at h₁ h₄
        rw [Int.sub_mul, Int.one_mul] at h₄
        omega
      | true =>
        simp only [if_true] at h₂ h₃
        rw [Int.sub_mul, Int.one_mul, Int.mul_neg] at h₃
        omega

theorem length_chunksOf (x : CppInt w) (c : ℕ) :
    (chunksOf x c).length = chunkCount x.mag.size c := by
  rw [chunksOf, length_map, length_range]

theorem getLsbD_chunksOf (h0 : x.mag ≠ 0) (hc : 0 < c) (hc' : c ≤ 64)
    (hb : chunkCount x.mag.size c * c < 2 ^ 32) (q i : ℕ) :
    ((chunksOf x c).getD q 0).getLsbD i = (decide (i < c) && x.mag.testBit (q * c + i)) := by
  obtain ⟨-, -, hn⟩ := chunkCount_bounds (Nat.size_pos.mpr (Nat.pos_of_ne_zero h0)) hc
  rcases Nat.lt_or_ge q (chunkCount x.mag.size c) with hq | hq
  · have hle : (q + 1) * c ≤ chunkCount x.mag.size c * c := Nat.mul_le_mul_right c hq
    rw [Nat.add_mul, Nat.one_mul] at hle
    rw [getD_eq_getElem _ _ (by rwa [length_chunksOf])]
    simp only [chunksOf, getElem_map, getElem_range, chunkAt]
    exact getLsbD_extractBits x hc' (by omega) i
  · have hle : chunkCount x.mag.size c * c ≤ q * c := Nat.mul_le_mul_right c hq
    have hfalse : x.mag.testBit (q * c + i) = false :=
      Nat.testBit_lt_two_pow ((Nat.size_le.mp le_rfl).trans_le
        (Nat.pow_le_pow_right Nat.two_pos (by omega)))
    rw [getD_eq_default _ _ (by rwa [length_chunksOf]), hfalse, Bool.and_false]
    exact BitVec.getLsbD_zero

theorem toNat_lt_of_getLsbD {b : BitVec 64} (h : ∀ i, c ≤ i → b.getLsbD i = false) :
    b.toNat < 2 ^ c :=
  Nat.lt_pow_two_of_testBit _ fun i hi => by rw [BitVec.testBit_toNat, h i hi]

theorem exportBits_zero (hx : x.Trimmed) (h0 : x.mag = 0) (msvFirst : Bool) :
    exportBits x c msvFirst = some [0] := by
  have hsign : evalGetSign x = 0 := by
    have := hx.evalGetSign_ne_zero
    simpa [h0] using this
  rw [exportBits, if_pos hsign]

/-- What the chunks of a number give back. -/
theorem importBitsGeneric_represents {newval : CppInt w} (hnew : newval.sign = false)
    {l : List (BitVec 64)} (hne : l ≠ []) (hc : 0 < c) (msvFirst : Bool)
    (h32 : l.length * c < 2 ^ 32)
    (hbit : ∀ q i, ((if msvFirst then l.reverse else l).getD q 0).getLsbD i =
      (decide (i < c) && x.mag.testBit (q * c + i))) :
    (importBitsGeneric newval l c msvFirst).Represents x.mag := by
  have hl : ∀ b ∈ l, ∀ i, c ≤ i → b.getLsbD i = false := by
    intro b hb i hi
    have hb' : b ∈ if msvFirst then l.reverse else l := by split <;> simpa using hb
    obtain ⟨q, hq, rfl⟩ := getElem_of_mem hb'
    have := hbit q i
    rw [getD_eq_getElem _ _ hq] at this
    rw [this, decide_eq_false (by omega), Bool.false_and]
  obtain ⟨hrep, hread⟩ := testBit_importBitsGeneric hnew hne hc hl h32 msvFirst
  have hmag : (importBitsGeneric newval l c msvFirst).mag = x.mag := by
    refine Nat.eq_of_testBit_eq fun k => ?_
    rw [hread k, hbit, decide_eq_true (Nat.mod_lt k hc), Bool.true_and, Nat.mul_comm,
      Nat.div_add_mod]
  rwa [hmag] at hrep

/-- **Export, then import.**  The chunks are as many as the bits need, each below `2 ^ c`, and give
back the number, exactly when the number is zero or every position fits `int`. -/
theorem exportBits_importBits_iff (hx : x.Canonical) (hnn : 0 ≤ x.toInt) (hc : 0 < c)
    (hc' : c ≤ 64) (msvFirst : Bool) :
    (∃ l, exportBits x c msvFirst = some l ∧ l.length = max 1 (chunkCount x.mag.size c) ∧
      (∀ b ∈ l, b.toNat < 2 ^ c) ∧
      ∀ newval : CppInt w, newval.sign = false →
        (importBitsGeneric newval l c msvFirst).Represents x.toInt) ↔
      (x.mag = 0 ∨ PositionsFit x c msvFirst) := by
  have hint : x.toInt = x.mag := by
    have := toInt_natAbs x
    omega
  by_cases h0 : x.mag = 0
  · refine iff_of_true ⟨[0], exportBits_zero hx.1 h0 msvFirst, ?_, ?_, fun newval hnew => ?_⟩ (.inl h0)
    · have : (0 + c - 1) / c = 0 := Nat.div_eq_of_lt (by omega)
      rw [h0, Nat.size_zero, chunkCount, this]
      rfl
    · intro b hb
      rw [mem_singleton.mp hb]
      exact Nat.two_pow_pos c
    · rw [hint]
      refine importBitsGeneric_represents hnew (cons_ne_nil _ _) hc msvFirst (by simp; omega)
        fun q i => ?_
      rw [h0, Nat.zero_testBit, Bool.and_false, reverse_singleton, ite_self]
      cases q <;> simp
  · have hsize : 0 < x.mag.size := Nat.size_pos.mpr (Nat.pos_of_ne_zero h0)
    obtain ⟨hpos, hlast, hn⟩ := chunkCount_bounds hsize hc
    rw [Nat.max_eq_right hpos, or_iff_right h0]
    constructor
    · rintro ⟨l, hl, hlen, -⟩
      by_contra hfit
      exact absurd hlen (exportBits_of_not_fits hx.1 h0 hc hc' hfit hl).ne
    · intro hfit
      have h32 : chunkCount x.mag.size c * c < 2 ^ 32 := by
        have hnext : chunkCount x.mag.size c * c = (chunkCount x.mag.size c - 1) * c + c := by
          conv_lhs => rw [← Nat.sub_add_cancel hpos, Nat.add_mul, Nat.one_mul]
        cases msvFirst with
        | false =>
          have : chunkCount x.mag.size c * c < 2 ^ 31 := hfit
          omega
        | true =>
          have : x.mag.size < 2 ^ 31 := hfit
          omega
      have hbits := getLsbD_chunksOf h0 hc hc' h32
      have hlen : (if msvFirst then (chunksOf x c).reverse else chunksOf x c).length =
          chunkCount x.mag.size c := by
        split <;> simp [length_chunksOf]
      refine ⟨_, exportBits_of_fits hx.1 h0 hc hc' hfit, hlen, fun b hb => ?_, fun newval hnew => ?_⟩
      · refine toNat_lt_of_getLsbD fun i hi => ?_
        have hb' : b ∈ chunksOf x c := by
          split at hb
          · exact mem_reverse.mp hb
          · exact hb
        obtain ⟨q, hq, rfl⟩ := getElem_of_mem hb'
        have := hbits q i
        rw [getD_eq_getElem _ _ hq] at this
        rw [this, decide_eq_false (by omega), Bool.false_and]
      · rw [hint]
        refine importBitsGeneric_represents hnew ?_ hc msvFirst (by rw [hlen]; exact h32) fun q i => ?_
        · rw [ne_eq, ← length_eq_zero_iff, hlen]
          omega
        · rw [← hbits q i]
          split <;> simp

end RoundTrip

/-- Five, in chunks of two bits. -/
theorem exportBits_importBits_five :
    ∃ l, exportBits (⟨fun _ => 5, 1, false⟩ : CppInt 64) 2 true = some l ∧ l.length = 2 ∧
      (importBitsGeneric (⟨fun _ => 0, 1, false⟩ : CppInt 64) l 2 true).Represents 5 := by
  have hmag : (⟨fun _ => 5, 1, false⟩ : CppInt 64).mag = 5 := natOf_one _
  have hint : (⟨fun _ => 5, 1, false⟩ : CppInt 64).toInt = 5 := by
    rw [toInt_of_sign rfl, hmag]
    rfl
  have hsize : Nat.size 5 = 3 := by decide
  obtain ⟨l, hl, hlen, -, himp⟩ := (exportBits_importBits_iff
    (x := (⟨fun _ => 5, 1, false⟩ : CppInt 64)) (c := 2) (by decide) (by rw [hint]; decide)
    (by decide) (by decide) true).mpr
    (.inr (by rw [PositionsFit, if_pos rfl, hmag, hsize]; decide))
  rw [hmag, hsize] at hlen
  refine ⟨l, hl, hlen, ?_⟩
  rw [← hint]
  exact himp _ rfl

/-- The power of two with `n` limbs below its own. -/
def powerOfLimb (n : ℕ) : CppInt 64 := ⟨fun i => if i = n then 1 else 0, n + 1, false⟩

theorem powerOfLimb_spec (n : ℕ) :
    (powerOfLimb n).Canonical ∧ (powerOfLimb n).mag ≠ 0 ∧ 64 * n < (powerOfLimb n).mag.size := by
  have htop : (powerOfLimb n).limbs n = 1 := if_pos rfl
  have htrim : (powerOfLimb n).Trimmed := by
    refine ⟨Nat.succ_pos n, .inr ?_⟩
    rw [show (powerOfLimb n).size - 1 = n from rfl, htop]
    decide
  have hmag : (2 ^ 64) ^ n ≤ (powerOfLimb n).mag := by
    have := Radix.pow_le_value (B := 2 ^ 64) (f := fun i => ((powerOfLimb n).limbs i).toNat) (n := n)
      (by rw [htop]; decide)
    exact this
  have hpos : 0 < (2 ^ 64) ^ n := Nat.pow_pos (Nat.two_pow_pos 64)
  refine ⟨canonical_iff.mpr ⟨htrim, fun _ => rfl⟩, by omega, Nat.lt_size.mpr ?_⟩
  rwa [pow_mul]

/-- At `2 ^ (2 ^ 31)` too few chunks are written. -/
theorem exportBits_truncates :
    ∃ x : CppInt 64, x.Canonical ∧ 0 ≤ x.toInt ∧
      ¬ ∃ l, exportBits x 8 true = some l ∧ l.length = max 1 (chunkCount x.mag.size 8) := by
  obtain ⟨hcan, h0, hsize⟩ := powerOfLimb_spec (2 ^ 25)
  generalize hx : powerOfLimb (2 ^ 25) = x at hcan h0 hsize
  have hsign : x.sign = false := by rw [← hx]; rfl
  refine ⟨x, hcan, ?_, ?_⟩
  · rw [toInt_of_sign hsign]
    exact Int.natCast_nonneg _
  · rintro ⟨l, hl, hlen⟩
    have hfit : ¬ PositionsFit x 8 true := by
      rw [PositionsFit, if_pos rfl]
      omega
    have hlt := exportBits_of_not_fits hcan.1 h0 (by decide) (by decide) hfit hl
    omega

end SourceLibs.CppInt
