import SourceLibs.DynamicBitset.Refinement
import SourceLibs.Support.Ones

/-!
# DynamicBitset — raw blocks

`from_block_range`, which writes whole blocks, and `count`, which reads them through a table of
bytes: over the object representation of the blocks when a block has no padding, over the value of
each block otherwise.

* `count_eq`: `count` is the number of bits set in the blocks, whichever way it reads them.
* `setEach_reads`: the set built bit by bit has the bits of the one it is built from.
* `fromBlockRange_iff`: the set is consistent exactly when no bit is written past its size.
-/

namespace SourceLibs.DynamicBitset
open List

open Blocks

variable {w : ℕ}

/-! ### The source -/

/-- `from_block_range`; `none` when the range is longer than the blocks. -/
def fromBlockRange (blocks : List (BitVec w)) (result : DynamicBitset w) :
    Option (DynamicBitset w) :=
  if blocks.length ≤ result.numBlocks then
    some { result with bits := blocks ++ result.bits.drop blocks.length }
  else Option.none

/-- The bits that are set in a byte. -/
def countTable : List ℕ :=
  [0, 1, 1, 2, 1, 2, 2, 3, 1, 2, 2, 3, 2, 3, 3, 4, 1, 2, 2, 3, 2, 3, 3, 4, 2, 3, 3, 4, 3, 4, 4, 5,
   1, 2, 2, 3, 2, 3, 3, 4, 2, 3, 3, 4, 3, 4, 4, 5, 2, 3, 3, 4, 3, 4, 4, 5, 3, 4, 4, 5, 4, 5, 5, 6,
   1, 2, 2, 3, 2, 3, 3, 4, 2, 3, 3, 4, 3, 4, 4, 5, 2, 3, 3, 4, 3, 4, 4, 5, 3, 4, 4, 5, 4, 5, 5, 6,
   2, 3, 3, 4, 3, 4, 4, 5, 3, 4, 4, 5, 4, 5, 5, 6, 3, 4, 4, 5, 4, 5, 5, 6, 4, 5, 5, 6, 5, 6, 6, 7,
   1, 2, 2, 3, 2, 3, 3, 4, 2, 3, 3, 4, 3, 4, 4, 5, 2, 3, 3, 4, 3, 4, 4, 5, 3, 4, 4, 5, 4, 5, 5, 6,
   2, 3, 3, 4, 3, 4, 4, 5, 3, 4, 4, 5, 4, 5, 5, 6, 3, 4, 4, 5, 4, 5, 5, 6, 4, 5, 5, 6, 5, 6, 6, 7,
   2, 3, 3, 4, 3, 4, 4, 5, 3, 4, 4, 5, 4, 5, 5, 6, 3, 4, 4, 5, 4, 5, 5, 6, 4, 5, 5, 6, 5, 6, 6, 7,
   3, 4, 4, 5, 4, 5, 5, 6, 4, 5, 5, 6, 5, 6, 6, 7, 4, 5, 5, 6, 5, 6, 6, 7, 5, 6, 6, 7, 6, 7, 7, 8]

/-- `object_representation` of a block without padding: its bytes in the order of the machine. -/
def objectRepresentation (bigEndian : Bool) (x : BitVec w) : List ℕ :=
  let bytes := (List.range (w / 8)).map fun k => (x >>> (8 * k)).toNat % 256
  if bigEndian then bytes.reverse else bytes

/-- `do_count` with access by bytes. -/
def doCountBytes (bigEndian : Bool) (bits : List (BitVec w)) : ℕ :=
  (bits.flatMap (objectRepresentation bigEndian)).foldl
    (fun num p => num + countTable.getD p 0) 0

/-- The inner loop of `do_count` with access by blocks. -/
def countValue (value : BitVec w) (num : ℕ) : ℕ :=
  if value ≠ 0 then
    countValue (value >>> 8) (num + countTable.getD (value.toNat % 256) 0)
  else num
termination_by value.toNat
decreasing_by
  rename_i h
  have hpos : value.toNat ≠ 0 := fun hz => h (BitVec.eq_of_toNat_eq (by simpa using hz))
  rw [BitVec.toNat_ushiftRight, Nat.shiftRight_eq_div_pow]
  exact Nat.div_lt_self (by omega) (by decide)

/-- `do_count` with access by blocks. -/
def doCountBlocks (bits : List (BitVec w)) : ℕ :=
  bits.foldl (fun num value => countValue value num) 0

/-- `count`; `noPadding` says that the bits of a block are all the bits of its bytes. -/
def count (noPadding bigEndian : Bool) (b : DynamicBitset w) : ℕ :=
  if noPadding then doCountBytes bigEndian b.bits else doCountBlocks b.bits

/-- `dynamic_bitset(num_bits)`. -/
def ofSize (w numBits : ℕ) : DynamicBitset w :=
  ⟨List.replicate (calcNumBlocks w numBits) 0, numBits⟩

/-! ### Counting -/

theorem countTable_mod (N : ℕ) : countTable.getD (N % 256) 0 = ones N 8 :=
  getD_ones (show countTable = _ by decide +kernel) N

theorem foldl_add (f : ℕ → ℕ) (l : List ℕ) (n : ℕ) :
    l.foldl (fun num p => num + f p) n = n + (l.map f).sum := by
  induction l generalizing n with
  | nil => simp
  | cons p l ih => rw [foldl_cons, ih, map_cons, sum_cons, Nat.add_assoc]

theorem sum_bytes (x : BitVec w) (m : ℕ) :
    ((List.range m).map fun k => countTable.getD ((x >>> (8 * k)).toNat % 256) 0).sum =
      ones x.toNat (8 * m) := by
  induction m with
  | zero => rfl
  | succ m ih =>
    rw [range_succ, map_append, List.sum_append, ih, Nat.mul_succ, ones_add,
      map_singleton, sum_singleton, BitVec.toNat_ushiftRight,
      Nat.shiftRight_eq_div_pow, countTable_mod]

theorem sum_objectRepresentation (hw : 8 ∣ w) (bigEndian : Bool) (x : BitVec w) :
    ((objectRepresentation bigEndian x).map fun p => countTable.getD p 0).sum = ones x.toNat w := by
  have hbytes := sum_bytes x (w / 8)
  rw [Nat.mul_div_cancel' hw] at hbytes
  rw [← hbytes, objectRepresentation]
  cases bigEndian
  · simp [Function.comp_def]
  · simp [Function.comp_def, sum_reverse]

theorem countValue_eq (value : BitVec w) (num n : ℕ) (h : value.toNat < 2 ^ (8 * n)) :
    countValue value num = num + ones value.toNat (8 * n) := by
  induction n generalizing value num with
  | zero =>
    have hz : value = 0 := BitVec.eq_of_toNat_eq (by simpa using h)
    rw [countValue, if_neg (by simp [hz]), hz]
    rfl
  | succ n ih =>
    have hshift : (value >>> 8).toNat = value.toNat / 2 ^ 8 := by
      rw [BitVec.toNat_ushiftRight, Nat.shiftRight_eq_div_pow]
    rw [countValue]
    split
    · rw [ih _ _ (by
        rw [hshift, Nat.div_lt_iff_lt_mul (by decide), ← Nat.pow_add]
        exact h), hshift, countTable_mod, Nat.mul_succ, Nat.add_comm (8 * n), ones_add,
        Nat.add_assoc]
    · rename_i hz
      rw [not_not.mp hz]
      simp [ones_zero]

/-- **`count`**: the bits that are set in the blocks, those past the size included. -/
theorem count_eq (hw : 0 < w) (noPadding bigEndian : Bool) (hpad : noPadding = true → 8 ∣ w)
    (b : DynamicBitset w) :
    b.count noPadding bigEndian = (List.range (w * b.numBlocks)).countP (bit b.bits) := by
  rw [numBlocks, countP_bit hw, count]
  split
  · rename_i hno
    rw [doCountBytes, foldl_add, Nat.zero_add, map_flatMap, flatMap_def, sum_flatten,
      List.map_map]
    congr 1
    exact map_congr_left fun x _ => sum_objectRepresentation (hpad hno) bigEndian x
  · have hblock : ∀ (x : BitVec w) (num : ℕ), countValue x num = num + ones x.toNat w := by
      intro x num
      have hlt : x.toNat < 2 ^ (8 * w) :=
        x.isLt.trans_le (Nat.pow_le_pow_right (by decide) (by omega))
      rw [countValue_eq x num w hlt, show 8 * w = w + 7 * w by omega, ones_of_lt x.isLt]
    have hfold : ∀ (bits : List (BitVec w)) (num : ℕ),
        bits.foldl (fun num value => countValue value num) num =
          num + (bits.map fun x => ones x.toNat w).sum := by
      intro bits
      induction bits with
      | nil => simp
      | cons x bits ih =>
        intro num
        rw [foldl_cons, ih, hblock, map_cons, sum_cons, Nat.add_assoc]
    rw [doCountBlocks, hfold, Nat.zero_add]

/-! ### Building bit by bit -/

/-- The set of the same size built by setting each bit that is set. -/
def setEach (b : DynamicBitset w) : Option (DynamicBitset w) :=
  ((List.range b.numBits).filter fun i => b.test i = some true).foldlM (fun c i => c.set i true)
    (ofSize w b.numBits)

theorem ofSize_reads (n : ℕ) : (ofSize w n).Reads n fun _ => false := by
  refine ⟨rfl, length_replicate, fun i => ?_⟩
  rw [ofSize, bit, block_replicate]
  simp

theorem foldlM_set_reads (hw : 0 < w) {n : ℕ} (l : List ℕ) {c : DynamicBitset w} {f : ℕ → Bool}
    (hc : c.Reads n f) (hl : ∀ i ∈ l, i < n) :
    ∃ c', l.foldlM (fun c i => c.set i true) c = some c' ∧
      c'.Reads n fun i => f i || decide (i ∈ l) := by
  induction l generalizing c f with
  | nil => exact ⟨c, rfl, hc.congr fun i _ => by simp⟩
  | cons j l ih =>
    have hj : j < c.numBits := by
      rw [hc.numBits_eq]
      exact hl j (mem_cons_self ..)
    obtain ⟨c₁, hc₁, hr₁⟩ := hc.valid.set_reads hw hj true
    rw [hc.numBits_eq] at hr₁
    obtain ⟨c', hc', hr'⟩ := ih hr₁ fun i hi => hl i (mem_cons_of_mem _ hi)
    refine ⟨c', by rw [foldlM_cons, hc₁]; exact hc', hr'.congr fun i hi => ?_⟩
    rw [hc.bit_eq, decide_eq_true hi, Bool.true_and]
    by_cases he : i = j
    · simp [he]
    · simp [he]

/-- **The set built bit by bit** has the bits it was built from, whatever lies past the size. -/
theorem setEach_reads (hw : 0 < w) (b : DynamicBitset w) :
    ∃ c, b.setEach = some c ∧ c.Reads b.numBits (bit b.bits) := by
  obtain ⟨c, hc, hr⟩ := foldlM_set_reads hw
    ((List.range b.numBits).filter fun i => b.test i = some true) (ofSize_reads b.numBits)
    fun i hi => mem_range.mp (mem_of_mem_filter hi)
  refine ⟨c, hc, hr.congr fun i hi => ?_⟩
  simp [hi, test_eq_some hi]

/-! ### Raw blocks -/

/-- The invariant holds, `count` is the number of positions whose bit is set, and the set equals the
one built bit by bit. -/
def Consistent (noPadding bigEndian : Bool) (b : DynamicBitset w) : Prop :=
  b.mCheckInvariants = true ∧
    b.count noPadding bigEndian = (List.range b.numBits).countP (fun i => b.test i = some true) ∧
    ∃ c, b.setEach = some c ∧ b.equal c = true

theorem Valid.consistent (hw : 0 < w) {b : DynamicBitset w} (h : b.Valid)
    {noPadding : Bool} (bigEndian : Bool) (hpad : noPadding = true → 8 ∣ w) :
    b.Consistent noPadding bigEndian := by
  refine ⟨(mCheckInvariants_iff hw).mpr h, ?_, ?_⟩
  · have hle : b.numBits ≤ w * b.numBlocks := by
      by_contra hgt
      have hlast := (lt_calcNumBlocks hw (q := b.numBlocks) (n := b.numBits)).mpr (by omega)
      rw [← h.length_eq] at hlast
      exact absurd hlast (Nat.lt_irrefl _)
    rw [count_eq hw noPadding bigEndian hpad, countP_range_of_false hle h.unused]
    refine countP_congr fun i hi => ?_
    simp [test_eq_some (mem_range.mp hi)]
  · obtain ⟨c, hc, hr⟩ := setEach_reads hw b
    refine ⟨c, hc, (h.equal_iff hr.valid).mpr ?_⟩
    have hl := hr.toList_eq (length_toList b) fun i hi => getElem?_toList b hi
    exact hl.symm

/-- The bits after the copy: those of the blocks supplied, then those that were there. -/
theorem bit_fromBlockRange {blocks : List (BitVec w)} {b : DynamicBitset w} (i : ℕ) :
    bit (blocks ++ b.bits.drop blocks.length) i =
      if i / w < blocks.length then bit blocks i else bit b.bits i := by
  rw [bit, block_append]
  split
  · rfl
  · rename_i hge
    have hget : block (b.bits.drop blocks.length) (i / w - blocks.length) = block b.bits (i / w) := by
      rw [block, block, getD_eq_getElem?_getD, List.getElem?_drop, getD_eq_getElem?_getD,
        Nat.add_sub_cancel' (Nat.le_of_not_lt hge)]
    rw [hget, bit]

/-- **When `from_block_range` leaves a consistent set**: exactly when no bit of the blocks lies past
the size. -/
theorem fromBlockRange_iff (hw : 0 < w) {b : DynamicBitset w} (hb : b.mCheckInvariants = true)
    {blocks : List (BitVec w)} (hlen : blocks.length ≤ b.numBlocks) (noPadding bigEndian : Bool)
    (hpad : noPadding = true → 8 ∣ w) :
    ∃ b', fromBlockRange blocks b = some b' ∧
      (b'.Consistent noPadding bigEndian ↔ ∀ i, b.numBits ≤ i → bit blocks i = false) := by
  have h := (mCheckInvariants_iff hw).mp hb
  refine ⟨_, if_pos hlen, fun hc i hi => ?_, fun hz => ?_⟩
  · have hv := (mCheckInvariants_iff hw).mp hc.1
    rcases Nat.lt_or_ge (i / w) blocks.length with hlt | hge
    · have hunused := hv.unused i hi
      rwa [bit_fromBlockRange, if_pos hlt] at hunused
    · rw [bit, block_of_ge hge]
      exact BitVec.getLsbD_zero
  · refine Valid.consistent hw ⟨?_, fun i hi => ?_⟩ bigEndian hpad
    · rw [length_append, length_drop, ← h.length_eq]
      rw [numBlocks] at hlen
      omega
    · rw [bit_fromBlockRange]
      split
      · exact hz i hi
      · exact h.unused i hi

/-- Three bits in a block of eight, and the block `0x5`. -/
theorem fromBlockRange_iff_five : ∃ b' : DynamicBitset 8,
    fromBlockRange [0x5#8] ⟨[0#8], 3⟩ = some b' ∧ b'.Consistent true false := by
  obtain ⟨b', hb', hiff⟩ := fromBlockRange_iff (w := 8) (by decide) (b := ⟨[0#8], 3⟩) (by decide)
    (show [0x5#8].length ≤ 1 by decide) true false (by decide)
  refine ⟨b', hb', hiff.mpr fun i hi => ?_⟩
  have hlow : ∀ i < 8, 3 ≤ i → bit [0x5#8] i = false := by decide
  rcases Nat.lt_or_ge i 8 with hlt | hge
  · exact hlow i hlt hi
  · exact bit_of_ge hge

/-- Three bits in a block of eight, and the block `0xFF`. -/
theorem fromBlockRange_inconsistent : ∃ b' : DynamicBitset 8,
    fromBlockRange [0xFF#8] ⟨[0#8], 3⟩ = some b' ∧ b'.mCheckInvariants = false ∧
      b'.count true false = 8 ∧ ¬ b'.Consistent true false := by
  refine ⟨⟨[0xFF#8], 3⟩, rfl, by decide, by decide, fun h => ?_⟩
  exact absurd h.1 (by decide)

end SourceLibs.DynamicBitset
