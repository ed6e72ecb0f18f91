import Mathlib.Algebra.BigOperators.Group.Finset.Basic
import SourceLibs.DynamicBitset.Refinement
import SourceLibs.Integer.LowestBit

/-!
# DynamicBitset — looking for bits

`find_first`, `find_next` and `to_ulong`.  A `size_type` has `S` bits, its greatest value is `npos`;
an `unsigned long` has `U` bits.  A result is `none` when an assertion fails.

* `mDoFindFrom_spec`: the scan by blocks finds the least bit from the first of its block on.
* `findFirst_spec`, `findNext_spec`: the least bit that is set, from the start or after a position.
* `toUlong_spec`: when the conversion throws, and what it returns.
* `search_exact`: these together, with the loop that visits every bit that is set.
-/

namespace SourceLibs.DynamicBitset
open List

open Blocks Integer

variable {w : ℕ}

/-! ### The source -/

/-- `npos`: `static_cast<size_type>(-1)`. -/
def npos (S : ℕ) : ℕ := 2 ^ S - 1

/-- `while (i < num_blocks() && m_bits[i] == 0) ++i`. -/
def skipNull (b : DynamicBitset w) (i : ℕ) : ℕ :=
  if i < b.numBlocks ∧ block b.bits i = 0 then skipNull b (i + 1) else i
termination_by b.numBlocks - i

def mDoFindFrom (S : ℕ) (b : DynamicBitset w) (firstBlock : ℕ) : Option ℕ :=
  let i := b.skipNull firstBlock
  if b.numBlocks ≤ i then some (npos S)
  else (lowestBit (block b.bits i)).map fun k => i * w + k

def findFirst (S : ℕ) (b : DynamicBitset w) : Option ℕ := b.mDoFindFrom S 0

/-- `find_next`; `sz-1` wraps when `sz` is zero. -/
def findNext (S : ℕ) (b : DynamicBitset w) (pos : ℕ) : Option ℕ :=
  let sz := b.numBits
  if (sz + (2 ^ S - 1)) % 2 ^ S ≤ pos ∨ sz = 0 then some (npos S)
  else
    let pos := pos + 1
    let blk := pos / w
    let ind := pos % w
    let fore := block b.bits blk >>> ind
    if fore ≠ 0 then (lowestBit fore).map fun k => pos + k else b.mDoFindFrom S (blk + 1)

/-- What `to_ulong` throws. -/
inductive Thrown where
  | overflowError (what : String)
  deriving DecidableEq, Repr

/-- The loop of `to_ulong` over the first `k` blocks. -/
def gather (U : ℕ) (b : DynamicBitset w) (k : ℕ) : BitVec U :=
  (List.range k).foldl
    (fun result i => result ||| ((block b.bits i).setWidth U <<< (i * w))) 0

def toUlong (S U : ℕ) (b : DynamicBitset w) : Option (Except Thrown (BitVec U)) :=
  if b.numBits = 0 then some (.ok 0)
  else
    (b.findNext S (U - 1)).bind fun next =>
      if next ≠ npos S then
        some (.error (.overflowError "boost::dynamic_bitset::to_ulong overflow"))
      else
        let maximumSize := min b.numBits U
        let lastBlock := (maximumSize - 1) / w
        if lastBlock * w < U then some (.ok (b.gather U (lastBlock + 1))) else Option.none

/-- `for (i = b.find_first(); i != npos; i = b.find_next(i))`, from `i`: the positions visited. -/
def visitFrom (S : ℕ) (b : DynamicBitset w) : ℕ → ℕ → Option (List ℕ)
  | 0, _ => Option.none
  | fuel + 1, i =>
    if i = npos S then some []
    else (b.findNext S i).bind fun next => (visitFrom S b fuel next).map (i :: ·)

/-- The whole loop. -/
def visited (S fuel : ℕ) (b : DynamicBitset w) : Option (List ℕ) :=
  (b.findFirst S).bind (b.visitFrom S fuel)

/-! ### The least bit -/

/-- The least position from `start` on whose bit is set, or `npos`. -/
def LeastSet (S : ℕ) (b : DynamicBitset w) (start r : ℕ) : Prop :=
  (r = npos S ∧ ∀ i, start ≤ i → b.test i ≠ some true) ∨
    (start ≤ r ∧ r ≠ npos S ∧ b.test r = some true ∧
      ∀ i, start ≤ i → i < r → b.test i ≠ some true)

variable {b : DynamicBitset w} {S : ℕ}

theorem ne_npos (hsize : b.numBits < 2 ^ S) {i : ℕ} (hi : i < b.numBits) : i ≠ npos S := by
  rw [npos]
  omega

theorem Valid.bit_lt (h : b.Valid) {i : ℕ} (hi : bit b.bits i = true) : i < b.numBits := by
  by_contra hge
  rw [h.unused i (by omega)] at hi
  cases hi

theorem Valid.leastSet_some (h : b.Valid) (hsize : b.numBits < 2 ^ S) {start r : ℕ} (hr : start ≤ r)
    (hbit : bit b.bits r = true) (hleast : ∀ i, start ≤ i → i < r → bit b.bits i = false) :
    b.LeastSet S start r := by
  refine .inr ⟨hr, ne_npos hsize (h.bit_lt hbit), h.test_eq_true_iff.mpr hbit, fun i hi hlt => ?_⟩
  rw [ne_eq, h.test_eq_true_iff, hleast i hi hlt]
  decide

theorem Valid.leastSet_none (h : b.Valid) {start : ℕ}
    (hnone : ∀ i, start ≤ i → bit b.bits i = false) : b.LeastSet S start (npos S) := by
  refine .inl ⟨rfl, fun i hi => ?_⟩
  rw [ne_eq, h.test_eq_true_iff, hnone i hi]
  decide

theorem skipNull_spec (b : DynamicBitset w) (i : ℕ) :
    i ≤ b.skipNull i ∧ (∀ q, i ≤ q → q < b.skipNull i → block b.bits q = 0) ∧
      (b.skipNull i < b.numBlocks → block b.bits (b.skipNull i) ≠ 0) := by
  induction i using skipNull.induct b with
  | case1 i h ih =>
    obtain ⟨hle, hzero, hstop⟩ := ih
    rw [skipNull, if_pos h]
    refine ⟨by omega, fun q hq hlt => ?_, hstop⟩
    rcases Nat.eq_or_lt_of_le hq with rfl | hgt
    · exact h.2
    · exact hzero q hgt hlt
  | case2 i h =>
    rw [skipNull, if_neg h]
    exact ⟨Nat.le_refl _, fun q hq hlt => by omega, fun hlt hz => h ⟨hlt, hz⟩⟩

theorem bit_of_block_zero {i : ℕ} (h : block b.bits (i / w) = 0) : bit b.bits i = false := by
  rw [bit, h]
  exact BitVec.getLsbD_zero

/-- **The scan** finds the least bit from the first of its block on. -/
theorem mDoFindFrom_spec (hw : 0 < w) (h : b.Valid) (hsize : b.numBits < 2 ^ S) (q : ℕ) :
    ∃ r, b.mDoFindFrom S q = some r ∧ b.LeastSet S (q * w) r := by
  obtain ⟨hle, hzero, hstop⟩ := skipNull_spec b q
  have hblock : ∀ i, q * w ≤ i → q ≤ i / w := fun i hi => (Nat.le_div_iff_mul_le hw).mpr hi
  unfold mDoFindFrom
  simp only
  by_cases hend : b.numBlocks ≤ b.skipNull q
  · refine ⟨npos S, if_pos hend, h.leastSet_none fun i hi => ?_⟩
    refine bit_of_block_zero ?_
    by_cases hlt : i / w < b.skipNull q
    · exact hzero _ (hblock i hi) hlt
    · exact block_of_ge (show b.numBlocks ≤ i / w by omega)
  · obtain ⟨k, hrun, hk, hset, hleast⟩ := lowestBit_spec (hstop (by omega))
    refine ⟨b.skipNull q * w + k, by rw [if_neg hend, hrun]; rfl, ?_⟩
    have hbits : ∀ t < w, bit b.bits (b.skipNull q * w + t) =
        (block b.bits (b.skipNull q)).getLsbD t := fun t ht => by
      rw [Nat.mul_comm, bit_mul_add _ ht]
    have hmul := Nat.mul_le_mul_right w hle
    refine h.leastSet_some hsize (by omega) (by rw [hbits k hk, hset]) fun i hi hlt => ?_
    have hdm := Nat.div_add_mod' i w
    have hmod := Nat.mod_lt i hw
    by_cases hlow : i / w < b.skipNull q
    · exact bit_of_block_zero (hzero _ (hblock i hi) hlow)
    · have hge := Nat.mul_le_mul_right w (Nat.le_of_not_lt hlow)
      have heq : i = b.skipNull q * w + (i - b.skipNull q * w) := by omega
      rw [heq, hbits _ (by omega), hleast _ (by omega)]

theorem findFirst_spec (hw : 0 < w) (h : b.Valid) (hsize : b.numBits < 2 ^ S) :
    ∃ r, b.findFirst S = some r ∧ b.LeastSet S 0 r := by
  have hscan := mDoFindFrom_spec hw h hsize 0
  rwa [Nat.zero_mul] at hscan

/-- **`find_next`**: in the block of the next position first, then from the next block on. -/
theorem findNext_spec (hw : 0 < w) (h : b.Valid) (hsize : b.numBits < 2 ^ S) (pos : ℕ) :
    ∃ r, b.findNext S pos = some r ∧ b.LeastSet S (pos + 1) r := by
  have hwrap : 0 < b.numBits → (b.numBits + (2 ^ S - 1)) % 2 ^ S = b.numBits - 1 := fun hpos => by
    rw [show b.numBits + (2 ^ S - 1) = b.numBits - 1 + 2 ^ S by omega, Nat.add_mod_right,
      Nat.mod_eq_of_lt (by omega)]
  unfold findNext
  simp only
  by_cases hend : (b.numBits + (2 ^ S - 1)) % 2 ^ S ≤ pos ∨ b.numBits = 0
  · refine ⟨npos S, if_pos hend, h.leastSet_none fun i hi => h.unused i ?_⟩
    rcases Nat.eq_zero_or_pos b.numBits with hz | hpos
    · omega
    · rw [hwrap hpos] at hend
      omega
  · rw [if_neg hend]
    have hdm := Nat.div_add_mod' (pos + 1) w
    have hmod := Nat.mod_lt (pos + 1) hw
    have hbits : ∀ t, (pos + 1) % w + t < w → bit b.bits (pos + 1 + t) =
        (block b.bits ((pos + 1) / w)).getLsbD ((pos + 1) % w + t) := fun t ht => by
      rw [← bit_mul_add _ ht, Nat.mul_comm]
      congr 1
      omega
    by_cases hfore : block b.bits ((pos + 1) / w) >>> ((pos + 1) % w) = 0
    · -- the rest of the block is zero
      rw [if_neg (not_not.mpr hfore)]
      obtain ⟨r, hrun, hleast⟩ := mDoFindFrom_spec hw h hsize ((pos + 1) / w + 1)
      have hrest : ∀ i, pos + 1 ≤ i → i < ((pos + 1) / w + 1) * w → b.test i ≠ some true := by
        intro i hi hlt
        rw [Nat.succ_mul] at hlt
        have hbit := congrArg (fun x => BitVec.getLsbD x (i - (pos + 1))) hfore
        have heq : i = pos + 1 + (i - (pos + 1)) := by omega
        rw [ne_eq, h.test_eq_true_iff, heq, hbits _ (by omega)]
        simpa using hbit
      have hnext : pos + 1 ≤ ((pos + 1) / w + 1) * w := by
        rw [Nat.succ_mul]
        omega
      refine ⟨r, hrun, ?_⟩
      rcases hleast with ⟨hr, hnone⟩ | ⟨hle, hr, hset, hleast⟩
      · refine .inl ⟨hr, fun i hi => ?_⟩
        rcases Nat.lt_or_ge i (((pos + 1) / w + 1) * w) with hlt | hge
        · exact hrest i hi hlt
        · exact hnone i hge
      · refine .inr ⟨hnext.trans hle, hr, hset, fun i hi hlt => ?_⟩
        rcases Nat.lt_or_ge i (((pos + 1) / w + 1) * w) with hlow | hge
        · exact hrest i hi hlow
        · exact hleast i hge hlt
    · rw [if_pos hfore]
      obtain ⟨k, hrun, hk, hset, hleast⟩ := lowestBit_spec hfore
      rw [BitVec.getLsbD_ushiftRight] at hset
      have hin : (pos + 1) % w + k < w := by
        by_contra hge
        rw [BitVec.getLsbD_of_ge _ _ (by omega)] at hset
        cases hset
      refine ⟨pos + 1 + k, by rw [hrun]; rfl, ?_⟩
      refine h.leastSet_some hsize (by omega) (by rw [hbits k hin, hset]) fun i hi hlt => ?_
      have hlow := hleast (i - (pos + 1)) (by omega)
      rw [BitVec.getLsbD_ushiftRight] at hlow
      have heq : i = pos + 1 + (i - (pos + 1)) := by omega
      rw [heq, hbits _ (by omega), hlow]

/-! ### The visit -/

/-- **The loop** from the least bit after `start` visits the bits that are set from `start` on. -/
theorem visitFrom_spec (hw : 0 < w) (h : b.Valid) (hsize : b.numBits < 2 ^ S) (fuel start r : ℕ)
    (hr : b.LeastSet S start r) (hfuel : b.numBits - start < fuel) :
    b.visitFrom S fuel r = some ((List.range' start (b.numBits - start)).filter
      fun i => b.test i = some true) := by
  induction fuel generalizing start r with
  | zero => omega
  | succ fuel ih =>
    rw [visitFrom]
    rcases hr with ⟨rfl, hnone⟩ | ⟨hle, hne, hset, hleast⟩
    · have hempty : (range' start (b.numBits - start)).filter
          (fun i => b.test i = some true) = [] := by
        rw [filter_eq_nil_iff]
        intro i hi
        simpa using hnone i (mem_range'_1.mp hi).1
      rw [if_pos rfl, hempty]
    · have hlt : r < b.numBits := h.bit_lt (h.test_eq_true_iff.mp hset)
      obtain ⟨next, hrun, hnext⟩ := findNext_spec hw h hsize r
      have hsplit : range' start (b.numBits - start) =
          range' start (r - start) ++ r :: range' (r + 1) (b.numBits - (r + 1)) := by
        rw [← range'_succ, show b.numBits - (r + 1) + 1 = b.numBits - r by omega]
        have happend := @range'_append start (r - start) (b.numBits - r) 1
        rw [Nat.one_mul, show start + (r - start) = r by omega,
          show r - start + (b.numBits - r) = b.numBits - start by omega] at happend
        exact happend.symm
      have hbelow : (range' start (r - start)).filter
          (fun i => b.test i = some true) = [] := by
        rw [filter_eq_nil_iff]
        intro i hi
        obtain ⟨h₁, h₂⟩ := mem_range'_1.mp hi
        simpa using hleast i h₁ (by omega)
      rw [if_neg hne, hrun, Option.bind_some, ih (r + 1) next hnext (by omega), hsplit,
        filter_append, hbelow, nil_append, filter_cons_of_pos (by simpa using hset)]
      rfl

/-! ### The number -/

theorem sum_testBit (N n : ℕ) :
    N % 2 ^ n = ∑ i ∈ Finset.range n, if N.testBit i then 2 ^ i else 0 := by
  induction n with
  | zero => rw [pow_zero, Nat.mod_one, Finset.sum_range_zero]
  | succ n ih =>
    rw [Finset.sum_range_succ, ← ih, Nat.mod_pow_succ, Nat.testBit_eq_decide_div_mod_eq]
    rcases Nat.mod_two_eq_zero_or_one (N / 2 ^ n) with h | h
    · simp [h]
    · simp [h]

theorem getLsbD_gather (hw : 0 < w) (b : DynamicBitset w) (U k : ℕ) {t : ℕ} (ht : t < U) :
    (b.gather U k).getLsbD t = (decide (t < k * w) && bit b.bits t) := by
  induction k with
  | zero =>
    rw [gather, range_zero, foldl_nil, Nat.zero_mul, decide_eq_false (by omega),
      Bool.false_and]
    exact BitVec.getLsbD_zero
  | succ k ih =>
    rw [gather, range_succ, foldl_append, ← gather, foldl_cons, foldl_nil,
      BitVec.getLsbD_or, ih, BitVec.getLsbD_shiftLeft, decide_eq_true ht, Bool.true_and,
      BitVec.getLsbD_setWidth, decide_eq_true (by omega : t - k * w < U), Bool.true_and,
      Nat.succ_mul]
    by_cases hlow : t < k * w
    · rw [decide_eq_true hlow, decide_eq_true (by omega)]
      simp
    · rw [decide_eq_false hlow, Bool.false_and, Bool.false_or, Bool.not_false, Bool.true_and]
      by_cases hhigh : t < k * w + w
      · rw [decide_eq_true hhigh, Bool.true_and, ← bit_mul_add _ (by omega), Nat.mul_comm]
        congr 1
        omega
      · rw [decide_eq_false hhigh, Bool.false_and]
        exact BitVec.getLsbD_of_ge _ _ (by omega)

/-- **`to_ulong`** throws exactly when a bit is set that an `unsigned long` has no place for, and
returns the sum of the powers of two otherwise. -/
theorem toUlong_spec (hw : 0 < w) (h : b.Valid) (hsize : b.numBits < 2 ^ S) {U : ℕ} (hU : 0 < U) :
    ((∃ i, U ≤ i ∧ b.test i = some true) ∧ b.toUlong S U =
      some (.error (.overflowError "boost::dynamic_bitset::to_ulong overflow"))) ∨
    ((∀ i, U ≤ i → b.test i ≠ some true) ∧ ∃ r, b.toUlong S U = some (.ok r) ∧
      r.toNat = ∑ i ∈ Finset.range b.numBits, if b.test i = some true then 2 ^ i else 0) := by
  obtain ⟨next, hrun, hnext⟩ := findNext_spec hw h hsize (U - 1)
  rw [show U - 1 + 1 = U by omega] at hnext
  rcases Nat.eq_zero_or_pos b.numBits with hz | hpos
  · refine .inr ⟨fun i hi => ?_, 0, by rw [toUlong, if_pos hz], by simp [hz]⟩
    rw [ne_eq, h.test_eq_true_iff, h.unused i (by omega)]
    decide
  · rcases hnext with ⟨rfl, hnone⟩ | ⟨hle, hne, hset, -⟩
    · refine .inr ⟨hnone, b.gather U ((min b.numBits U - 1) / w + 1), ?_, ?_⟩
      · have hlast := Nat.div_mul_le_self (min b.numBits U - 1) w
        rw [toUlong, if_neg (by omega), hrun, Option.bind_some]
        simp only [ne_eq, not_true_eq_false, if_false]
        rw [if_pos (by omega)]
      · have hbits : ∀ t, (b.gather U ((min b.numBits U - 1) / w + 1)).toNat.testBit t =
            bit b.bits t := by
          intro t
          rw [← BitVec.getLsbD]
          rcases Nat.lt_or_ge t U with hlt | hge
          · rw [getLsbD_gather hw b U _ hlt]
            have hdm := Nat.div_add_mod' (min b.numBits U - 1) w
            have hmod := Nat.mod_lt (min b.numBits U - 1) hw
            rw [Nat.succ_mul]
            by_cases hin : t < b.numBits
            · rw [decide_eq_true (by omega), Bool.true_and]
            · rw [h.unused t (by omega), Bool.and_false]
          · have hoff := hnone t hge
            rw [ne_eq, h.test_eq_true_iff, Bool.not_eq_true] at hoff
            rw [hoff, BitVec.getLsbD_of_ge _ _ hge]
        have hlt : (b.gather U ((min b.numBits U - 1) / w + 1)).toNat < 2 ^ b.numBits :=
          Nat.lt_pow_two_of_testBit _ fun i hi => by rw [hbits, h.unused i hi]
        rw [← Nat.mod_eq_of_lt hlt, sum_testBit]
        simp only [hbits, h.test_eq_true_iff]
    · refine .inl ⟨⟨next, hle, hset⟩, ?_⟩
      rw [toUlong, if_neg (by omega), hrun, Option.bind_some, if_pos hne]

/-! ### Looking for bits -/

/-- **Looking for bits is exact.**  `find_first` and `find_next` return the least bit that is set
from the start and after any position, the loop over them visits the bits that are set once each in
increasing order and ends, and `to_ulong` throws exactly when a bit does not fit and returns the sum
of the powers of two otherwise; no assertion fails. -/
theorem search_exact (hw : 0 < w) {b : DynamicBitset w} (hb : b.mCheckInvariants = true) {S U : ℕ}
    (hsize : b.numBits < 2 ^ S) (hU : 0 < U) {fuel : ℕ} (hfuel : b.numBits < fuel) :
    (∃ r, b.findFirst S = some r ∧ b.LeastSet S 0 r) ∧
      (∀ pos, ∃ r, b.findNext S pos = some r ∧ b.LeastSet S (pos + 1) r) ∧
      b.visited S fuel = some ((List.range b.numBits).filter fun i => b.test i = some true) ∧
      (((∃ i, U ≤ i ∧ b.test i = some true) ∧ b.toUlong S U =
        some (.error (.overflowError "boost::dynamic_bitset::to_ulong overflow"))) ∨
      ((∀ i, U ≤ i → b.test i ≠ some true) ∧ ∃ r, b.toUlong S U = some (.ok r) ∧
        r.toNat = ∑ i ∈ Finset.range b.numBits, if b.test i = some true then 2 ^ i else 0)) := by
  have h := (mCheckInvariants_iff hw).mp hb
  obtain ⟨r, hrun, hr⟩ := findFirst_spec hw h hsize
  refine ⟨⟨r, hrun, hr⟩, findNext_spec hw h hsize, ?_, toUlong_spec hw h hsize hU⟩
  rw [visited, hrun, Option.bind_some, visitFrom_spec hw h hsize fuel 0 r hr (by omega),
    range_eq_range', Nat.sub_zero]

/-- Two blocks of eight bits. -/
theorem search_exact_ten :
    (⟨[0x20#8, 0x2#8], 10⟩ : DynamicBitset 8).visited 64 11 = some [5, 9] :=
  (search_exact (w := 8) (by decide) (b := ⟨[0x20#8, 0x2#8], 10⟩) (by decide) (S := 64) (U := 11)
    (by decide) (by decide) (show 10 < 11 by decide)).2.2.1.trans (by decide)

end SourceLibs.DynamicBitset
