import SourceLibs.Support.Blocks

/-!
# DynamicBitset — the class

`dynamic_bitset/dynamic_bitset.hpp` over blocks of `w` bits: a vector of blocks and the number of
bits.  An operation that asserts returns in `Option`; `none` is an assertion that failed.  Sizes
are natural numbers.

The mutators are described bit by bit: `Reads b n f` says that `b` is a valid set of `n` bits whose
bit `i` is `f i`.

* `mCheckInvariants_iff`: the class invariant is `Valid`.
* `mZeroUnusedBits_reads`: what the fix-up of the last block gives.
* `resize_reads`, `append_reads`, `shiftLeft_reads`, `shiftRight_reads`, …: one for each mutator.
-/

namespace SourceLibs

/-- `dynamic_bitset`: `m_bits` and `m_num_bits`. -/
structure DynamicBitset (w : ℕ) where
  bits : List (BitVec w)
  numBits : ℕ
  deriving DecidableEq, Repr

end SourceLibs

namespace SourceLibs.DynamicBitset

open Blocks

variable {w : ℕ}

/-! ### Representation -/

/-- The blocks that so many bits need. -/
def calcNumBlocks (w numBits : ℕ) : ℕ := numBits / w + if numBits % w ≠ 0 then 1 else 0

/-- The blocks there are. -/
def numBlocks (b : DynamicBitset w) : ℕ := b.bits.length

/-- The bits of the last block that are used, if it is not full. -/
def countExtraBits (b : DynamicBitset w) : ℕ := b.numBits % w

/-- The bit of a block that a position is. -/
def bitMask (w pos : ℕ) : BitVec w := 1#w <<< (pos % w)

/-- The bits from `extra` on: `~static_cast<Block>(0) << extra_bits`. -/
def unusedMask (w extra : ℕ) : BitVec w := ~~~(0#w) <<< extra

/-- `m_highest_block`. -/
def highestBlock (b : DynamicBitset w) : BitVec w := block b.bits (b.numBlocks - 1)

/-- `m_zero_unused_bits`: the bits of the last block behind the end. -/
def mZeroUnusedBits (b : DynamicBitset w) : Option (DynamicBitset w) := do
  guard (b.numBlocks = calcNumBlocks w b.numBits)
  if b.countExtraBits ≠ 0 then
    guard (0 < b.numBits ∧ 0 < b.numBlocks)
    some { b with
      bits := b.bits.set (b.numBlocks - 1) (b.highestBlock &&& ~~~(unusedMask w b.countExtraBits)) }
  else some b

/-- `m_check_invariants`: no bit behind the end, and no block too many or too few. -/
def mCheckInvariants (b : DynamicBitset w) : Bool :=
  if 0 < b.countExtraBits ∧ b.highestBlock &&& unusedMask w b.countExtraBits ≠ 0 then false
  else b.numBlocks = calcNumBlocks w b.numBits

/-- A bit, whether or not it is inside. -/
def mUncheckedTest (b : DynamicBitset w) (pos : ℕ) : Bool :=
  block b.bits (pos / w) &&& bitMask w pos ≠ 0

/-- `test`, with its assertion. -/
def test (b : DynamicBitset w) (pos : ℕ) : Option Bool := do
  guard (pos < b.numBits)
  some (b.mUncheckedTest pos)

/-! ### Sizes -/

/-- `std::vector::resize`. -/
def vectorResize (bits : List (BitVec w)) (k : ℕ) (v : BitVec w) : List (BitVec w) :=
  bits.take k ++ List.replicate (k - bits.length) v

/-- `resize`: the new bits are `value`. -/
def resize (b : DynamicBitset w) (numBits : ℕ) (value : Bool) : Option (DynamicBitset w) := do
  let oldNumBlocks := b.numBlocks
  let requiredBlocks := calcNumBlocks w numBits
  let v : BitVec w := if value then ~~~(0#w) else 0#w
  let bits := if requiredBlocks ≠ oldNumBlocks then vectorResize b.bits requiredBlocks v else b.bits
  if value ∧ b.numBits < numBits ∧ b.countExtraBits ≠ 0 then
    guard (1 ≤ oldNumBlocks ∧ oldNumBlocks ≤ bits.length)
    let bits := bits.set (oldNumBlocks - 1)
      (block bits (oldNumBlocks - 1) ||| (v <<< b.countExtraBits))
    mZeroUnusedBits ⟨bits, numBits⟩
  else mZeroUnusedBits ⟨bits, numBits⟩

/-- `reset(pos)`. -/
def reset (b : DynamicBitset w) (pos : ℕ) : Option (DynamicBitset w) := do
  guard (pos < b.numBits)
  some { b with bits := b.bits.set (pos / w) (block b.bits (pos / w) &&& ~~~(bitMask w pos)) }

/-- `set(pos, val)`. -/
def set (b : DynamicBitset w) (pos : ℕ) (val : Bool) : Option (DynamicBitset w) := do
  guard (pos < b.numBits)
  if val then
    some { b with bits := b.bits.set (pos / w) (block b.bits (pos / w) ||| bitMask w pos) }
  else b.reset pos

def pushBack (b : DynamicBitset w) (bit : Bool) : Option (DynamicBitset w) := do
  let sz := b.numBits
  let b ← b.resize (sz + 1) false
  b.set sz bit

/-- `pop_back`: the block goes with its last bit. -/
def popBack (b : DynamicBitset w) : Option (DynamicBitset w) :=
  let oldNumBlocks := b.numBlocks
  let requiredBlocks := calcNumBlocks w (b.numBits - 1)
  let bits := if requiredBlocks ≠ oldNumBlocks then b.bits.dropLast else b.bits
  mZeroUnusedBits ⟨bits, b.numBits - 1⟩

/-- `append(Block)`. -/
def append (b : DynamicBitset w) (value : BitVec w) : Option (DynamicBitset w) := do
  let r := b.countExtraBits
  let bits :=
    if r = 0 then b.bits ++ [value]
    else
      let bits := b.bits ++ [value >>> (w - r)]
      bits.set (bits.length - 2) (block bits (bits.length - 2) ||| (value <<< r))
  let b : DynamicBitset w := ⟨bits, b.numBits + w⟩
  guard (b.mCheckInvariants = true)
  some b

/-! ### Bits -/

/-- `set()`. -/
def setAll (b : DynamicBitset w) : Option (DynamicBitset w) :=
  mZeroUnusedBits { b with bits := b.bits.map fun _ => ~~~(0#w) }

/-- `reset()`. -/
def resetAll (b : DynamicBitset w) : DynamicBitset w :=
  { b with bits := b.bits.map fun _ => 0#w }

/-- `flip(pos)`. -/
def flip (b : DynamicBitset w) (pos : ℕ) : Option (DynamicBitset w) := do
  guard (pos < b.numBits)
  some { b with bits := b.bits.set (pos / w) (block b.bits (pos / w) ^^^ bitMask w pos) }

/-- `flip()`. -/
def flipAll (b : DynamicBitset w) : Option (DynamicBitset w) :=
  mZeroUnusedBits { b with bits := b.bits.map fun x => ~~~x }

/-- The loop of `&=`, `|=`, `^=` and `-=`: `m_bits[i] = op(m_bits[i], rhs.m_bits[i])`. -/
def assignBlocks (op : BitVec w → BitVec w → BitVec w) (b rhs : DynamicBitset w) :
    Option (DynamicBitset w) := do
  guard (b.numBits = rhs.numBits)
  some { b with bits := b.bits.mapIdx fun i x => op x (block rhs.bits i) }

/-- `operator&=`. -/
def andAssign (b rhs : DynamicBitset w) : Option (DynamicBitset w) :=
  assignBlocks (fun x y => x &&& y) b rhs

/-- `operator|=`. -/
def orAssign (b rhs : DynamicBitset w) : Option (DynamicBitset w) :=
  assignBlocks (fun x y => x ||| y) b rhs

/-- `operator^=`. -/
def xorAssign (b rhs : DynamicBitset w) : Option (DynamicBitset w) :=
  assignBlocks (fun x y => x ^^^ y) b rhs

/-- `operator-=`. -/
def subAssign (b rhs : DynamicBitset w) : Option (DynamicBitset w) :=
  assignBlocks (fun x y => x &&& ~~~y) b rhs

/-! ### Shifts -/

/-- `for (i = …; i > 0; --i) b[i+div] = f(b[i], b[i-1])`, from `i`. -/
def moveUp (f : BitVec w → BitVec w → BitVec w) (div : ℕ) :
    ℕ → List (BitVec w) → List (BitVec w)
  | 0, bits => bits
  | i + 1, bits => moveUp f div i (bits.set (i + 1 + div) (f (block bits (i + 1)) (block bits i)))

/-- `for (i = …; …; ++i) b[i-div] = f(b[i], b[i+1])`, from `i`, `k` turns. -/
def moveDown (f : BitVec w → BitVec w → BitVec w) (div : ℕ) :
    ℕ → ℕ → List (BitVec w) → List (BitVec w)
  | _, 0, bits => bits
  | i, k + 1, bits =>
    moveDown f div (i + 1) k (bits.set (i - div) (f (block bits i) (block bits (i + 1))))

/-- `std::fill_n(m_bits.begin() + start, k, 0)`. -/
def fillZero (start k : ℕ) (bits : List (BitVec w)) : List (BitVec w) :=
  bits.mapIdx fun i x => if start ≤ i ∧ i < start + k then 0 else x

/-- `operator<<=`. -/
def shiftLeft (b : DynamicBitset w) (n : ℕ) : Option (DynamicBitset w) :=
  if b.numBits ≤ n then some b.resetAll
  else if 0 < n then
    let last := b.numBlocks - 1
    let div := n / w
    let r := n % w
    let bits :=
      if r ≠ 0 then
        let bits := moveUp (fun x y => (x <<< r) ||| (y >>> (w - r))) div (last - div) b.bits
        bits.set div (block bits 0 <<< r)
      else
        let bits := moveUp (fun x _ => x) div (last - div) b.bits
        bits.set div (block bits 0)
    mZeroUnusedBits { b with bits := fillZero 0 div bits }
  else some b

/-- `operator>>=`. -/
def shiftRight (b : DynamicBitset w) (n : ℕ) : DynamicBitset w :=
  if b.numBits ≤ n then b.resetAll
  else if 0 < n then
    let last := b.numBlocks - 1
    let div := n / w
    let r := n % w
    let bits :=
      if r ≠ 0 then
        let bits := moveDown (fun x y => (x >>> r) ||| (y <<< (w - r))) div div (last - div) b.bits
        bits.set (last - div) (block bits last >>> r)
      else moveDown (fun x _ => x) div div (last + 1 - div) b.bits
    { b with bits := fillZero (b.numBlocks - div) div bits }
  else b

/-! ### Queries -/

def empty (b : DynamicBitset w) : Bool := b.numBits = 0

/-- `all`: every block is full, and the last one as far as it is used. -/
def all (b : DynamicBitset w) : Bool :=
  if b.empty then true
  else if b.countExtraBits = 0 then
    (List.range b.numBlocks).all fun i => block b.bits i = ~~~(0#w)
  else
    ((List.range (b.numBlocks - 1)).all fun i => block b.bits i = ~~~(0#w)) &&
      b.highestBlock = ~~~(unusedMask w b.countExtraBits)

/-- `any`: a block is not zero. -/
def any (b : DynamicBitset w) : Bool := (List.range b.numBlocks).any fun i => block b.bits i ≠ 0

def none (b : DynamicBitset w) : Bool := !b.any

/-- `is_subset_of`, block by block. -/
def isSubsetOf (b a : DynamicBitset w) : Option Bool := do
  guard (b.numBits = a.numBits)
  some ((List.range b.numBlocks).all fun i => block b.bits i &&& ~~~(block a.bits i) = 0)

/-- The loop of `is_proper_subset_of`, from block `i` with `k` blocks left. -/
def properLoop (b a : DynamicBitset w) (proper : Bool) (i : ℕ) : ℕ → Bool
  | 0 => proper
  | k + 1 =>
    let bt := block b.bits i
    let ba := block a.bits i
    if bt &&& ~~~ba ≠ 0 then false
    else properLoop b a (if ba &&& ~~~bt ≠ 0 then true else proper) (i + 1) k

/-- `is_proper_subset_of`: a subset, and another bitset. -/
def isProperSubsetOf (b a : DynamicBitset w) : Option Bool := do
  guard (b.numBits = a.numBits)
  guard (b.numBlocks = a.numBlocks)
  some (properLoop b a false 0 b.numBlocks)

/-- `intersects`, as far as both have blocks. -/
def intersects (b a : DynamicBitset w) : Bool :=
  let commonBlocks := if b.numBlocks < a.numBlocks then b.numBlocks else a.numBlocks
  (List.range commonBlocks).any fun i => block b.bits i &&& block a.bits i ≠ 0

/-- `operator==`. -/
def equal (a b : DynamicBitset w) : Bool := a.numBits = b.numBits && a.bits = b.bits

/-- The loop of `operator<`, from the top. -/
def lessLoop (a b : DynamicBitset w) : ℕ → Bool
  | 0 => false
  | i + 1 =>
    if block a.bits i < block b.bits i then true
    else if block b.bits i < block a.bits i then false
    else lessLoop a b i

/-- `operator<`. -/
def less (a b : DynamicBitset w) : Option Bool := do
  guard (a.numBits = b.numBits)
  some (lessLoop a b a.numBlocks)

/-! ### The invariant -/

/-- The class invariant: as many blocks as the bits need, and no bit past the last. -/
structure Valid (b : DynamicBitset w) : Prop where
  length_eq : b.bits.length = calcNumBlocks w b.numBits
  unused : ∀ i, b.numBits ≤ i → bit b.bits i = false

/-- A valid set of `n` bits, those of `f`. -/
structure Reads (b : DynamicBitset w) (n : ℕ) (f : ℕ → Bool) : Prop where
  numBits_eq : b.numBits = n
  length_eq : b.bits.length = calcNumBlocks w n
  bit_eq : ∀ i, bit b.bits i = (decide (i < n) && f i)

variable {b : DynamicBitset w} {n : ℕ} {f : ℕ → Bool} {bits : List (BitVec w)}

theorem Reads.congr (h : b.Reads n f) {g : ℕ → Bool} (hfg : ∀ i < n, f i = g i) : b.Reads n g := by
  refine ⟨h.numBits_eq, h.length_eq, fun i => ?_⟩
  rw [h.bit_eq]
  by_cases hi : i < n
  · rw [hfg i hi]
  · simp [hi]

theorem Valid.reads (h : b.Valid) : b.Reads b.numBits (bit b.bits) := by
  refine ⟨rfl, h.length_eq, fun i => ?_⟩
  by_cases hi : i < b.numBits
  · simp [hi]
  · simp [hi, h.unused i (by omega)]

theorem Reads.valid (h : b.Reads n f) : b.Valid := by
  obtain ⟨rfl, hlen, hbit⟩ := h
  refine ⟨hlen, fun i hi => ?_⟩
  rw [hbit, decide_eq_false (by omega), Bool.false_and]

theorem lt_calcNumBlocks (hw : 0 < w) {q n : ℕ} : q < calcNumBlocks w n ↔ w * q < n := by
  have hn := Nat.div_add_mod n w
  have ht := Nat.mod_lt n hw
  unfold calcNumBlocks
  rcases Nat.lt_trichotomy q (n / w) with h | h | h
  · have := Nat.mul_le_mul_left w (Nat.succ_le_of_lt h)
    rw [Nat.mul_succ] at this
    omega
  · subst h
    split <;> omega
  · have := Nat.mul_le_mul_left w (Nat.succ_le_of_lt h)
    rw [Nat.mul_succ] at this
    split <;> omega

theorem div_lt_calcNumBlocks (hw : 0 < w) {i n : ℕ} (h : i < n) : i / w < calcNumBlocks w n :=
  (lt_calcNumBlocks hw).mpr (Nat.lt_of_le_of_lt (Nat.mul_div_le i w) h)

theorem calcNumBlocks_of_extra {n : ℕ} (h : n % w ≠ 0) : calcNumBlocks w n = n / w + 1 := by
  rw [calcNumBlocks, if_pos h]

theorem calcNumBlocks_of_full {n : ℕ} (h : n % w = 0) : calcNumBlocks w n = n / w := by
  rw [calcNumBlocks, if_neg (by simpa using h), Nat.add_zero]

theorem getLsbD_unusedMask {extra t : ℕ} (ht : t < w) :
    (unusedMask w extra).getLsbD t = decide (extra ≤ t) := by
  simp only [unusedMask, BitVec.getLsbD_shiftLeft, BitVec.getLsbD_not, BitVec.getLsbD_zero]
  by_cases h : extra ≤ t
  · simp [h, ht]
    omega
  · simp [h]

/-- **The fix-up of the last block.** -/
theorem mZeroUnusedBits_reads (hw : 0 < w) (hlen : b.numBlocks = calcNumBlocks w b.numBits) :
    ∃ b', b.mZeroUnusedBits = some b' ∧ b'.Reads b.numBits (bit b.bits) := by
  unfold mZeroUnusedBits
  rw [hlen]
  by_cases hex : b.countExtraBits = 0
  · refine ⟨b, by simp [hex], rfl, hlen, fun i => ?_⟩
    by_cases hi : i < b.numBits
    · simp [hi]
    · have hfull := calcNumBlocks_of_full (w := w) hex
      have hn := Nat.div_add_mod b.numBits w
      have hex' : b.numBits % w = 0 := hex
      rw [bit_of_ge (by rw [← numBlocks, hlen, hfull]; omega), decide_eq_false hi,
        Bool.false_and]
  · have hlast := calcNumBlocks_of_extra (w := w) hex
    have hpos : 0 < b.numBits := Nat.pos_of_ne_zero fun h => hex (by simp [countExtraBits, h])
    refine ⟨⟨b.bits.set (b.numBits / w)
      (block b.bits (b.numBits / w) &&& ~~~(unusedMask w b.countExtraBits)), b.numBits⟩, ?_, rfl,
      ?_, fun i => ?_⟩
    · simp [hex, hlast, hpos, highestBlock, hlen]
    · rw [List.length_set]
      exact hlen
    · have ht := Nat.mod_lt i hw
      rw [bit, block_set, ← numBlocks, hlen, hlast]
      simp only [lt_iff_div_mod hw i b.numBits]
      by_cases hq : b.numBits / w = i / w
      · rw [if_pos ⟨hq, by omega⟩, hq, BitVec.getLsbD_and, BitVec.getLsbD_not,
          getLsbD_unusedMask ht, bit, countExtraBits]
        by_cases hlt : i % w < b.numBits % w
        · simp [hlt, ht]
        · simp [hlt]
          omega
      · rw [if_neg fun h => hq h.1, ← bit]
        by_cases hlt : i / w < b.numBits / w
        · simp [hlt]
        · rw [bit, block_of_ge (by rw [← numBlocks, hlen, hlast]; omega)]
          simp [hlt, Ne.symm hq]

/-- **The invariant** is what `m_check_invariants` checks. -/
theorem mCheckInvariants_iff (hw : 0 < w) : b.mCheckInvariants = true ↔ b.Valid := by
  unfold mCheckInvariants
  constructor
  · intro h
    split at h
    · cases h
    · rename_i hmask
      have hlen : b.numBlocks = calcNumBlocks w b.numBits := of_decide_eq_true h
      refine ⟨hlen, fun i hi => ?_⟩
      have ht := Nat.mod_lt i hw
      by_cases hge : b.bits.length ≤ i / w
      · rw [bit, block_of_ge hge]
        exact BitVec.getLsbD_zero
      · -- the last block, not full
        have hlt := (lt_calcNumBlocks hw).mp (Nat.lt_of_lt_of_eq (Nat.lt_of_not_le hge) hlen)
        have hcmp := lt_iff_div_mod hw i b.numBits
        have hi' := Nat.div_add_mod i w
        have hn := Nat.div_add_mod b.numBits w
        have hq : i / w = b.numBits / w := by
          refine Nat.le_antisymm ?_ (by omega)
          rw [Nat.le_div_iff_mul_le hw, Nat.mul_comm]
          exact hlt.le
        have hex : 0 < b.countExtraBits := by
          rw [hq] at hlt
          unfold countExtraBits
          omega
        have hzero : b.highestBlock &&& unusedMask w b.countExtraBits = 0 := by
          by_contra hne
          exact hmask ⟨hex, hne⟩
        have hbit := congrArg (fun x => BitVec.getLsbD x (i % w)) hzero
        simp only [BitVec.getLsbD_and, getLsbD_unusedMask ht, BitVec.ofNat_eq_ofNat,
          BitVec.getLsbD_zero] at hbit
        rw [highestBlock, hlen, calcNumBlocks_of_extra (by unfold countExtraBits at hex; omega),
          Nat.add_sub_cancel, ← hq, ← bit, decide_eq_true (by unfold countExtraBits; omega),
          Bool.and_true] at hbit
        exact hbit
  · intro h
    rw [if_neg]
    · exact decide_eq_true h.length_eq
    · rintro ⟨hex, hne⟩
      refine hne (BitVec.eq_of_getLsbD_eq fun t ht => ?_)
      have hlast := calcNumBlocks_of_extra (w := w) (Nat.ne_of_gt hex)
      have hn := Nat.div_add_mod b.numBits w
      rw [highestBlock, numBlocks, h.length_eq, hlast, Nat.add_sub_cancel, BitVec.getLsbD_and,
        getLsbD_unusedMask ht, ← bit_mul_add _ ht, BitVec.ofNat_eq_ofNat, BitVec.getLsbD_zero]
      by_cases hle : b.countExtraBits ≤ t
      · rw [h.unused _ (by unfold countExtraBits at hle; omega), Bool.false_and]
      · simp [hle]

/-! ### Mutators of one bit and of all -/

theorem Valid.setBlock_reads (hw : 0 < w) (h : b.Valid) {pos : ℕ} (hpos : pos < b.numBits)
    {x : BitVec w} {v : Bool}
    (hx : ∀ t < w, x.getLsbD t = if t = pos % w then v else (block b.bits (pos / w)).getLsbD t) :
    Reads ⟨b.bits.set (pos / w) x, b.numBits⟩ b.numBits
      fun i => if i = pos then v else bit b.bits i := by
  refine ⟨rfl, by rw [List.length_set]; exact h.length_eq, fun i => ?_⟩
  have ht := Nat.mod_lt i hw
  have hlen : pos / w < b.bits.length := by
    rw [h.length_eq]
    exact div_lt_calcNumBlocks hw hpos
  have hi := Nat.div_add_mod i w
  have hp := Nat.div_add_mod pos w
  rw [bit, block_set]
  by_cases hq : pos / w = i / w
  · rw [if_pos ⟨hq, hq ▸ hlen⟩, hx _ ht]
    by_cases hr : i % w = pos % w
    · obtain rfl : i = pos := by rw [← hi, ← hp, hq, hr]
      simp [hpos]
    · have hne : i ≠ pos := fun e => hr (by rw [e])
      rw [if_neg hr, if_neg hne, hq, ← bit]
      exact h.reads.bit_eq i
  · have hne : i ≠ pos := fun e => hq (by rw [e])
    rw [if_neg fun hc => hq hc.1, if_neg hne, ← bit]
    exact h.reads.bit_eq i

theorem getLsbD_bitMask (hw : 0 < w) {pos t : ℕ} :
    (bitMask w pos).getLsbD t = decide (t = pos % w) := by
  have hp := Nat.mod_lt pos hw
  have e : bitMask w pos = BitVec.twoPow w (pos % w) := rfl
  rw [e, BitVec.getLsbD_twoPow]
  simp [hp, eq_comm]

theorem Valid.reset_reads (hw : 0 < w) (h : b.Valid) {pos : ℕ} (hpos : pos < b.numBits) :
    ∃ b', b.reset pos = some b' ∧
      b'.Reads b.numBits fun i => if i = pos then false else bit b.bits i := by
  refine ⟨_, by simp [reset, hpos]; rfl, h.setBlock_reads hw hpos fun t ht => ?_⟩
  rw [BitVec.getLsbD_and, BitVec.getLsbD_not, getLsbD_bitMask hw]
  split <;> simp [*]

theorem Valid.set_reads (hw : 0 < w) (h : b.Valid) {pos : ℕ} (hpos : pos < b.numBits) (v : Bool) :
    ∃ b', b.set pos v = some b' ∧
      b'.Reads b.numBits fun i => if i = pos then v else bit b.bits i := by
  cases v with
  | false =>
    obtain ⟨b', hb', hr⟩ := h.reset_reads hw hpos
    exact ⟨b', by simp [set, hpos, hb'], hr⟩
  | true =>
    refine ⟨_, by simp [set, hpos]; rfl, h.setBlock_reads hw hpos fun t ht => ?_⟩
    rw [BitVec.getLsbD_or, getLsbD_bitMask hw]
    split <;> simp [*]

theorem Valid.flip_reads (hw : 0 < w) (h : b.Valid) {pos : ℕ} (hpos : pos < b.numBits) :
    ∃ b', b.flip pos = some b' ∧
      b'.Reads b.numBits fun i => if i = pos then !bit b.bits pos else bit b.bits i := by
  refine ⟨_, by simp [flip, hpos]; rfl, h.setBlock_reads hw hpos fun t ht => ?_⟩
  rw [BitVec.getLsbD_xor, getLsbD_bitMask hw]
  split
  · rename_i ht
    subst ht
    simp [bit]
  · simp [*]

/-- Every block replaced by a function of it. -/
theorem bit_map (hw : 0 < w) (h : b.Valid) (g : BitVec w → BitVec w) {i : ℕ}
    (hi : i < b.numBits) :
    bit (b.bits.map g) i = (g (block b.bits (i / w))).getLsbD (i % w) := by
  rw [bit, block_map, if_pos (by rw [h.length_eq]; exact div_lt_calcNumBlocks hw hi)]

theorem Valid.setAll_reads (hw : 0 < w) (h : b.Valid) :
    ∃ b', b.setAll = some b' ∧ b'.Reads b.numBits fun _ => true := by
  obtain ⟨b', hb', hr⟩ := mZeroUnusedBits_reads (b := ⟨b.bits.map fun _ => ~~~(0#w), b.numBits⟩) hw
    (by rw [numBlocks, List.length_map]; exact h.length_eq)
  refine ⟨b', hb', hr.congr fun i hi => ?_⟩
  have ht := Nat.mod_lt i hw
  rw [bit_map hw h _ hi]
  simp [ht]

theorem Valid.resetAll_reads (h : b.Valid) : b.resetAll.Reads b.numBits fun _ => false := by
  refine ⟨rfl, by rw [resetAll, List.length_map]; exact h.length_eq, fun i => ?_⟩
  rw [resetAll, bit, block_map, Bool.and_false]
  split <;> exact BitVec.getLsbD_zero

theorem Valid.flipAll_reads (hw : 0 < w) (h : b.Valid) :
    ∃ b', b.flipAll = some b' ∧ b'.Reads b.numBits fun i => !bit b.bits i := by
  obtain ⟨b', hb', hr⟩ := mZeroUnusedBits_reads (b := ⟨b.bits.map fun x => ~~~x, b.numBits⟩) hw
    (by rw [numBlocks, List.length_map]; exact h.length_eq)
  refine ⟨b', hb', hr.congr fun i hi => ?_⟩
  have ht := Nat.mod_lt i hw
  rw [bit_map hw h _ hi, BitVec.getLsbD_not, bit]
  simp [ht]

/-- **The assignments** block by block, for an operation that keeps zero. -/
theorem Valid.assignBlocks_reads (hw : 0 < w) (h : b.Valid) {rhs : DynamicBitset w}
    (hr : rhs.Valid) (hsize : b.numBits = rhs.numBits) {op : BitVec w → BitVec w → BitVec w}
    {g : Bool → Bool → Bool} (hg : g false false = false)
    (hop : ∀ x y : BitVec w, ∀ t < w, (op x y).getLsbD t = g (x.getLsbD t) (y.getLsbD t)) :
    ∃ b', b.assignBlocks op rhs = some b' ∧
      b'.Reads b.numBits fun i => g (bit b.bits i) (bit rhs.bits i) := by
  refine ⟨⟨b.bits.mapIdx fun i x => op x (block rhs.bits i), b.numBits⟩,
    by simp [assignBlocks, hsize], rfl, by rw [List.length_mapIdx]; exact h.length_eq,
    fun i => ?_⟩
  have ht := Nat.mod_lt i hw
  rw [bit, block_mapIdx]
  by_cases hi : i < b.numBits
  · rw [if_pos (by rw [h.length_eq]; exact div_lt_calcNumBlocks hw hi), hop _ _ _ ht,
      decide_eq_true hi, Bool.true_and, bit, bit]
  · rw [decide_eq_false hi, Bool.false_and]
    split
    · rw [hop _ _ _ ht, ← bit, ← bit, h.unused i (by omega), hr.unused i (by omega), hg]
    · exact BitVec.getLsbD_zero

/-! ### Mutators of the size -/

theorem block_vectorResize (bits : List (BitVec w)) (k : ℕ) (v : BitVec w) (j : ℕ) :
    block (vectorResize bits k v) j =
      if j < k then if j < bits.length then block bits j else v else 0 := by
  rw [vectorResize, block_append, List.length_take, block_take, block_replicate]
  by_cases hk : j < k
  · by_cases hl : j < bits.length
    · simp [hk, hl]
    · simp [hk, hl, show ¬ j < min k bits.length by omega,
        show j - min k bits.length < k - bits.length by omega]
  · simp [hk, show ¬ j - min k bits.length < k - bits.length by omega]

theorem length_vectorResize (bits : List (BitVec w)) (k : ℕ) (v : BitVec w) :
    (vectorResize bits k v).length = k := by
  rw [vectorResize, List.length_append, List.length_take, List.length_replicate]
  omega

theorem ite_vectorResize (bits : List (BitVec w)) (k : ℕ) (v : BitVec w) :
    (if k ≠ bits.length then vectorResize bits k v else bits) = vectorResize bits k v := by
  split
  · rfl
  · rename_i h
    obtain rfl : k = bits.length := not_not.mp h
    rw [vectorResize, List.take_length, Nat.sub_self, List.replicate_zero, List.append_nil]

/-- **`resize`** keeps the bits there are and fills with `value`. -/
theorem Valid.resize_reads (hw : 0 < w) (h : b.Valid) (n : ℕ) (v : Bool) :
    ∃ b', b.resize n v = some b' ∧
      b'.Reads n fun i => if i < b.numBits then bit b.bits i else v := by
  have hlen : b.numBlocks = calcNumBlocks w b.numBits := h.length_eq
  have hn := Nat.div_add_mod b.numBits w
  unfold resize
  dsimp only
  rw [show b.numBlocks = b.bits.length from rfl, ite_vectorResize]
  by_cases hset : v = true ∧ b.numBits < n ∧ b.countExtraBits ≠ 0
  · -- the block that was last gets the new bits above the old ones
    obtain ⟨rfl, hlt, hex⟩ := hset
    have hlast : b.bits.length = b.numBits / w + 1 := hlen.trans (calcNumBlocks_of_extra hex)
    have hreq : b.numBits / w < calcNumBlocks w n := div_lt_calcNumBlocks hw hlt
    rw [if_pos ⟨rfl, hlt, hex⟩, length_vectorResize, hlast, Nat.add_sub_cancel]
    have hguard : 1 ≤ b.numBits / w + 1 ∧ b.numBits / w + 1 ≤ calcNumBlocks w n :=
      ⟨Nat.le_add_left 1 _, hreq⟩
    simp only [hguard, guard_true, Option.pure_def, Option.bind_eq_bind, Option.bind_some, and_true,
      if_true]
    obtain ⟨b', hb', hr⟩ := mZeroUnusedBits_reads
      (b := ⟨(vectorResize b.bits (calcNumBlocks w n) (~~~(0#w))).set (b.numBits / w)
        (block (vectorResize b.bits (calcNumBlocks w n) (~~~(0#w))) (b.numBits / w) |||
          (~~~(0#w) <<< b.countExtraBits)), n⟩) hw
      (by rw [numBlocks, List.length_set, length_vectorResize])
    refine ⟨b', hb', hr.congr fun i (hi : i < n) => ?_⟩
    have ht := Nat.mod_lt i hw
    have hq := div_lt_calcNumBlocks hw hi
    have hcmp := lt_iff_div_mod hw i b.numBits
    dsimp only
    rw [bit, block_set, length_vectorResize, block_vectorResize, block_vectorResize, hlast]
    by_cases heq : b.numBits / w = i / w
    · rw [if_pos ⟨heq, hq⟩, if_pos hreq, if_pos (by omega), BitVec.getLsbD_or, ← unusedMask,
        getLsbD_unusedMask ht, heq, ← bit]
      by_cases hi' : i < b.numBits
      · rw [if_pos hi', decide_eq_false (by unfold countExtraBits; omega), Bool.or_false]
      · rw [if_neg hi', decide_eq_true (by unfold countExtraBits; omega), Bool.or_true]
    · rw [if_neg fun hc => heq hc.1, if_pos hq]
      by_cases hi' : i < b.numBits
      · rw [if_pos (by omega), if_pos hi', ← bit]
      · rw [if_neg (by omega), if_neg hi']
        simp [ht]
  · rw [if_neg hset]
    obtain ⟨b', hb', hr⟩ := mZeroUnusedBits_reads
      (b := ⟨vectorResize b.bits (calcNumBlocks w n) (if v then ~~~(0#w) else 0#w), n⟩) hw
      (by rw [numBlocks, length_vectorResize])
    refine ⟨b', hb', hr.congr fun i (hi : i < n) => ?_⟩
    have ht := Nat.mod_lt i hw
    have hq := div_lt_calcNumBlocks hw hi
    have hv : (if v then ~~~(0#w) else 0#w).getLsbD (i % w) = v := by
      cases v <;> simp [ht]
    dsimp only
    rw [bit, block_vectorResize, if_pos hq, apply_ite (fun x => BitVec.getLsbD x (i % w)), hv,
      ← bit]
    by_cases hi' : i < b.numBits
    · rw [if_pos (by rw [h.length_eq]; exact div_lt_calcNumBlocks hw hi'), if_pos hi']
    · rw [if_neg hi']
      split
      · -- a block that was there, past the bits: they are zero, and so is the value
        rename_i hold
        rw [h.unused i (by omega)]
        cases v with
        | false => rfl
        | true =>
          refine absurd ⟨rfl, by omega, fun hex => ?_⟩ hset
          have hfull : b.bits.length = b.numBits / w := hlen.trans (calcNumBlocks_of_full hex)
          have := (lt_iff_div_mod hw i b.numBits).mpr (Or.inl (by omega))
          exact hi' this
      · rfl

/-- **`push_back`** adds a bit at the most significant end. -/
theorem Valid.pushBack_reads (hw : 0 < w) (h : b.Valid) (v : Bool) :
    ∃ b', b.pushBack v = some b' ∧
      b'.Reads (b.numBits + 1) fun i => if i < b.numBits then bit b.bits i else v := by
  obtain ⟨b₁, hb₁, hr₁⟩ := h.resize_reads hw (b.numBits + 1) false
  have hpos : b.numBits < b₁.numBits := by rw [hr₁.numBits_eq]; exact Nat.lt_succ_self _
  obtain ⟨b₂, hb₂, hr₂⟩ := hr₁.valid.set_reads hw hpos v
  rw [hr₁.numBits_eq] at hr₂
  refine ⟨b₂, by simp [pushBack, hb₁, hb₂], hr₂.congr fun i hi => ?_⟩
  rw [hr₁.bit_eq]
  by_cases he : i = b.numBits
  · simp [he]
  · simp [he, hi, show i < b.numBits by omega]

/-- **`pop_back`** takes the most significant bit. -/
theorem Valid.popBack_reads (hw : 0 < w) (h : b.Valid) (hne : 0 < b.numBits) :
    ∃ b', b.popBack = some b' ∧ b'.Reads (b.numBits - 1) (bit b.bits) := by
  have hlen : b.numBlocks = calcNumBlocks w b.numBits := h.length_eq
  have hle : calcNumBlocks w (b.numBits - 1) ≤ calcNumBlocks w b.numBits := by
    by_contra hlt
    have := (lt_calcNumBlocks hw).mp (Nat.lt_of_not_le hlt)
    have := (lt_calcNumBlocks hw (q := calcNumBlocks w b.numBits) (n := b.numBits)).mpr (by omega)
    omega
  have hge : calcNumBlocks w b.numBits ≤ calcNumBlocks w (b.numBits - 1) + 1 := by
    by_contra hlt
    have h₁ := (lt_calcNumBlocks hw).mp (Nat.lt_of_not_le hlt)
    rw [Nat.mul_succ] at h₁
    have := (lt_calcNumBlocks hw (q := calcNumBlocks w (b.numBits - 1))
      (n := b.numBits - 1)).mpr (by omega)
    omega
  have hbits : (if calcNumBlocks w (b.numBits - 1) ≠ b.numBlocks then b.bits.dropLast else b.bits) =
      b.bits.take (calcNumBlocks w (b.numBits - 1)) := by
    split
    · rw [List.dropLast_eq_take]
      congr 1
      unfold numBlocks at *
      omega
    · rename_i heq
      rw [not_not.mp heq]
      exact (List.take_length).symm
  unfold popBack
  dsimp only
  rw [hbits]
  obtain ⟨b', hb', hr⟩ := mZeroUnusedBits_reads
    (b := ⟨b.bits.take (calcNumBlocks w (b.numBits - 1)), b.numBits - 1⟩) hw (by
      rw [numBlocks, List.length_take, h.length_eq, Nat.min_eq_left hle])
  refine ⟨b', hb', hr.congr fun i hi => ?_⟩
  rw [bit, block_take, if_pos (div_lt_calcNumBlocks hw hi), ← bit]

/-- **`append`** adds the bits of a block at the most significant end. -/
theorem Valid.append_reads (hw : 0 < w) (h : b.Valid) (value : BitVec w) :
    ∃ b', b.append value = some b' ∧ b'.Reads (b.numBits + w) fun i =>
      if i < b.numBits then bit b.bits i else value.getLsbD (i - b.numBits) := by
  have hlen := h.length_eq
  have hn := Nat.div_add_mod b.numBits w
  have hdiv : (b.numBits + w) / w = b.numBits / w + 1 := Nat.add_div_right _ hw
  have hmod : (b.numBits + w) % w = b.numBits % w := Nat.add_mod_right _ _
  obtain ⟨bits, hbits⟩ : ∃ bits, bits = if b.countExtraBits = 0 then b.bits ++ [value]
    else (b.bits ++ [value >>> (w - b.countExtraBits)]).set
      ((b.bits ++ [value >>> (w - b.countExtraBits)]).length - 2)
      (block (b.bits ++ [value >>> (w - b.countExtraBits)])
        ((b.bits ++ [value >>> (w - b.countExtraBits)]).length - 2) |||
          (value <<< b.countExtraBits)) := ⟨_, rfl⟩
  have hreads : Reads ⟨bits, b.numBits + w⟩ (b.numBits + w) fun i =>
      if i < b.numBits then bit b.bits i else value.getLsbD (i - b.numBits) := by
    refine ⟨rfl, ?_, fun i => ?_⟩
    · have hl : bits.length = b.bits.length + 1 := by
        rw [hbits]
        split <;> simp
      dsimp only
      rw [hl, hlen, calcNumBlocks, calcNumBlocks, hdiv, hmod]
      omega
    · have ht := Nat.mod_lt i hw
      have hi := Nat.div_add_mod i w
      have hcmp := lt_iff_div_mod hw i b.numBits
      have hcmp' := lt_iff_div_mod hw i (b.numBits + w)
      rw [hdiv, hmod] at hcmp'
      dsimp only
      rw [hbits, bit]
      split
      · -- all blocks are filled
        rename_i hex
        have hex' : b.numBits % w = 0 := hex
        have hl : b.bits.length = b.numBits / w := hlen.trans (calcNumBlocks_of_full hex)
        rw [block_append, hl]
        rcases Nat.lt_trichotomy (i / w) (b.numBits / w) with hq | hq | hq
        · rw [if_pos hq, if_pos (hcmp.mpr (.inl hq)), decide_eq_true (hcmp'.mpr (.inl (by omega))),
            Bool.true_and, bit]
        · have e : i - b.numBits = i % w := by rw [hq] at hi; omega
          rw [if_neg (by omega), if_neg (by omega), e, hq, Nat.sub_self,
            decide_eq_true (hcmp'.mpr (.inl (by omega))), Bool.true_and]
          rfl
        · rw [if_neg (by omega), block_of_ge (by simp; omega), decide_eq_false (by omega),
            Bool.false_and]
          exact BitVec.getLsbD_zero
      · rename_i hex
        have hex' : b.numBits % w ≠ 0 := hex
        have hr : b.countExtraBits = b.numBits % w := rfl
        have hrw := Nat.mod_lt b.numBits hw
        have hl : b.bits.length = b.numBits / w + 1 := hlen.trans (calcNumBlocks_of_extra hex)
        rw [List.length_append, List.length_singleton, hl, block_set, block_append, block_append,
          List.length_append, List.length_singleton, hl, hr,
          show b.numBits / w + 1 + 1 - 2 = b.numBits / w from rfl]
        rcases Nat.lt_trichotomy (i / w) (b.numBits / w) with hq | hq | hq
        · rw [if_neg (by omega), if_pos (by omega), if_pos (hcmp.mpr (.inl hq)),
            decide_eq_true (hcmp'.mpr (.inl (by omega))), Bool.true_and, bit]
        · -- the block that was last
          rw [if_pos (by omega), if_pos (by omega), BitVec.getLsbD_or, BitVec.getLsbD_shiftLeft,
            decide_eq_true (hcmp'.mpr (.inl (by omega))), Bool.true_and, ← hq, ← bit]
          by_cases hlt : i % w < b.numBits % w
          · rw [if_pos (hcmp.mpr (.inr ⟨hq, hlt⟩))]
            simp [hlt]
          · have e : i - b.numBits = i % w - b.numBits % w := by rw [hq] at hi; omega
            rw [if_neg (by omega), h.unused i (by omega), e]
            simp [hlt, ht]
        · rw [if_neg (by omega), if_neg (by omega), if_neg (by omega)]
          rcases Nat.lt_or_ge (b.numBits / w + 1) (i / w) with hq' | hq'
          · rw [block_of_ge (by simp; omega), decide_eq_false (by omega), Bool.false_and]
            exact BitVec.getLsbD_zero
          · -- the block that is new
            have hqe : i / w = b.numBits / w + 1 := by omega
            rw [hqe, Nat.sub_self]
            show (value >>> (w - b.numBits % w)).getLsbD (i % w) = _
            rw [BitVec.getLsbD_ushiftRight]
            rw [hqe, Nat.mul_succ] at hi
            have e : i - b.numBits = w - b.numBits % w + i % w := by omega
            rw [e]
            by_cases hlt : i % w < b.numBits % w
            · rw [decide_eq_true (hcmp'.mpr (.inr ⟨hqe, hlt⟩)), Bool.true_and]
            · rw [decide_eq_false (by omega), Bool.false_and]
              exact BitVec.getLsbD_of_ge _ _ (by omega)
  refine ⟨⟨bits, b.numBits + w⟩, ?_, hreads⟩
  have hcheck := (mCheckInvariants_iff hw).mpr hreads.valid
  unfold append
  dsimp only
  rw [← hbits]
  simp [hcheck]

/-! ### Shifts -/

theorem length_moveUp (f : BitVec w → BitVec w → BitVec w) (div i : ℕ) (bits : List (BitVec w)) :
    (moveUp f div i bits).length = bits.length := by
  induction i generalizing bits with
  | zero => rfl
  | succ i ih => rw [moveUp, ih, List.length_set]

/-- The upward loop writes above what it still reads. -/
theorem block_moveUp (f : BitVec w → BitVec w → BitVec w) (div : ℕ) {i : ℕ}
    (hi : i + div < bits.length) (j : ℕ) :
    block (moveUp f div i bits) j =
      if div < j ∧ j ≤ i + div then f (block bits (j - div)) (block bits (j - div - 1))
      else block bits j := by
  induction i generalizing bits with
  | zero => rw [moveUp, if_neg (by omega)]
  | succ i ih =>
    rw [moveUp, ih (by rw [List.length_set]; omega)]
    simp only [block_set]
    by_cases hj : j = i + 1 + div
    · subst hj
      rw [if_neg (by omega), if_pos ⟨rfl, hi⟩, if_pos (by omega),
        show i + 1 + div - div = i + 1 by omega, Nat.add_sub_cancel]
    · by_cases hin : div < j ∧ j ≤ i + div
      · rw [if_pos hin, if_pos (show div < j ∧ j ≤ i + 1 + div by omega),
          if_neg (show ¬ (i + 1 + div = j - div ∧ j - div < bits.length) by omega),
          if_neg (show ¬ (i + 1 + div = j - div - 1 ∧ j - div - 1 < bits.length) by omega)]
      · rw [if_neg hin, if_neg (show ¬ (i + 1 + div = j ∧ j < bits.length) by omega),
          if_neg (show ¬ (div < j ∧ j ≤ i + 1 + div) by omega)]

theorem length_moveDown (f : BitVec w → BitVec w → BitVec w) (div i k : ℕ)
    (bits : List (BitVec w)) : (moveDown f div i k bits).length = bits.length := by
  induction k generalizing i bits with
  | zero => rfl
  | succ k ih => rw [moveDown, ih, List.length_set]

theorem block_moveDown (f : BitVec w → BitVec w → BitVec w) {div i k : ℕ} (hd : div ≤ i)
    (hi : i + k ≤ bits.length) (j : ℕ) :
    block (moveDown f div i k bits) j =
      if i ≤ j + div ∧ j + div < i + k then f (block bits (j + div)) (block bits (j + div + 1))
      else block bits j := by
  induction k generalizing i bits with
  | zero => rw [moveDown, if_neg (by omega)]
  | succ k ih =>
    rw [moveDown, ih (by omega) (by rw [List.length_set]; omega)]
    simp only [block_set]
    by_cases hj : j = i - div
    · subst hj
      rw [if_neg (by omega), if_pos (by omega), if_pos (by omega),
        show i - div + div = i by omega]
    · by_cases hin : i + 1 ≤ j + div ∧ j + div < i + 1 + k
      · rw [if_pos hin, if_pos (show i ≤ j + div ∧ j + div < i + (k + 1) by omega),
          if_neg (show ¬ (i - div = j + div ∧ j + div < bits.length) by omega),
          if_neg (show ¬ (i - div = j + div + 1 ∧ j + div + 1 < bits.length) by omega)]
      · rw [if_neg hin, if_neg (show ¬ (i - div = j ∧ j < bits.length) by omega),
          if_neg (show ¬ (i ≤ j + div ∧ j + div < i + (k + 1)) by omega)]

theorem block_shiftLeft {f : BitVec w → BitVec w → BitVec w} {g : BitVec w → BitVec w} {div : ℕ}
    (hdiv : div < bits.length) (j : ℕ) :
    block (fillZero 0 div ((moveUp f div (bits.length - 1 - div) bits).set div
      (g (block (moveUp f div (bits.length - 1 - div) bits) 0)))) j =
      if j < div ∨ bits.length ≤ j then 0 else if j = div then g (block bits 0)
      else f (block bits (j - div)) (block bits (j - div - 1)) := by
  have hup := block_moveUp f div (show bits.length - 1 - div + div < bits.length by omega)
  rw [fillZero, block_mapIdx, List.length_set, length_moveUp, block_set, length_moveUp, hup, hup,
    if_neg (by omega : ¬ (div < 0 ∧ 0 ≤ bits.length - 1 - div + div))]
  by_cases hj : j < bits.length
  · rw [if_pos hj]
    by_cases hlow : j < div
    · rw [if_pos (show 0 ≤ j ∧ j < 0 + div by omega), if_pos (Or.inl hlow)]
    · rw [if_neg (show ¬ (0 ≤ j ∧ j < 0 + div) by omega),
        if_neg (show ¬ (j < div ∨ bits.length ≤ j) by omega)]
      by_cases heq : div = j
      · rw [if_pos (show div = j ∧ j < bits.length from ⟨heq, hj⟩), if_pos heq.symm]
      · rw [if_neg (show ¬ (div = j ∧ j < bits.length) from fun h => heq h.1),
          if_neg (Ne.symm heq),
          if_pos (show div < j ∧ j ≤ bits.length - 1 - div + div by omega)]
  · rw [if_neg hj, if_pos (.inr (by omega))]

/-- **`<<=`** shifts zeros in at the least significant end. -/
theorem Valid.shiftLeft_reads (hw : 0 < w) (h : b.Valid) (n : ℕ) :
    ∃ b', b.shiftLeft n = some b' ∧
      b'.Reads b.numBits fun i => decide (n ≤ i) && bit b.bits (i - n) := by
  unfold shiftLeft
  split
  · rename_i hge
    refine ⟨_, rfl, h.resetAll_reads.congr fun i hi => ?_⟩
    rw [decide_eq_false (by omega), Bool.false_and]
  split
  · rename_i hlt hn
    have hdiv : n / w < b.bits.length := by
      rw [h.length_eq]
      exact div_lt_calcNumBlocks hw (by omega)
    have hnw := Nat.div_add_mod n w
    have hr := Nat.mod_lt n hw
    dsimp only
    rw [show b.numBlocks = b.bits.length from rfl]
    -- it remains to read the moved blocks bit by bit
    suffices ∀ bits : List (BitVec w), bits.length = b.bits.length →
        (∀ i < b.numBits, bit bits i = (decide (n ≤ i) && bit b.bits (i - n))) →
        ∃ b', mZeroUnusedBits ⟨bits, b.numBits⟩ = some b' ∧
          b'.Reads b.numBits fun i => decide (n ≤ i) && bit b.bits (i - n) by
      refine this _ ?_ fun i hi => ?_
      · split <;> simp [fillZero, length_moveUp]
      · have ht := Nat.mod_lt i hw
        have hiw := Nat.div_add_mod i w
        have hq : i / w < b.bits.length := by
          rw [h.length_eq]
          exact div_lt_calcNumBlocks hw hi
        have hcmp := lt_iff_div_mod hw i n
        rw [bit]
        split
        · rename_i hr0
          rw [block_shiftLeft (g := fun x => x <<< (n % w)) hdiv]
          rcases Nat.lt_trichotomy (i / w) (n / w) with hlow | heq | hhigh
          · rw [if_pos (.inl hlow), decide_eq_false (by omega), Bool.false_and]
            exact BitVec.getLsbD_zero
          · rw [if_neg (by omega), if_pos heq, BitVec.getLsbD_shiftLeft]
            rw [heq] at hiw
            by_cases hlt : i % w < n % w
            · rw [decide_eq_false (by omega : ¬ n ≤ i)]
              simp [hlt]
            · have e : i - n = w * 0 + (i % w - n % w) := by omega
              rw [e, bit_mul_add _ (by omega), decide_eq_true (by omega : n ≤ i)]
              simp [hlt, ht]
          · have hle : n ≤ i := Nat.le_of_not_lt fun hc => by omega
            have hmul : w * (i / w - n / w) = w * (i / w) - w * (n / w) := Nat.mul_sub _ _ _
            have hmono := Nat.mul_le_mul_left w hhigh.le
            rw [if_neg (by omega), if_neg (by omega), BitVec.getLsbD_or, BitVec.getLsbD_shiftLeft,
              BitVec.getLsbD_ushiftRight, decide_eq_true hle, Bool.true_and]
            by_cases hlt : i % w < n % w
            · -- the bit comes from the block below
              have hpred : w * (i / w - n / w) = w * (i / w - n / w - 1) + w := by
                rw [← Nat.mul_succ]
                congr 1
                omega
              have e : i - n = w * (i / w - n / w - 1) + (w - n % w + i % w) := by omega
              rw [e, bit_mul_add _ (by omega)]
              simp [hlt]
            · have e : i - n = w * (i / w - n / w) + (i % w - n % w) := by omega
              rw [e, bit_mul_add _ (by omega)]
              simp [hlt, ht, BitVec.getLsbD_of_ge (block b.bits (i / w - n / w - 1))
                (w - n % w + i % w) (by omega)]
        · rename_i hr0
          have hr0 : n % w = 0 := not_not.mp hr0
          rw [block_shiftLeft (g := fun x => x) hdiv]
          rcases Nat.lt_trichotomy (i / w) (n / w) with hlow | heq | hhigh
          · rw [if_pos (.inl hlow), decide_eq_false (by omega), Bool.false_and]
            exact BitVec.getLsbD_zero
          · rw [heq] at hiw
            have e : i - n = w * 0 + i % w := by omega
            rw [if_neg (by omega), if_pos heq, e, bit_mul_add _ ht, decide_eq_true (by omega : n ≤ i),
              Bool.true_and]
          · have hle : n ≤ i := Nat.le_of_not_lt fun hc => by omega
            have hmul : w * (i / w - n / w) = w * (i / w) - w * (n / w) := Nat.mul_sub _ _ _
            have hmono := Nat.mul_le_mul_left w hhigh.le
            have e : i - n = w * (i / w - n / w) + i % w := by omega
            rw [if_neg (by omega), if_neg (by omega), e, bit_mul_add _ ht, decide_eq_true hle,
              Bool.true_and]
    intro bits hlen hbits
    obtain ⟨b', hb', hrd⟩ := mZeroUnusedBits_reads (b := ⟨bits, b.numBits⟩) hw
      (hlen.trans h.length_eq)
    exact ⟨b', hb', hrd.congr hbits⟩
  · rename_i hn
    obtain rfl : n = 0 := by omega
    exact ⟨b, rfl, h.reads.congr fun i _ => by simp⟩

theorem block_fillZero (start k : ℕ) (bits : List (BitVec w)) (j : ℕ) :
    block (fillZero start k bits) j =
      if start ≤ j ∧ j < start + k then 0 else block bits j := by
  rw [fillZero, block_mapIdx]
  split
  · rfl
  · rename_i hj
    rw [block_of_ge (by omega), ite_self]

theorem block_shiftRight {f : BitVec w → BitVec w → BitVec w} {g : BitVec w → BitVec w}
    (hf : ∀ x, f x 0 = g x) {div : ℕ} (hdiv : div < bits.length) (j : ℕ) :
    block (fillZero (bits.length - div) div
      ((moveDown f div div (bits.length - 1 - div) bits).set (bits.length - 1 - div)
        (g (block (moveDown f div div (bits.length - 1 - div) bits) (bits.length - 1))))) j =
      if j + div < bits.length then f (block bits (j + div)) (block bits (j + div + 1)) else 0 := by
  have hdown := block_moveDown f (le_refl div)
    (show div + (bits.length - 1 - div) ≤ bits.length by omega)
  rw [block_fillZero, block_set, length_moveDown, hdown, hdown,
    if_neg (show ¬ (div ≤ bits.length - 1 + div ∧
      bits.length - 1 + div < div + (bits.length - 1 - div)) by omega)]
  rcases Nat.lt_trichotomy j (bits.length - 1 - div) with hj | hj | hj
  · rw [if_neg (show ¬ (bits.length - div ≤ j ∧ j < bits.length - div + div) by omega),
      if_neg (show ¬ (bits.length - 1 - div = j ∧ j < bits.length) by omega),
      if_pos (show div ≤ j + div ∧ j + div < div + (bits.length - 1 - div) by omega),
      if_pos (show j + div < bits.length by omega)]
  · rw [if_neg (show ¬ (bits.length - div ≤ j ∧ j < bits.length - div + div) by omega),
      if_pos (show bits.length - 1 - div = j ∧ j < bits.length by omega),
      if_pos (show j + div < bits.length by omega), show j + div = bits.length - 1 by omega,
      block_of_ge (show bits.length ≤ bits.length - 1 + 1 by omega), hf]
  · rw [if_neg (show ¬ j + div < bits.length by omega)]
    by_cases hlen : j < bits.length
    · rw [if_pos (show bits.length - div ≤ j ∧ j < bits.length - div + div by omega)]
    · rw [if_neg (show ¬ (bits.length - div ≤ j ∧ j < bits.length - div + div) by omega),
        if_neg (show ¬ (bits.length - 1 - div = j ∧ j < bits.length) by omega),
        if_neg (show ¬ (div ≤ j + div ∧ j + div < div + (bits.length - 1 - div)) by omega),
        block_of_ge (by omega)]

theorem block_shiftRight_whole {div : ℕ} (hdiv : div < bits.length) (j : ℕ) :
    block (fillZero (bits.length - div) div
      (moveDown (fun x _ => x) div div (bits.length - 1 + 1 - div) bits)) j =
      if j + div < bits.length then block bits (j + div) else 0 := by
  rw [block_fillZero, block_moveDown _ le_rfl (by omega)]
  by_cases hj : j + div < bits.length
  · rw [if_neg (show ¬ (bits.length - div ≤ j ∧ j < bits.length - div + div) by omega),
      if_pos (show div ≤ j + div ∧ j + div < div + (bits.length - 1 + 1 - div) by omega), if_pos hj]
  · rw [if_neg hj, if_neg (show ¬ (div ≤ j + div ∧
      j + div < div + (bits.length - 1 + 1 - div)) by omega)]
    split
    · rfl
    · exact block_of_ge (by omega)

/-- **`>>=`** shifts zeros in at the most significant end. -/
theorem Valid.shiftRight_reads (hw : 0 < w) (h : b.Valid) (n : ℕ) :
    (b.shiftRight n).Reads b.numBits fun i => bit b.bits (i + n) := by
  unfold shiftRight
  split
  · rename_i hge
    refine h.resetAll_reads.congr fun i hi => ?_
    rw [h.unused _ (by omega)]
  split
  · rename_i hlt hn
    have hdiv : n / w < b.bits.length := by
      rw [h.length_eq]
      exact div_lt_calcNumBlocks hw (by omega)
    have hnw := Nat.div_add_mod n w
    have hr := Nat.mod_lt n hw
    dsimp only
    rw [show b.numBlocks = b.bits.length from rfl]
    -- it remains to read the moved blocks bit by bit
    suffices ∀ bits : List (BitVec w), bits.length = b.bits.length →
        (∀ i, bit bits i = bit b.bits (i + n)) →
        Reads ⟨bits, b.numBits⟩ b.numBits fun i => bit b.bits (i + n) by
      refine this _ ?_ fun i => ?_
      · split <;> simp [fillZero, length_moveDown]
      · have ht := Nat.mod_lt i hw
        have hiw := Nat.div_add_mod i w
        have hadd : w * (i / w + n / w) = w * (i / w) + w * (n / w) := Nat.mul_add _ _ _
        have hpast : ¬ i / w + n / w < b.bits.length → bit b.bits (i + n) = false := fun hge => by
          have := Nat.mul_le_mul_left w (Nat.le_of_not_lt hge)
          exact bit_of_ge (by omega)
        rw [bit]
        split
        · rename_i hr0
          rw [block_shiftRight (g := fun x => x >>> (n % w)) (by simp) hdiv]
          by_cases hq : i / w + n / w < b.bits.length
          · rw [if_pos hq, BitVec.getLsbD_or, BitVec.getLsbD_ushiftRight, BitVec.getLsbD_shiftLeft]
            by_cases hlt : i % w + n % w < w
            · have e : i + n = w * (i / w + n / w) + (n % w + i % w) := by omega
              rw [e, bit_mul_add _ (by omega)]
              simp [show i % w < w - n % w by omega]
            · -- the bit comes from the block above
              have e : i + n = w * (i / w + n / w + 1) + (i % w - (w - n % w)) := by
                rw [Nat.mul_succ]
                omega
              rw [e, bit_mul_add _ (by omega), BitVec.getLsbD_of_ge _ _ (by omega), Bool.false_or]
              simp [ht, show ¬ i % w < w - n % w by omega]
          · rw [if_neg hq, hpast hq]
            exact BitVec.getLsbD_zero
        · rename_i hr0
          have hr0 : n % w = 0 := not_not.mp hr0
          rw [block_shiftRight_whole hdiv]
          by_cases hq : i / w + n / w < b.bits.length
          · have e : i + n = w * (i / w + n / w) + i % w := by omega
            rw [if_pos hq, e, bit_mul_add _ ht]
          · rw [if_neg hq, hpast hq]
            exact BitVec.getLsbD_zero
    intro bits hlen hbits
    refine ⟨rfl, hlen.trans h.length_eq, fun i => ?_⟩
    rw [hbits]
    by_cases hi : i < b.numBits
    · simp [hi]
    · rw [h.unused _ (by omega), Bool.and_false]
  · rename_i hn
    obtain rfl : n = 0 := by omega
    exact h.reads.congr fun i _ => by simp

end SourceLibs.DynamicBitset
