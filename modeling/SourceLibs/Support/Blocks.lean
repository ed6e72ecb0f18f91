import Mathlib.Data.BitVec
import SourceLibs.Support.Bits

/-!
# Support — bits in blocks

A list of blocks of `w` bits read as one sequence of bits: bit `k` is bit `k % w` of block `k / w`,
and false past the end.  The blocks are also the digits of a number at radix `2 ^ w`.

* `bit_mul_add`: the bits of a block.
* `ext_of_bit`: lists of one length with the same bits are equal.
* `lt_iff_div_mod`: positions compare by block, then within it.
* `forall_block_iff_forall_bit`, `forall_bit_lt_iff`: from blocks to bits.
* `testBit_natOf`: the number's bits are the sequence's.
-/

namespace SourceLibs.Blocks
open List Nat BitVec

variable {w : ℕ} (bits : List (BitVec w))

/-- Block `i`, zero past the end. -/
def block (bits : List (BitVec w)) (i : ℕ) : BitVec w := bits.getD i 0

/-- Bit `k` of the sequence. -/
def bit (bits : List (BitVec w)) (k : ℕ) : Bool := (block bits (k / w)).getLsbD (k % w)

theorem block_of_ge {bits : List (BitVec w)} {i : ℕ} (h : bits.length ≤ i) : block bits i = 0 :=
  getD_eq_default _ _ h

theorem block_eq_getElem {bits : List (BitVec w)} {i : ℕ} (h : i < bits.length) :
    block bits i = bits[i] := getD_eq_getElem _ _ h

theorem block_set (i : ℕ) (x : BitVec w) (j : ℕ) :
    block (bits.set i x) j = if i = j ∧ j < bits.length then x else block bits j := by
  by_cases hj : j < bits.length
  · rw [block_eq_getElem (by simpa using hj), getElem_set, block_eq_getElem hj]
    simp [hj]
  · rw [block_of_ge (by simpa using hj), if_neg fun h => hj h.2, block_of_ge (by omega)]

theorem block_append (bits bits' : List (BitVec w)) (j : ℕ) :
    block (bits ++ bits') j =
      if j < bits.length then block bits j else block bits' (j - bits.length) := by
  split
  · rename_i h
    exact getD_append _ _ _ _ h
  · rename_i h
    exact getD_append_right _ _ _ _ (Nat.le_of_not_lt h)

theorem block_take (k j : ℕ) : block (bits.take k) j = if j < k then block bits j else 0 := by
  by_cases hj : j < (bits.take k).length
  · have hj' := hj
    rw [length_take] at hj'
    rw [block_eq_getElem hj, getElem_take, if_pos (by omega), block_eq_getElem]
  · rw [block_of_ge (Nat.le_of_not_lt hj)]
    rw [length_take] at hj
    split
    · exact (block_of_ge (by omega)).symm
    · rfl

theorem block_replicate (k : ℕ) (x : BitVec w) (j : ℕ) :
    block (List.replicate k x) j = if j < k then x else 0 := by
  split
  · rename_i h
    rw [block_eq_getElem (by simpa using h), List.getElem_replicate]
  · rename_i h
    exact block_of_ge (by simpa using h)

theorem block_mapIdx (f : ℕ → BitVec w → BitVec w) (bits : List (BitVec w)) (j : ℕ) :
    block (bits.mapIdx f) j = if j < bits.length then f j (block bits j) else 0 := by
  split
  · rename_i h
    rw [block_eq_getElem (by simpa using h), getElem_mapIdx, block_eq_getElem h]
  · rename_i h
    exact block_of_ge (by simpa using h)

theorem block_map (f : BitVec w → BitVec w) (bits : List (BitVec w)) (j : ℕ) :
    block (bits.map f) j = if j < bits.length then f (block bits j) else 0 := by
  split
  · rename_i h
    rw [block_eq_getElem (by simpa using h), getElem_map, block_eq_getElem h]
  · rename_i h
    exact block_of_ge (by simpa using h)

/-! ### Positions -/

theorem mul_add_div_mod {q t : ℕ} (ht : t < w) : (w * q + t) / w = q ∧ (w * q + t) % w = t := by
  have hw : 0 < w := by omega
  rw [mul_add_div hw, div_eq_of_lt ht, mul_add_mod, mod_eq_of_lt ht]
  exact ⟨rfl, rfl⟩

theorem bit_mul_add {q t : ℕ} (ht : t < w) : bit bits (w * q + t) = (block bits q).getLsbD t := by
  obtain ⟨h₁, h₂⟩ := mul_add_div_mod (q := q) ht
  rw [bit, h₁, h₂]

theorem lt_iff_div_mod (hw : 0 < w) (i n : ℕ) :
    i < n ↔ i / w < n / w ∨ i / w = n / w ∧ i % w < n % w := by
  have hi := div_add_mod i w
  have hn := div_add_mod n w
  have hti := mod_lt i hw
  have htn := mod_lt n hw
  rcases Nat.lt_trichotomy (i / w) (n / w) with h | h | h
  · have := Nat.mul_le_mul_left w (succ_le_of_lt h)
    rw [Nat.mul_succ] at this
    omega
  · rw [h] at hi ⊢
    omega
  · have := Nat.mul_le_mul_left w (succ_le_of_lt h)
    rw [Nat.mul_succ] at this
    omega

theorem bit_of_ge {bits : List (BitVec w)} {k : ℕ} (h : w * bits.length ≤ k) :
    bit bits k = false := by
  rcases Nat.eq_zero_or_pos w with rfl | hw
  · exact getLsbD_of_ge _ _ (by omega)
  · rw [bit, block_of_ge ((Nat.le_div_iff_mul_le hw).mpr (by rwa [Nat.mul_comm]))]
    exact getLsbD_zero

/-- **Extensionality**: the bits determine the blocks. -/
theorem ext_of_bit {bits bits' : List (BitVec w)} (hlen : bits.length = bits'.length)
    (h : ∀ k, bit bits k = bit bits' k) : bits = bits' := by
  refine ext_getElem hlen fun i hi hi' => eq_of_getLsbD_eq fun t ht => ?_
  rw [← block_eq_getElem hi, ← block_eq_getElem hi', ← bit_mul_add _ ht, ← bit_mul_add _ ht]
  exact h _

theorem eq_zero_iff_getLsbD (x : BitVec w) : x = 0#w ↔ ∀ t < w, x.getLsbD t = false := by
  constructor
  · rintro rfl t -
    exact getLsbD_zero
  · intro h
    exact eq_of_getLsbD_eq fun t ht => (h t ht).trans getLsbD_zero.symm

/-- A relation that holds past block `k` holds of the first `k` blocks, bit by bit, when it holds of
all bits. -/
theorem forall_block_iff_forall_bit (hw : 0 < w) (bits bits' : List (BitVec w))
    (P : Bool → Bool → Prop) {k : ℕ}
    (hP : ∀ q t, k ≤ q → P ((block bits q).getLsbD t) ((block bits' q).getLsbD t)) :
    (∀ q < k, ∀ t < w, P ((block bits q).getLsbD t) ((block bits' q).getLsbD t)) ↔
      ∀ i, P (bit bits i) (bit bits' i) := by
  constructor
  · intro h i
    rcases Nat.lt_or_ge (i / w) k with hlt | hge
    · exact h _ hlt _ (mod_lt i hw)
    · exact hP _ _ hge
  · intro h q _ t ht
    rw [← bit_mul_add _ ht, ← bit_mul_add _ ht]
    exact h _

/-- The first `n` bits are those of the full blocks and the first of the block after them. -/
theorem forall_bit_lt_iff (hw : 0 < w) (bits : List (BitVec w)) (P : Bool → Prop) (n : ℕ) :
    (∀ i < n, P (bit bits i)) ↔ (∀ q < n / w, ∀ t < w, P ((block bits q).getLsbD t)) ∧
      ∀ t < n % w, P ((block bits (n / w)).getLsbD t) := by
  have hn := div_add_mod n w
  have hmod := mod_lt n hw
  constructor
  · intro h
    refine ⟨fun q hq t ht => ?_, fun t ht => ?_⟩
    · have := Nat.mul_le_mul_left w (succ_le_of_lt hq)
      rw [Nat.mul_succ] at this
      rw [← bit_mul_add _ ht]
      exact h _ (by omega)
    · rw [← bit_mul_add _ (ht.trans hmod)]
      exact h _ (by omega)
  · rintro ⟨hfull, hlast⟩ i hi
    rcases (lt_iff_div_mod hw i n).mp hi with hlt | ⟨heq, hlt⟩
    · exact hfull _ hlt _ (mod_lt i hw)
    · rw [bit, heq]
      exact hlast _ hlt

/-! ### The number -/

/-- The blocks as digits. -/
def natOf (bits : List (BitVec w)) : ℕ :=
  Radix.value (2 ^ w) (fun i => (block bits i).toNat) bits.length

theorem testBit_natOf (k : ℕ) : (natOf bits).testBit k = bit bits k := by
  have hlt : natOf bits < 2 ^ (w * bits.length) := by
    rw [pow_mul]
    exact Radix.value_lt fun i _ => (block bits i).isLt
  by_cases hk : k < w * bits.length
  · exact Radix.testBit_value (fun i => (block bits i).isLt) _ _ hk
  · rw [bit_of_ge (Nat.le_of_not_lt hk)]
    exact testBit_lt_two_pow (hlt.trans_le (Nat.pow_le_pow_right Nat.two_pos (by omega)))

end SourceLibs.Blocks
