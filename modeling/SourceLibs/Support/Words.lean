import SourceLibs.Support.Bits

/-!
# Support — words as bytes and bits

Memory as a sequence of words of `w` bits, `w` a multiple of 8, least significant byte first.  The
bits of all words in a row are `bitAt`, the bytes are `byteAt`; `writeBytes` stores bytes into the
words, `moveBytes` moves a range that may overlap its destination, `clearBytes` zeroes one.

* `bitAt_writeBytes`, `bitAt_moveBytes`, `bitAt_clearBytes`: what each leaves, bit by bit.
* `eq_of_bitAt`: words with the same bits are the same.
-/

namespace SourceLibs.Words
open Nat BitVec Radix

variable {w : ℕ} {p q : ℕ → BitVec w}

/-- Bit `k` of the words in a row. -/
def bitAt (p : ℕ → BitVec w) (k : ℕ) : Bool := (p (k / w)).getLsbD (k % w)

/-- Byte `j` of the words in a row. -/
def byteAt (p : ℕ → BitVec w) (j : ℕ) : BitVec 8 := (p (j / (w / 8))).extractLsb' (8 * (j % (w / 8))) 8

/-- The words made of the bytes `m`. -/
def ofBytes (w : ℕ) (m : ℕ → BitVec 8) (i : ℕ) : BitVec w :=
  BitVec.ofNat w (value (2 ^ 8) (fun t => (m (w / 8 * i + t)).toNat) (w / 8))

/-- The bytes from `dst` on are those of `src`. -/
def writeBytes (p : ℕ → BitVec w) (dst len : ℕ) (src : ℕ → BitVec 8) : ℕ → BitVec w :=
  ofBytes w fun j => if dst ≤ j ∧ j < dst + len then src (j - dst) else byteAt p j

/-- `memmove(p + dst, p + src, len)`. -/
def moveBytes (p : ℕ → BitVec w) (dst src len : ℕ) : ℕ → BitVec w :=
  writeBytes p dst len fun t => byteAt p (src + t)

/-- `memset(p + dst, 0, len)`. -/
def clearBytes (p : ℕ → BitVec w) (dst len : ℕ) : ℕ → BitVec w := writeBytes p dst len fun _ => 0

theorem bitAt_mul_add {i t : ℕ} (ht : t < w) : bitAt p (w * i + t) = (p i).getLsbD t := by
  have hw : 0 < w := by omega
  rw [bitAt, mul_add_div hw, div_eq_of_lt ht, mul_add_mod, mod_eq_of_lt ht,
    Nat.add_zero]

theorem eq_of_bitAt {i j : ℕ} (h : ∀ t < w, bitAt p (w * i + t) = bitAt q (w * j + t)) : p i = q j := by
  refine eq_of_getLsbD_eq fun t ht => ?_
  rw [← bitAt_mul_add (p := p) ht, ← bitAt_mul_add (p := q) ht]
  exact h t ht

section Bytes
variable [NeZero w] (hw : 8 ∣ w)
include hw

theorem byte_pos : 0 < w / 8 := Nat.div_pos (Nat.le_of_dvd (NeZero.pos w) hw) (by decide)

/-- The byte of a bit, from the word and the position inside it. -/
theorem div_eight (k : ℕ) : w / 8 * (k / w) + k % w / 8 = k / 8 ∧ k % w % 8 = k % 8 := by
  refine ⟨?_, mod_mod_of_dvd k hw⟩
  obtain ⟨b, rfl⟩ := hw
  have hk := div_add_mod k (8 * b)
  rw [Nat.mul_div_cancel_left b (by decide)]
  rw [Nat.mul_assoc] at hk
  omega

theorem bitAt_ofBytes (m : ℕ → BitVec 8) (k : ℕ) :
    bitAt (ofBytes w m) k = (m (k / 8)).getLsbD (k % 8) := by
  obtain ⟨hq, hr⟩ := div_eight hw k
  have hlt := mod_lt k (NeZero.pos w)
  have hin : k % w < 8 * (w / 8) := by rwa [Nat.mul_div_cancel' hw]
  rw [bitAt, ofBytes, getLsbD_ofNat, testBit_value (fun t => isLt _) _ _ hin, hq, hr]
  simp [hlt, testBit_toNat]

theorem getLsbD_byteAt (p : ℕ → BitVec w) (j : ℕ) {r : ℕ} (hr : r < 8) :
    (byteAt p j).getLsbD r = bitAt p (8 * j + r) := by
  obtain ⟨b, rfl⟩ := hw
  have hb : 0 < b := Nat.pos_of_ne_zero fun h => (NeZero.ne (8 * b)) (by rw [h, Nat.mul_zero])
  have hj := div_add_mod j b
  have hmod := mod_lt j hb
  have hk : 8 * j + r = 8 * b * (j / b) + (8 * (j % b) + r) := by
    rw [Nat.mul_assoc]
    omega
  rw [byteAt, Nat.mul_div_cancel_left b (by decide), getLsbD_extractLsb', hk,
    bitAt_mul_add (by omega)]
  simp [hr]

/-- **Bytes stored** replace the bits of their positions. -/
theorem bitAt_writeBytes (p : ℕ → BitVec w) (dst len : ℕ) (src : ℕ → BitVec 8) (k : ℕ) :
    bitAt (writeBytes p dst len src) k =
      if 8 * dst ≤ k ∧ k < 8 * (dst + len) then (src (k / 8 - dst)).getLsbD (k % 8) else bitAt p k := by
  have hk := div_add_mod k 8
  rw [writeBytes, bitAt_ofBytes hw]
  by_cases h : dst ≤ k / 8 ∧ k / 8 < dst + len
  · rw [if_pos h, if_pos (by omega)]
  · rw [if_neg h, if_neg (by omega), getLsbD_byteAt hw p _ (mod_lt k (by decide)), hk]

/-- **Bytes moved**, the ranges may overlap. -/
theorem bitAt_moveBytes (p : ℕ → BitVec w) (dst src len k : ℕ) :
    bitAt (moveBytes p dst src len) k =
      if 8 * dst ≤ k ∧ k < 8 * (dst + len) then bitAt p (k - 8 * dst + 8 * src) else bitAt p k := by
  rw [moveBytes, bitAt_writeBytes hw]
  split
  · rename_i h
    rw [getLsbD_byteAt hw p _ (mod_lt k (by decide))]
    congr 1
    omega
  · rfl

/-- **Bytes cleared.** -/
theorem bitAt_clearBytes (p : ℕ → BitVec w) (dst len k : ℕ) :
    bitAt (clearBytes p dst len) k =
      if 8 * dst ≤ k ∧ k < 8 * (dst + len) then false else bitAt p k := by
  rw [clearBytes, bitAt_writeBytes hw]
  split
  · exact getLsbD_zero
  · rfl

end Bytes

end SourceLibs.Words
