import Mathlib.Data.List.Basic
import Mathlib.Data.Nat.Basic
import Mathlib.Data.Int.Basic
import Mathlib.Algebra.Order.Ring.Int
import Mathlib.Tactic.Ring

/-!
# Support — a block of memory

A block is a list of cells; `slice` reads a part of it and `overwrite` writes one.  Integers are kept
in a block of bytes in little-endian two's complement.

* `slice_overwrite_of_le`, `slice_overwrite_of_ge`, `slice_overwrite_of_mem`: what a part holds after
  another was written.
* `intOfBytes_bytesOfInt`: an integer that fits is read back.
-/

namespace SourceLibs.Memory
open List Int

section

variable {β : Type*}

/-- The `n` cells from `i` on. -/
def slice (block : List β) (i n : ℕ) : List β := (block.drop i).take n

/-- `memcpy(dst + i, src, len)`. -/
def overwrite (dst : List β) (i : ℕ) (src : List β) : List β :=
  dst.take i ++ src ++ dst.drop (i + src.length)

variable {block dst src : List β} {i j n m : ℕ}

theorem length_slice (h : i + n ≤ block.length) : (slice block i n).length = n := by
  rw [slice, length_take, length_drop]
  omega

theorem getElem?_slice (h : j < n) : (slice block i n)[j]? = block[i + j]? := by
  rw [slice, List.getElem?_take_of_lt h, List.getElem?_drop]

theorem slice_slice (h : j + m ≤ n) : slice (slice block i n) j m = slice block (i + j) m := by
  rw [slice, slice, slice, drop_take, drop_drop, take_take]
  congr 1
  omega

theorem length_overwrite (h : i + src.length ≤ dst.length) :
    (overwrite dst i src).length = dst.length := by
  rw [overwrite, length_append, length_append, length_take, length_drop]
  omega

theorem getElem?_overwrite_of_lt (h : i + src.length ≤ dst.length) (hj : j < i) :
    (overwrite dst i src)[j]? = dst[j]? := by
  have hlen : (dst.take i).length = i := length_take_of_le (by omega)
  rw [overwrite, List.append_assoc, List.getElem?_append_left (by omega), List.getElem?_take_of_lt hj]

theorem getElem?_overwrite_of_mem (h : i + src.length ≤ dst.length) (hj : j < src.length) :
    (overwrite dst i src)[i + j]? = src[j]? := by
  have hlen : (dst.take i).length = i := length_take_of_le (by omega)
  rw [overwrite, List.append_assoc, List.getElem?_append_right (by omega), hlen,
    Nat.add_sub_cancel_left, List.getElem?_append_left hj]

theorem getElem?_overwrite_of_ge (h : i + src.length ≤ dst.length) (hj : i + src.length ≤ j) :
    (overwrite dst i src)[j]? = dst[j]? := by
  have hlen : (dst.take i ++ src).length = i + src.length := by
    rw [length_append, length_take_of_le (by omega)]
  rw [overwrite, List.getElem?_append_right (by omega), hlen, List.getElem?_drop]
  congr 1
  omega

/-- Two parts are the same if their cells are. -/
theorem slice_eq_slice {block' : List β} (h : ∀ k < n, block'[j + k]? = block[i + k]?) :
    slice block' j n = slice block i n := by
  refine ext_getElem? fun k => ?_
  by_cases hk : k < n
  · rw [getElem?_slice hk, getElem?_slice hk, h k hk]
  · rw [List.getElem?_eq_none, List.getElem?_eq_none]
    · rw [slice, length_take]
      omega
    · rw [slice, length_take]
      omega

/-- **A part before** the one that is written. -/
theorem slice_overwrite_of_le (h : i + src.length ≤ dst.length) (hj : j + n ≤ i) :
    slice (overwrite dst i src) j n = slice dst j n :=
  slice_eq_slice fun _ _ => getElem?_overwrite_of_lt h (by omega)

/-- **A part behind** the one that is written. -/
theorem slice_overwrite_of_ge (h : i + src.length ≤ dst.length) (hj : i + src.length ≤ j) :
    slice (overwrite dst i src) j n = slice dst j n :=
  slice_eq_slice fun _ _ => getElem?_overwrite_of_ge h (by omega)

/-- **A part of** the one that is written. -/
theorem slice_overwrite_of_mem (h : i + src.length ≤ dst.length) (hn : j + n ≤ src.length) :
    slice (overwrite dst i src) (i + j) n = slice src j n := by
  refine slice_eq_slice fun k hk => ?_
  rw [Nat.add_assoc]
  exact getElem?_overwrite_of_mem h (by omega)

theorem slice_overwrite_self (h : i + src.length ≤ dst.length) :
    slice (overwrite dst i src) i src.length = src := by
  have hself := slice_overwrite_of_mem (j := 0) (n := src.length) h (by omega)
  rw [Nat.add_zero] at hself
  rw [hself, slice, drop_zero, take_length]

theorem slice_drop (k : ℕ) : slice (block.drop k) i n = slice block (k + i) n := by
  rw [slice, drop_drop, slice]

theorem drop_overwrite {k : ℕ} (hk : k ≤ i) (hi : i ≤ dst.length) :
    (overwrite dst i src).drop k = overwrite (dst.drop k) (i - k) src := by
  rw [overwrite, overwrite, List.append_assoc, drop_append_of_le_length, drop_take,
    List.append_assoc, drop_drop]
  · congr 3
    omega
  · rw [length_take_of_le hi]
    exact hk

/-! ### Parts of a block -/

theorem slice_append_of_le (after : List β) (h : i + n ≤ block.length) :
    slice (block ++ after) i n = slice block i n := by
  rw [slice, slice, drop_append_of_le_length (by omega), take_append_of_le_length]
  rw [length_drop]
  omega

theorem slice_append (before part after : List β) :
    slice (before ++ (part ++ after)) before.length part.length = part := by
  rw [slice, drop_left, take_left]

/-- **The part in the middle** is written. -/
theorem overwrite_append (before after : List β) {part part' : List β}
    (h : part'.length = part.length) :
    overwrite (before ++ (part ++ after)) before.length part' = before ++ (part' ++ after) := by
  rw [overwrite, take_left, h, ← length_append, ← List.append_assoc before part after,
    drop_left, List.append_assoc]

end

/-! ### Integers as bytes -/

/-- The `n` low bytes of an integer, the lowest first. -/
def bytesOfInt : ℕ → ℤ → List UInt8
  | 0, _     => []
  | n + 1, v => UInt8.ofNat (v % 256).toNat :: bytesOfInt n (v / 256)

/-- Bytes as a natural number, the lowest first. -/
def natOfBytes : List UInt8 → ℕ
  | []      => 0
  | b :: bs => b.toNat + 256 * natOfBytes bs

/-- Bytes as a signed integer. -/
def intOfBytes (bs : List UInt8) : ℤ := Int.bmod (natOfBytes bs) (256 ^ bs.length)

@[simp] theorem length_bytesOfInt (n : ℕ) : ∀ v, (bytesOfInt n v).length = n := by
  induction n with
  | zero => exact fun _ => rfl
  | succ n ih => exact fun v => congrArg (· + 1) (ih (v / 256))

theorem natOfBytes_bytesOfInt (n : ℕ) : ∀ v : ℤ, (natOfBytes (bytesOfInt n v) : ℤ) = v % 256 ^ n := by
  induction n with
  | zero =>
    intro v
    rw [bytesOfInt, natOfBytes, pow_zero, emod_one]
    rfl
  | succ n ih =>
    intro v
    have hbyte : (UInt8.ofNat (v % 256).toNat).toNat = (v % 256).toNat := by
      rw [UInt8.toNat_ofNat', Nat.mod_eq_of_lt (by omega)]
    rw [bytesOfInt, natOfBytes, hbyte]
    push_cast
    rw [ih, toNat_of_nonneg (by omega), pow_succ', emod_def v 256,
      emod_def (v / 256), emod_def v, ediv_ediv_of_nonneg (by omega)]
    ring

theorem natOfBytes_bytesOfNat {n v : ℕ} (h : v < 256 ^ n) : natOfBytes (bytesOfInt n v) = v := by
  have hcast := natOfBytes_bytesOfInt n v
  rw [← Nat.cast_ofNat, ← Nat.cast_pow, ← natCast_mod, Nat.mod_eq_of_lt h] at hcast
  exact_mod_cast hcast

/-- **An integer that fits into `n` bytes** is read back. -/
theorem intOfBytes_bytesOfInt {n : ℕ} {v : ℤ} (hn : 0 < n) (hlo : -(2 ^ (8 * n - 1)) ≤ v)
    (hhi : v < 2 ^ (8 * n - 1)) : intOfBytes (bytesOfInt n v) = v := by
  have hpow : ((256 ^ n : ℕ) : ℤ) = 2 * 2 ^ (8 * n - 1) := by
    rw [← pow_succ', show 8 * n - 1 + 1 = 8 * n by omega, pow_mul]
    norm_num
  rw [intOfBytes, length_bytesOfInt, natOfBytes_bytesOfInt]
  have hcast : (256 : ℤ) ^ n = ((256 ^ n : ℕ) : ℤ) := by push_cast; rfl
  rw [hcast, emod_bmod]
  refine bmod_eq_of_le_mul_two ?_ ?_ <;> rw [hpow] <;> omega

end SourceLibs.Memory
