import SourceLibs.Support.Blocks

/-!
# Support — counting bits

How many of the first `n` bits of a number, or of a list of blocks, are set.

* `ones_add`: the bits below a cut and those above it.
* `ones_of_lt`: nothing is counted past the number.
* `countP_bit`: the bits of a list of blocks, block by block.
-/

namespace SourceLibs.Blocks
open List Nat

/-- The bits of `N` that are set among the first `n`. -/
def ones (N n : ℕ) : ℕ := (List.range n).countP N.testBit

theorem ones_add (N a n : ℕ) : ones N (a + n) = ones N a + ones (N / 2 ^ a) n := by
  rw [ones, ones, ones, range_add, countP_append, countP_map]
  congr 1
  refine countP_congr fun i _ => ?_
  rw [Function.comp_apply, testBit_div_two_pow, Nat.add_comm]

theorem ones_eight (N : ℕ) : ones N 8 = N % 2 + (N / 2 % 2 + (N / 4 % 2 + (N / 8 % 2 +
    (N / 16 % 2 + (N / 32 % 2 + (N / 64 % 2 + N / 128 % 2)))))) := by
  have hbit : ∀ i, (if N.testBit i = true then 1 else 0) = N / 2 ^ i % 2 := fun i => by
    rw [testBit_eq_decide_div_mod_eq]
    rcases mod_two_eq_zero_or_one (N / 2 ^ i) with h | h <;> simp [h]
  rw [ones, show List.range 8 = [0, 1, 2, 3, 4, 5, 6, 7] from rfl]
  simp only [countP_cons, countP_nil, hbit]
  norm_num
  ring

theorem ones_mod (N a : ℕ) : ones (N % 2 ^ a) a = ones N a := by
  refine countP_congr fun i hi => ?_
  rw [testBit_mod_two_pow, decide_eq_true (mem_range.mp hi), Bool.true_and]

theorem getD_ones {table : List ℕ} (htable : table = (List.range 256).map fun v => v % 2 + (v / 2 % 2 +
    (v / 4 % 2 + (v / 8 % 2 + (v / 16 % 2 + (v / 32 % 2 + (v / 64 % 2 + v / 128 % 2))))))) (N : ℕ) :
    table.getD (N % 256) 0 = ones N 8 := by
  have hlt : N % 256 < 256 := mod_lt _ (by decide)
  rw [← ones_mod N 8, ones_eight, htable, getD_eq_getElem _ _ (by simpa using hlt),
    getElem_map, getElem_range]
  rfl

theorem ones_zero (n : ℕ) : ones 0 n = 0 := by
  rw [ones, countP_eq_zero]
  simp

/-- Past the number there is nothing to count. -/
theorem ones_of_lt {N n : ℕ} (h : N < 2 ^ n) (k : ℕ) : ones N (n + k) = ones N n := by
  rw [ones_add, div_eq_of_lt h, ones_zero, Nat.add_zero]

variable {w : ℕ}

/-- **The bits of a list of blocks**, block by block. -/
theorem countP_bit (hw : 0 < w) (bits : List (BitVec w)) :
    (List.range (w * bits.length)).countP (bit bits) = (bits.map fun x => ones x.toNat w).sum := by
  induction bits with
  | nil => simp
  | cons x bits ih =>
    rw [length_cons, Nat.mul_succ, Nat.add_comm, range_add, countP_append,
      countP_map, map_cons, sum_cons, ← ih]
    congr 1
    · refine countP_congr fun t ht => ?_
      have hlt := mem_range.mp ht
      rw [bit, div_eq_of_lt hlt, mod_eq_of_lt hlt]
      rfl
    · refine countP_congr fun t _ => ?_
      rw [Function.comp_apply, bit, bit, add_div_left _ hw, add_mod_left]
      rfl

theorem countP_range_of_false {f : ℕ → Bool} {n m : ℕ} (hnm : n ≤ m)
    (h : ∀ i, n ≤ i → f i = false) : (List.range m).countP f = (List.range n).countP f := by
  obtain ⟨k, rfl⟩ := Nat.exists_eq_add_of_le hnm
  rw [range_add, countP_append, countP_map, Nat.add_eq_left, countP_eq_zero]
  intro i _
  simp [h]

end SourceLibs.Blocks
