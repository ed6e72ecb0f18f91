import SourceLibs.DynamicBitset.Bitset
import SourceLibs.Support.Runs

/-!
# DynamicBitset — refinement

A `dynamic_bitset` is a list of bools, the least significant bit first (`toList`).  The mutators are
collected in `Op`; `Op.apply` runs the code and `Op.spec` says what the operation does to the list,
`none` when its precondition does not hold.

* `Op.apply_refines`: one operation keeps the invariant and does what `Op.spec` says.
* `runOps_refines`: so does every sequence of operations.
* `any_iff`, `all_iff`, `isSubsetOf_eq`, `isProperSubsetOf_eq`, `intersects_iff`, `equal_iff`,
  `less_eq`: the queries, from the blocks to the bits.
* `dynamicBitset_refines`: both together.
-/

namespace SourceLibs.DynamicBitset
open List BitVec

open Blocks

variable {w : ℕ}

/-! ### The list of a set -/

/-- The bits, by `test`. -/
def toList (b : DynamicBitset w) : List Bool := (List.range b.numBits).map b.mUncheckedTest

variable {b : DynamicBitset w}

theorem mUncheckedTest_eq (b : DynamicBitset w) (i : ℕ) : b.mUncheckedTest i = bit b.bits i := by
  rw [Bool.eq_iff_iff, mUncheckedTest, decide_eq_true_iff, bitMask, and_shift_ne_zero, bit]

theorem length_toList (b : DynamicBitset w) : b.toList.length = b.numBits := by
  rw [toList, length_map, length_range]

theorem getElem?_toList (b : DynamicBitset w) {i : ℕ} (hi : i < b.numBits) :
    b.toList[i]? = some (bit b.bits i) := by
  simp [toList, hi, mUncheckedTest_eq]

theorem Reads.toList_eq {n : ℕ} {f : ℕ → Bool} (h : b.Reads n f) {l : List Bool}
    (hlen : l.length = n) (hget : ∀ i < n, l[i]? = some (f i)) : b.toList = l := by
  refine ext_getElem? fun i => ?_
  by_cases hi : i < n
  · rw [getElem?_toList b (by rw [h.numBits_eq]; exact hi), hget i hi, h.bit_eq, decide_eq_true hi,
      Bool.true_and]
  · rw [List.getElem?_eq_none (by rw [length_toList, h.numBits_eq]; omega),
      List.getElem?_eq_none (by omega)]

/-! ### Operations -/

/-- The mutators. -/
inductive Op (w : ℕ) where
  | resize (n : ℕ) (value : Bool)
  | pushBack (bit : Bool)
  | popBack
  | append (value : BitVec w)
  | set (pos : ℕ) (val : Bool)
  | setAll
  | reset (pos : ℕ)
  | resetAll
  | flip (pos : ℕ)
  | flipAll
  | andAssign (rhs : DynamicBitset w)
  | orAssign (rhs : DynamicBitset w)
  | xorAssign (rhs : DynamicBitset w)
  | subAssign (rhs : DynamicBitset w)
  | shiftLeft (n : ℕ)
  | shiftRight (n : ℕ)

/-- The code of an operation. -/
def Op.apply (b : DynamicBitset w) : Op w → Option (DynamicBitset w)
  | resize n value => b.resize n value
  | pushBack bit => b.pushBack bit
  | popBack => b.popBack
  | append value => b.append value
  | set pos val => b.set pos val
  | setAll => b.setAll
  | reset pos => b.reset pos
  | resetAll => some b.resetAll
  | flip pos => b.flip pos
  | flipAll => b.flipAll
  | andAssign rhs => b.andAssign rhs
  | orAssign rhs => b.orAssign rhs
  | xorAssign rhs => b.xorAssign rhs
  | subAssign rhs => b.subAssign rhs
  | shiftLeft n => b.shiftLeft n
  | shiftRight n => some (b.shiftRight n)

/-- Bit by bit with a valid set of the same size. -/
def zipBits (g : Bool → Bool → Bool) (rhs : DynamicBitset w) (l : List Bool) :
    Option (List Bool) :=
  if rhs.mCheckInvariants = true ∧ l.length = rhs.numBits then some (List.zipWith g l rhs.toList)
  else Option.none

/-- What an operation is for. -/
def Op.spec (l : List Bool) : Op w → Option (List Bool)
  | resize n value => some (l.take n ++ List.replicate (n - l.length) value)
  | pushBack bit => some (l ++ [bit])
  | popBack => if l.length = 0 then Option.none else some l.dropLast
  | append value => some (l ++ (List.range w).map value.getLsbD)
  | set pos val => if pos < l.length then some (l.set pos val) else Option.none
  | setAll => some (List.replicate l.length true)
  | reset pos => if pos < l.length then some (l.set pos false) else Option.none
  | resetAll => some (List.replicate l.length false)
  | flip pos => if pos < l.length then some (l.modify pos not) else Option.none
  | flipAll => some (l.map not)
  | andAssign rhs => zipBits (fun x y => x && y) rhs l
  | orAssign rhs => zipBits (fun x y => x || y) rhs l
  | xorAssign rhs => zipBits (fun x y => x ^^ y) rhs l
  | subAssign rhs => zipBits (fun x y => x && !y) rhs l
  | shiftLeft n => some ((List.replicate n false ++ l).take l.length)
  | shiftRight n => some (l.drop n ++ List.replicate (min n l.length) false)

theorem Valid.assignBlocks_refines (hw : 0 < w) (h : b.Valid) {rhs : DynamicBitset w}
    {op : BitVec w → BitVec w → BitVec w} {g : Bool → Bool → Bool} (hg : g false false = false)
    (hop : ∀ x y : BitVec w, ∀ t < w, (op x y).getLsbD t = g (x.getLsbD t) (y.getLsbD t))
    {l : List Bool} (hs : zipBits g rhs b.toList = some l) :
    ∃ b', b.assignBlocks op rhs = some b' ∧ b'.Valid ∧ b'.toList = l := by
  unfold zipBits at hs
  split at hs
  · rename_i hpre
    obtain ⟨hinv, hsize⟩ := hpre
    rw [length_toList] at hsize
    obtain ⟨b', hb', hr⟩ :=
      h.assignBlocks_reads hw ((mCheckInvariants_iff hw).mp hinv) hsize hg hop
    refine ⟨b', hb', hr.valid, ?_⟩
    cases hs
    refine hr.toList_eq ?_ fun i hi => ?_
    · rw [length_zipWith, length_toList, length_toList, ← hsize, Nat.min_self]
    · rw [List.getElem?_zipWith, getElem?_toList b hi, getElem?_toList rhs (hsize ▸ hi)]
  · cases hs

/-- One bit is written. -/
theorem Reads.toList_set {b' : DynamicBitset w} {pos : ℕ} {v : Bool}
    (h : b'.Reads b.numBits fun i => if i = pos then v else bit b.bits i) :
    b'.toList = b.toList.set pos v := by
  refine h.toList_eq (by rw [length_set, length_toList]) fun i hi => ?_
  rw [List.getElem?_set, length_toList, getElem?_toList b hi]
  by_cases he : pos = i
  · simp [he, hi]
  · simp [he, Ne.symm he]

/-- **One operation** whose precondition holds returns, keeps the invariant and does to the list
what it is for. -/
theorem Op.apply_refines (hw : 0 < w) (h : b.Valid) (op : Op w) {l : List Bool}
    (hs : op.spec b.toList = some l) :
    ∃ b', op.apply b = some b' ∧ b'.Valid ∧ b'.toList = l := by
  have hlen := length_toList b
  have hget : ∀ i < b.numBits, b.toList[i]? = some (bit b.bits i) := fun i hi => getElem?_toList b hi
  cases op with
  | resize n v =>
    cases hs
    obtain ⟨b', hb', hr⟩ := h.resize_reads hw n v
    refine ⟨b', hb', hr.valid, hr.toList_eq (by simp [hlen]; omega) fun i hi => ?_⟩
    rw [List.getElem?_append, length_take, hlen]
    by_cases hlt : i < b.numBits
    · simp [hi, hlt, hget]
    · simp [hlt, show i - min n b.numBits < n - b.numBits by omega]
  | pushBack v =>
    cases hs
    obtain ⟨b', hb', hr⟩ := h.pushBack_reads hw v
    refine ⟨b', hb', hr.valid, hr.toList_eq (by simp [hlen]) fun i hi => ?_⟩
    rw [List.getElem?_append, hlen]
    by_cases hlt : i < b.numBits
    · simp [hlt, hget]
    · simp [hlt, show i - b.numBits = 0 by omega]
  | popBack =>
    simp only [spec, hlen] at hs
    split at hs
    · cases hs
    · cases hs
      obtain ⟨b', hb', hr⟩ := h.popBack_reads hw (by omega)
      refine ⟨b', hb', hr.valid, hr.toList_eq (by simp [hlen]) fun i hi => ?_⟩
      rw [dropLast_eq_take, hlen, List.getElem?_take_of_lt hi, hget i (by omega)]
  | append x =>
    cases hs
    obtain ⟨b', hb', hr⟩ := h.append_reads hw x
    refine ⟨b', hb', hr.valid, hr.toList_eq (by simp [hlen]) fun i hi => ?_⟩
    rw [List.getElem?_append, hlen]
    by_cases hlt : i < b.numBits
    · simp [hlt, hget]
    · simp [hlt, show i - b.numBits < w by omega]
  | set pos v =>
    simp only [spec, hlen] at hs
    split at hs
    · rename_i hpos
      cases hs
      obtain ⟨b', hb', hr⟩ := h.set_reads hw hpos v
      exact ⟨b', hb', hr.valid, hr.toList_set⟩
    · cases hs
  | setAll =>
    cases hs
    obtain ⟨b', hb', hr⟩ := h.setAll_reads hw
    refine ⟨b', hb', hr.valid, hr.toList_eq (by simp [hlen]) fun i hi => ?_⟩
    simp [hlen, hi]
  | reset pos =>
    simp only [spec, hlen] at hs
    split at hs
    · rename_i hpos
      cases hs
      obtain ⟨b', hb', hr⟩ := h.reset_reads hw hpos
      exact ⟨b', hb', hr.valid, hr.toList_set⟩
    · cases hs
  | resetAll =>
    cases hs
    refine ⟨b.resetAll, rfl, h.resetAll_reads.valid, ?_⟩
    exact h.resetAll_reads.toList_eq (by simp [hlen]) fun i hi => by simp [hlen, hi]
  | flip pos =>
    simp only [spec, hlen] at hs
    split at hs
    · rename_i hpos
      cases hs
      obtain ⟨b', hb', hr⟩ := h.flip_reads hw hpos
      refine ⟨b', hb', hr.valid, hr.toList_eq (by simp [hlen]) fun i hi => ?_⟩
      rw [List.getElem?_modify, hget i hi]
      by_cases he : pos = i
      · simp [he]
      · simp [he, Ne.symm he]
    · cases hs
  | flipAll =>
    cases hs
    obtain ⟨b', hb', hr⟩ := h.flipAll_reads hw
    refine ⟨b', hb', hr.valid, hr.toList_eq (by simp [hlen]) fun i hi => ?_⟩
    rw [List.getElem?_map, hget i hi]
    rfl
  | andAssign rhs =>
    exact h.assignBlocks_refines hw rfl (fun x y t _ => getLsbD_and) hs
  | orAssign rhs =>
    exact h.assignBlocks_refines hw rfl (fun x y t _ => getLsbD_or) hs
  | xorAssign rhs =>
    exact h.assignBlocks_refines hw rfl (fun x y t _ => getLsbD_xor) hs
  | subAssign rhs =>
    have hop : ∀ x y : BitVec w, ∀ t < w,
        (x &&& ~~~y).getLsbD t = (x.getLsbD t && !y.getLsbD t) := fun x y t ht => by simp [ht]
    exact h.assignBlocks_refines hw rfl hop hs
  | shiftLeft n =>
    cases hs
    obtain ⟨b', hb', hr⟩ := h.shiftLeft_reads hw n
    refine ⟨b', hb', hr.valid, hr.toList_eq (by simp [hlen]) fun i hi => ?_⟩
    rw [hlen, List.getElem?_take_of_lt hi, List.getElem?_append, length_replicate]
    by_cases hlt : i < n
    · simp [hlt]
    · simp [hlt, hget (i - n) (by omega)]
      omega
  | shiftRight n =>
    cases hs
    have hr := h.shiftRight_reads hw n
    refine ⟨b.shiftRight n, rfl, hr.valid, hr.toList_eq (by simp [hlen]; omega) fun i hi => ?_⟩
    rw [List.getElem?_append, length_drop, hlen, List.getElem?_drop]
    by_cases hlt : i < b.numBits - n
    · rw [if_pos hlt, hget (n + i) (by omega), Nat.add_comm]
    · rw [if_neg hlt, h.unused (i + n) (by omega), List.getElem?_replicate, if_pos (by omega)]

/-- A sequence of operations. -/
def runOps (b : DynamicBitset w) (ops : List (Op w)) : Option (DynamicBitset w) :=
  ops.foldlM Op.apply b

/-- What the sequence is for. -/
def specOps (l : List Bool) (ops : List (Op w)) : Option (List Bool) := ops.foldlM Op.spec l

/-- **Every sequence** of operations whose preconditions hold. -/
theorem runOps_refines (hw : 0 < w) (h : b.Valid) (ops : List (Op w)) {l : List Bool}
    (hs : specOps b.toList ops = some l) :
    ∃ b', b.runOps ops = some b' ∧ b'.Valid ∧ b'.toList = l := by
  refine Runs.foldlM_simulates (f := Op.apply) (R := fun b l => b.Valid ∧ b.toList = l)
    (P := fun _ _ => True) ?_ ⟨h, rfl⟩ trivial hs
  rintro b l op rest l' ⟨h, rfl⟩ - hs
  obtain ⟨b', hb', hv, hl⟩ := op.apply_refines hw h hs
  exact ⟨b', hb', ⟨hv, hl⟩, trivial⟩

/-! ### Queries -/

variable {a c : DynamicBitset w}

theorem test_eq_getElem? (b : DynamicBitset w) (i : ℕ) : b.test i = b.toList[i]? := by
  unfold test
  by_cases hi : i < b.numBits
  · simp [hi, getElem?_toList, mUncheckedTest_eq]
  · simp [hi, length_toList]

theorem test_eq_some {i : ℕ} (hi : i < b.numBits) : b.test i = some (bit b.bits i) := by
  rw [test_eq_getElem?, getElem?_toList b hi]

theorem Valid.test_eq_true_iff (h : b.Valid) {i : ℕ} :
    b.test i = some true ↔ bit b.bits i = true := by
  by_cases hi : i < b.numBits
  · rw [test_eq_some hi, Option.some.injEq]
  · simp [test, hi, h.unused i (by omega)]

theorem Valid.any_iff (hw : 0 < w) (h : b.Valid) : b.any = true ↔ ∃ i, b.test i = some true := by
  have hbits := forall_block_iff_forall_bit hw b.bits b.bits (fun x _ => x = false)
    (k := b.numBlocks) fun q t hq => by rw [block_of_ge hq]; exact getLsbD_zero
  rw [← not_iff_not]
  simp only [h.test_eq_true_iff, not_exists, Bool.not_eq_true]
  rw [← hbits]
  simp [any, eq_zero_iff_getLsbD]

theorem Valid.none_iff (hw : 0 < w) (h : b.Valid) :
    b.none = true ↔ ∀ i < b.numBits, b.test i = some false := by
  rw [none, Bool.not_eq_true', ← Bool.not_eq_true, h.any_iff hw, not_exists]
  constructor
  · intro hn i hi
    have := hn i
    rw [test_eq_some hi] at this ⊢
    simpa using this
  · intro hf i ht
    have hi : i < b.numBits := Nat.lt_of_not_le fun hge => by simp [test, Nat.not_lt.mpr hge] at ht
    simp [hf i hi] at ht

/-- `all`: the full blocks are full, and the last one as far as it is used. -/
theorem Valid.all_iff (hw : 0 < w) (h : b.Valid) :
    b.all = true ↔ ∀ i < b.numBits, b.test i = some true := by
  have htest : (∀ i < b.numBits, b.test i = some true) ↔
      ∀ i < b.numBits, bit b.bits i = true :=
    forall₂_congr fun i hi => by rw [test_eq_some hi, Option.some.injEq]
  have hones : ∀ x : BitVec w, x = ~~~(0#w) ↔ ∀ t < w, x.getLsbD t = true := fun x => by
    constructor
    · rintro rfl t ht
      simp [ht]
    · intro hx
      exact eq_of_getLsbD_eq fun t ht => by simp [hx t ht, ht]
  rw [htest, forall_bit_lt_iff hw b.bits (fun x => x = true)]
  unfold all
  split
  · rename_i hemp
    have h0 : b.numBits = 0 := by simpa [empty] using hemp
    simp [h0]
  split
  · rename_i hex
    have hlen : b.numBlocks = b.numBits / w := h.length_eq.trans (calcNumBlocks_of_full hex)
    have hex : b.numBits % w = 0 := hex
    simp only [List.all_eq_true, mem_range, decide_eq_true_eq, hones, hlen, hex]
    simp
  · rename_i hex
    have hlen : b.numBlocks - 1 = b.numBits / w := by
      rw [show b.numBlocks = b.numBits / w + 1 from h.length_eq.trans (calcNumBlocks_of_extra hex),
        Nat.add_sub_cancel]
    simp only [Bool.and_eq_true, List.all_eq_true, mem_range, decide_eq_true_eq, hones, hlen,
      highestBlock, countExtraBits]
    refine and_congr_right fun _ => ?_
    constructor
    · intro he t ht
      have htw := ht.trans (Nat.mod_lt b.numBits hw)
      rw [he, getLsbD_not, getLsbD_unusedMask htw, decide_eq_true htw,
        decide_eq_false (by omega)]
      rfl
    · intro ht
      refine eq_of_getLsbD_eq fun t htw => ?_
      rw [getLsbD_not, getLsbD_unusedMask htw]
      by_cases hlt : t < b.numBits % w
      · rw [ht t hlt, decide_eq_true htw, decide_eq_false (by omega)]
        rfl
      · -- past the last bit
        have hn := Nat.div_add_mod b.numBits w
        rw [← bit_mul_add _ htw, h.unused _ (by omega)]
        simp [Nat.le_of_not_lt hlt]

theorem forall_block_subset_iff (hw : 0 < w) (a c : DynamicBitset w) :
    (∀ q < a.numBlocks, block a.bits q &&& ~~~(block c.bits q) = 0) ↔
      ∀ i, bit a.bits i = true → bit c.bits i = true := by
  have hbits := forall_block_iff_forall_bit hw a.bits c.bits (fun x y => x = true → y = true)
    (k := a.numBlocks) fun q t hq hx => by
      rw [block_of_ge hq] at hx
      cases getLsbD_zero.symm.trans hx
  rw [← hbits]
  refine forall₂_congr fun q _ => (eq_zero_iff_getLsbD _).trans (forall₂_congr fun t ht => ?_)
  rw [getLsbD_and, getLsbD_not, decide_eq_true ht, Bool.true_and]
  cases (block a.bits q).getLsbD t <;> cases (block c.bits q).getLsbD t <;> decide

theorem Valid.isSubsetOf_eq (hw : 0 < w) (ha : a.Valid) (hc : c.Valid)
    (hsize : a.numBits = c.numBits) :
    ∃ r, a.isSubsetOf c = some r ∧
      (r = true ↔ ∀ i, a.test i = some true → c.test i = some true) := by
  refine ⟨_, by simp only [isSubsetOf, hsize, guard_true]; rfl, ?_⟩
  simp only [ha.test_eq_true_iff, hc.test_eq_true_iff]
  rw [← forall_block_subset_iff hw]
  simp only [List.all_eq_true, mem_range, decide_eq_true_eq]

theorem properLoop_iff (proper : Bool) (i k : ℕ) :
    properLoop a c proper i k = true ↔
      (∀ q, i ≤ q → q < i + k → block a.bits q &&& ~~~(block c.bits q) = 0) ∧
        (proper = true ∨ ∃ q, i ≤ q ∧ q < i + k ∧ block c.bits q &&& ~~~(block a.bits q) ≠ 0) := by
  induction k generalizing proper i with
  | zero =>
    simp only [properLoop]
    constructor
    · intro h
      exact ⟨fun q h₁ h₂ => by omega, .inl h⟩
    · rintro ⟨-, h | ⟨q, h₁, h₂, -⟩⟩
      · exact h
      · omega
  | succ k ih =>
    simp only [properLoop]
    have hsplit : ∀ q, i ≤ q → q < i + (k + 1) → q = i ∨ i + 1 ≤ q ∧ q < i + 1 + k :=
      fun q h₁ h₂ => by omega
    by_cases hsub : block a.bits i &&& ~~~(block c.bits i) = 0
    · rw [if_neg (not_not.mpr hsub), ih]
      constructor
      · rintro ⟨hall, hor⟩
        refine ⟨fun q h₁ h₂ => ?_, ?_⟩
        · rcases hsplit q h₁ h₂ with rfl | ⟨h₁, h₂⟩
          · exact hsub
          · exact hall q h₁ h₂
        · rcases hor with hp | ⟨q, h₁, h₂, hq⟩
          · split at hp
            · rename_i hne
              exact .inr ⟨i, le_rfl, by omega, hne⟩
            · exact .inl hp
          · exact .inr ⟨q, by omega, by omega, hq⟩
      · rintro ⟨hall, hor⟩
        refine ⟨fun q h₁ h₂ => hall q (by omega) (by omega), ?_⟩
        rcases hor with hp | ⟨q, h₁, h₂, hq⟩
        · exact .inl (by rw [hp, ite_self])
        · rcases hsplit q h₁ h₂ with rfl | ⟨h₁, h₂⟩
          · exact .inl (if_pos hq)
          · exact .inr ⟨q, h₁, h₂, hq⟩
    · rw [if_pos hsub]
      refine iff_of_false Bool.false_ne_true fun h => hsub (h.1 i le_rfl (by omega))

theorem Valid.isProperSubsetOf_eq (hw : 0 < w) (ha : a.Valid) (hc : c.Valid)
    (hsize : a.numBits = c.numBits) :
    ∃ r, a.isProperSubsetOf c = some r ∧
      (r = true ↔ (∀ i, a.test i = some true → c.test i = some true) ∧
        ∃ i, c.test i = some true ∧ ¬ a.test i = some true) := by
  have hblocks : a.numBlocks = c.numBlocks := by
    rw [numBlocks, numBlocks, ha.length_eq, hc.length_eq, hsize]
  refine ⟨_, by simp only [isProperSubsetOf, hsize, hblocks, guard_true]; rfl, ?_⟩
  have hnot := (forall_block_subset_iff hw c a).not
  push Not at hnot
  simp only [ha.test_eq_true_iff, hc.test_eq_true_iff]
  rw [← forall_block_subset_iff hw, ← hnot, properLoop_iff, hblocks]
  simp

theorem Valid.intersects_iff (hw : 0 < w) (ha : a.Valid) (hc : c.Valid) :
    a.intersects c = true ↔ ∃ i, a.test i = some true ∧ c.test i = some true := by
  have hcommon : (if a.numBlocks < c.numBlocks then a.numBlocks else c.numBlocks) =
      min a.numBlocks c.numBlocks := by
    split <;> omega
  have hbits := forall_block_iff_forall_bit hw a.bits c.bits (fun x y => ¬ (x = true ∧ y = true))
    (k := min a.numBlocks c.numBlocks) fun q t hq => by
      rcases Nat.le_total a.numBlocks c.numBlocks with hle | hle
      · rw [block_of_ge ((Nat.min_eq_left hle).ge.trans hq)]
        simp
      · rw [show block c.bits q = 0 from block_of_ge ((Nat.min_eq_right hle).ge.trans hq)]
        simp
  rw [← not_iff_not]
  simp only [ha.test_eq_true_iff, hc.test_eq_true_iff, not_exists]
  rw [← hbits, intersects, hcommon]
  simp [eq_zero_iff_getLsbD]

theorem Valid.equal_iff (ha : a.Valid) (hc : c.Valid) :
    a.equal c = true ↔ a.toList = c.toList := by
  rw [equal, Bool.and_eq_true, decide_eq_true_iff, decide_eq_true_iff]
  constructor
  · rintro ⟨hsize, hbits⟩
    refine ha.reads.toList_eq (by rw [length_toList, hsize]) fun i hi => ?_
    rw [getElem?_toList c (hsize ▸ hi), hbits]
  · intro hl
    have hsize : a.numBits = c.numBits := by rw [← length_toList, hl, length_toList]
    refine ⟨hsize, ext_of_bit (by rw [ha.length_eq, hc.length_eq, hsize]) fun i => ?_⟩
    by_cases hi : i < a.numBits
    · rw [← Option.some.injEq, ← getElem?_toList a hi, hl, getElem?_toList c (hsize ▸ hi)]
    · rw [ha.unused i (by omega), hc.unused i (by omega)]

/-- The number a list of bits stands for. -/
def number : List Bool → ℕ
  | [] => 0
  | x :: l => Nat.bit x (number l)

theorem testBit_number (l : List Bool) (i : ℕ) : (number l).testBit i = l.getD i false := by
  induction l generalizing i with
  | nil => simp [number]
  | cons x l ih =>
    cases i with
    | zero => simp [number]
    | succ i => simp [number, Nat.testBit_bit_succ, ih]

theorem Valid.natOf_bits (h : b.Valid) : natOf b.bits = number b.toList := by
  refine Nat.eq_of_testBit_eq fun i => ?_
  rw [testBit_natOf, testBit_number, getD_eq_getElem?_getD]
  by_cases hi : i < b.numBits
  · rw [getElem?_toList b hi, Option.getD_some]
  · rw [List.getElem?_eq_none (by rw [length_toList]; omega), h.unused i (by omega)]
    rfl

theorem lessLoop_eq (k : ℕ) :
    lessLoop a c k = decide (Radix.value (2 ^ w) (fun i => (block a.bits i).toNat) k <
      Radix.value (2 ^ w) (fun i => (block c.bits i).toNat) k) := by
  have htop : ∀ x y : DynamicBitset w, ∀ k, block x.bits k < block y.bits k →
      Radix.value (2 ^ w) (fun i => (block x.bits i).toNat) (k + 1) <
        Radix.value (2 ^ w) (fun i => (block y.bits i).toNat) (k + 1) := fun x y k hlt =>
    Radix.value_lt_of_digit (Nat.lt_succ_self k) (fun j _ => (block x.bits j).isLt)
      (lt_def.mp hlt) fun j h₁ h₂ => by omega
  induction k with
  | zero => simp [lessLoop]
  | succ k ih =>
    rw [lessLoop]
    split
    · rename_i hlt
      exact (decide_eq_true (htop a c k hlt)).symm
    split
    · rename_i hgt
      exact (decide_eq_false (Nat.not_lt.mpr (htop c a k hgt).le)).symm
    · rename_i hge hle
      have he : block a.bits k = block c.bits k :=
        BitVec.le_antisymm (BitVec.not_lt.mp hle) (BitVec.not_lt.mp hge)
      rw [ih, Radix.value_succ, Radix.value_succ, he]
      simp

/-- `operator<`: the order of the numbers. -/
theorem Valid.less_eq (ha : a.Valid) (hc : c.Valid) (hsize : a.numBits = c.numBits) :
    a.less c = some (decide (number a.toList < number c.toList)) := by
  have hblocks : c.bits.length = a.numBlocks := by
    rw [numBlocks, ha.length_eq, hc.length_eq, hsize]
  rw [← ha.natOf_bits, ← hc.natOf_bits, natOf, natOf, hblocks]
  simp only [less, hsize, guard_true, lessLoop_eq]
  rfl

/-! ### The class -/

theorem calcNumBlocks_eq (hw : 0 < w) (n : ℕ) : calcNumBlocks w n = (n + w - 1) / w := by
  have hlt : ∀ q, q < calcNumBlocks w n ↔ q < (n + w - 1) / w := fun q => by
    have hdiv : q < (n + w - 1) / w ↔ (q + 1) * w ≤ n + w - 1 := Nat.le_div_iff_mul_le hw
    rw [lt_calcNumBlocks hw, hdiv, Nat.succ_mul, Nat.mul_comm q]
    omega
  exact Nat.le_antisymm (Nat.le_of_not_lt fun h => lt_irrefl _ ((hlt _).mp h))
    (Nat.le_of_not_lt fun h => lt_irrefl _ ((hlt _).mpr h))

/-- **`dynamic_bitset` is a list of bools.**  Every sequence of operations whose preconditions hold
returns, keeps the invariant and leaves the bits the list operations give; and what the queries
compute on blocks is what they say of the bits. -/
theorem dynamicBitset_refines (hw : 0 < w) :
    (∀ (b : DynamicBitset w) (ops : List (Op w)) (l : List Bool), b.mCheckInvariants = true →
      specOps b.toList ops = some l →
      ∃ b', b.runOps ops = some b' ∧ b'.mCheckInvariants = true ∧
        b'.numBlocks = (b'.numBits + w - 1) / w ∧
        (∀ i, b'.numBits ≤ i → b'.mUncheckedTest i = false) ∧
        b'.numBits = l.length ∧ ∀ i, b'.test i = l[i]?) ∧
    (∀ b : DynamicBitset w, b.mCheckInvariants = true →
      (b.any = true ↔ ∃ i, b.test i = some true) ∧
      (b.all = true ↔ ∀ i < b.numBits, b.test i = some true) ∧
      (b.none = true ↔ ∀ i < b.numBits, b.test i = some false)) ∧
    ∀ a c : DynamicBitset w, a.mCheckInvariants = true → c.mCheckInvariants = true →
      (a.equal c = true ↔ a.numBits = c.numBits ∧ ∀ i, a.test i = c.test i) ∧
      (a.intersects c = true ↔ ∃ i, a.test i = some true ∧ c.test i = some true) ∧
      (a.numBits = c.numBits →
        (∃ r, a.isSubsetOf c = some r ∧
          (r = true ↔ ∀ i, a.test i = some true → c.test i = some true)) ∧
        (∃ r, a.isProperSubsetOf c = some r ∧
          (r = true ↔ (∀ i, a.test i = some true → c.test i = some true) ∧
            ∃ i, c.test i = some true ∧ ¬ a.test i = some true)) ∧
        a.less c = some (decide (number a.toList < number c.toList))) := by
  refine ⟨fun b ops l hinv hs => ?_, fun b hinv => ?_, fun a c hinva hinvc => ?_⟩
  · obtain ⟨b', hb', hv, rfl⟩ := runOps_refines hw ((mCheckInvariants_iff hw).mp hinv) ops hs
    refine ⟨b', hb', (mCheckInvariants_iff hw).mpr hv, ?_, fun i hi => ?_, ?_, fun i => ?_⟩
    · rw [← calcNumBlocks_eq hw]
      exact hv.length_eq
    · rw [mUncheckedTest_eq, hv.unused i hi]
    · exact (length_toList b').symm
    · exact test_eq_getElem? b' i
  · have hv := (mCheckInvariants_iff hw).mp hinv
    exact ⟨hv.any_iff hw, hv.all_iff hw, hv.none_iff hw⟩
  · have ha := (mCheckInvariants_iff hw).mp hinva
    have hc := (mCheckInvariants_iff hw).mp hinvc
    refine ⟨?_, ha.intersects_iff hw hc, fun hsize => ?_⟩
    · rw [ha.equal_iff hc]
      constructor
      · intro hl
        refine ⟨by rw [← length_toList, hl, length_toList], fun i => ?_⟩
        rw [test_eq_getElem?, test_eq_getElem?, hl]
      · rintro ⟨-, ht⟩
        refine ext_getElem? fun i => ?_
        rw [← test_eq_getElem?, ← test_eq_getElem?, ht]
    · exact ⟨ha.isSubsetOf_eq hw hc hsize, ha.isProperSubsetOf_eq hw hc hsize, ha.less_eq hc hsize⟩

/-- Blocks of eight bits: a block appended, a bit, and a shift across the block boundary. -/
theorem dynamicBitset_refines_append_shift :
    (∃ b', runOps (⟨[], 0⟩ : DynamicBitset 8)
        [.append 0xA5#8, .pushBack true, .shiftLeft 3, .resize 11 true] = some b' ∧
      ∀ i, b'.test i = [false, false, false, true, false, true, false, false, true,
        true, true][i]?) ∧
    less (⟨[0x12#8, 0x1#8], 9⟩ : DynamicBitset 8) ⟨[0xA5#8, 0x1#8], 9⟩ = some true := by
  obtain ⟨hrun, -, hpair⟩ := dynamicBitset_refines (w := 8) (by decide)
  obtain ⟨b', hb', -, -, -, -, ht⟩ := hrun ⟨[], 0⟩
    [.append 0xA5#8, .pushBack true, .shiftLeft 3, .resize 11 true]
    [false, false, false, true, false, true, false, false, true, true, true]
    (by decide) (by decide)
  exact ⟨⟨b', hb', ht⟩, ((hpair ⟨[0x12#8, 0x1#8], 9⟩ ⟨[0xA5#8, 0x1#8], 9⟩ (by decide) (by decide)).2.2
    rfl).2.2.trans (by decide)⟩

end SourceLibs.DynamicBitset
