import SourceLibs.DynamicBitset.BlockRange
import SourceLibs.DynamicBitset.Search

/-!
# DynamicBitset — text

The constructor from a string, `to_string`, and `bit_appender`, through which the stream extraction
puts in one digit after the other at the least significant end.  A `size_type` has `S` bits; a
string is shorter than `npos`.

* `initFromString_reads`: the bits of the constructor, for any part of a string.
* `Appended.doAppend`: a digit goes in below the bits there are, in the order of the blocks reversed.
* `destroy_reads`: what the destructor of the appender makes of the blocks.
* `textForms_agree`: the three forms agree.
-/

namespace SourceLibs.DynamicBitset
open List Option

open Blocks

variable {w : ℕ}

/-! ### The source -/

/-- A turn of the loop of `init_from_string`; `none` when the character is not a digit. -/
def setDigit (s : List Char) (pos m : ℕ) (b : DynamicBitset w) (i : ℕ) :
    Option (DynamicBitset w) :=
  (s[pos + m - 1 - i]?).bind fun c =>
    if c = '1' ∨ c = '0' then if c = '1' then b.set i true else some b else Option.none

/-- `init_from_string` on an object without blocks. -/
def initFromString (w S : ℕ) (s : List Char) (pos n numBits : ℕ) : Option (DynamicBitset w) :=
  if pos ≤ s.length then
    let rlen := min n (s.length - pos)
    let sz := if numBits ≠ npos S then numBits else rlen
    let b : DynamicBitset w := ⟨vectorResize [] (calcNumBlocks w sz) 0, sz⟩
    let m := if numBits < rlen then numBits else rlen
    (List.range m).foldlM (setDigit s pos m) b
  else Option.none

def toStringHelper (b : DynamicBitset w) (dumpAll : Bool) : List Char :=
  let len := if dumpAll then w * b.numBlocks else b.numBits
  (List.range len).foldl (fun s i => if b.mUncheckedTest i then s.set (len - 1 - i) '1' else s)
    (List.replicate len '0')

/-- `bit_appender`: the set, the count, the mask and the block it points to. -/
structure BitAppender (w : ℕ) where
  bs : DynamicBitset w
  n : ℕ
  mask : BitVec w
  current : Option ℕ
  deriving DecidableEq, Repr

/-- The constructor of `bit_appender`. -/
def BitAppender.start (r : DynamicBitset w) : BitAppender w := ⟨r, 0, 0, Option.none⟩

/-- `if (mask == 0) { … }`: a new block, and its highest bit. -/
def BitAppender.nextBlock (a : BitAppender w) : Option (BitAppender w) :=
  if a.mask = 0 then
    (a.bs.append 0).map fun bs => ⟨bs, a.n, 1#w <<< (w - 1), some (bs.numBlocks - 1)⟩
  else some a

/-- `do_append`: a bit below those before. -/
def BitAppender.doAppend (a : BitAppender w) (value : Bool) : Option (BitAppender w) :=
  a.nextBlock.bind fun a =>
    (if value then a.current.map fun i => a.bs.bits.set i (block a.bs.bits i ||| a.mask)
      else some a.bs.bits).map fun bits =>
    ⟨⟨bits, a.bs.numBits⟩, a.n + 1, BitVec.ofNat w (a.mask.toNat / 2), a.current⟩

/-- The destructor of `bit_appender`. -/
def BitAppender.destroy (a : BitAppender w) : Option (DynamicBitset w) :=
  let bs : DynamicBitset w := ⟨a.bs.bits.reverse, a.bs.numBits⟩
  let offs := a.n % w
  let bs := if offs ≠ 0 then bs.shiftRight (w - offs) else bs
  (bs.resize a.n false).bind fun bs => if bs.mCheckInvariants then some bs else Option.none

/-- The digits of a string through the appender, into an empty set. -/
def readDigits (w : ℕ) (s : List Char) : Option (DynamicBitset w) :=
  (s.foldlM (fun a c => BitAppender.doAppend a (c = '1')) (BitAppender.start ⟨[], 0⟩)).bind
    BitAppender.destroy

/-! ### Digits -/

/-- A digit of the text. -/
def IsDigit (c : Char) : Prop := c = '1' ∨ c = '0'

/-- The bits the digits stand for, the first one highest. -/
def digitBit (d : List Char) (i : ℕ) : Bool := d[d.length - 1 - i]? = some '1'

variable {b : DynamicBitset w} {a : BitAppender w} {d : List Char}

theorem Reads.unique {n : ℕ} {f : ℕ → Bool} {c : DynamicBitset w} (hb : b.Reads n f)
    (hc : c.Reads n f) : b = c := by
  obtain ⟨bits, numBits⟩ := b
  obtain ⟨bits', numBits'⟩ := c
  obtain ⟨rfl, hlen, hbit⟩ := hb
  obtain ⟨hn, hlen', hbit'⟩ := hc
  simp only at hn
  subst hn
  have heq : bits = bits' := ext_of_bit (hlen.trans hlen'.symm) fun i => (hbit i).trans (hbit' i).symm
  rw [heq]

theorem resized_reads (n : ℕ) :
    Reads (⟨vectorResize [] (calcNumBlocks w n) 0, n⟩ : DynamicBitset w) n fun _ => false := by
  rw [vectorResize, take_nil, nil_append, length_nil, Nat.sub_zero]
  exact ofSize_reads n

/-! ### The constructor -/

/-- **The loop** sets the bits of the digits, the last one first. -/
theorem setDigits_reads (hw : 0 < w) {s : List Char} {pos m sz : ℕ} (hm : pos + m ≤ s.length)
    (hdigits : ∀ c ∈ (s.drop pos).take m, IsDigit c) (hsz : m ≤ sz) {b : DynamicBitset w}
    (hb : b.Reads sz fun _ => false) (j : ℕ) (hj : j ≤ m) :
    ∃ b', (List.range j).foldlM (setDigit s pos m) b = some b' ∧
      b'.Reads sz fun i => decide (i < j) && digitBit ((s.drop pos).take m) i := by
  induction j with
  | zero => exact ⟨b, rfl, hb.congr fun i _ => by simp⟩
  | succ j ih =>
    obtain ⟨b₁, hb₁, hr₁⟩ := ih (by omega)
    have hlen : ((s.drop pos).take m).length = m := by
      rw [length_take, length_drop]
      omega
    have hin : pos + m - 1 - j < s.length := by omega
    have hget : ((s.drop pos).take m)[m - 1 - j]? = some s[pos + m - 1 - j] := by
      rw [List.getElem?_take_of_lt (by omega), List.getElem?_drop,
        show pos + (m - 1 - j) = pos + m - 1 - j by omega, List.getElem?_eq_getElem hin]
    have hdigit : s[pos + m - 1 - j] = '1' ∨ s[pos + m - 1 - j] = '0' :=
      hdigits _ (mem_of_getElem? hget)
    rw [range_succ, foldlM_append, hb₁]
    simp only [bind_eq_bind, bind_some, foldlM_cons, foldlM_nil]
    rw [setDigit, List.getElem?_eq_getElem hin, bind_some, if_pos hdigit]
    have hnew : digitBit ((s.drop pos).take m) j = decide (s[pos + m - 1 - j] = '1') := by
      rw [digitBit, hlen, hget]
      simp
    by_cases hone : s[pos + m - 1 - j] = '1'
    · obtain ⟨b', hb', hr'⟩ := hr₁.valid.set_reads hw (show j < b₁.numBits by
        rw [hr₁.numBits_eq]
        omega) true
      rw [hr₁.numBits_eq] at hr'
      refine ⟨b', by rw [if_pos hone, hb']; rfl, hr'.congr fun i hi => ?_⟩
      by_cases hij : i = j
      · subst hij
        simp [hnew, hone]
      · rw [if_neg hij, hr₁.bit_eq, decide_eq_true hi, Bool.true_and]
        congr 1
        rw [decide_eq_decide]
        omega
    · refine ⟨b₁, by rw [if_neg hone]; rfl, hr₁.congr fun i hi => ?_⟩
      by_cases hij : i = j
      · subst hij
        simp [hnew, hone]
      · congr 1
        rw [decide_eq_decide]
        omega

/-- The characters the constructor uses. -/
def used (s : List Char) (pos n numBits : ℕ) : List Char :=
  (s.drop pos).take (min numBits (min n (s.length - pos)))

/-- **The constructor** from a part of a string. -/
theorem initFromString_reads (hw : 0 < w) {S : ℕ} {s : List Char} {pos : ℕ} (hpos : pos ≤ s.length)
    (n numBits : ℕ) (hdigits : ∀ c ∈ used s pos n numBits, IsDigit c) :
    ∃ b, initFromString w S s pos n numBits = some b ∧
      b.Reads (if numBits ≠ npos S then numBits else min n (s.length - pos)) fun i =>
        decide (i < (used s pos n numBits).length) && digitBit (used s pos n numBits) i := by
  have hm : (if numBits < min n (s.length - pos) then numBits else min n (s.length - pos)) =
      min numBits (min n (s.length - pos)) := by
    split <;> omega
  have hlen : (used s pos n numBits).length = min numBits (min n (s.length - pos)) := by
    rw [used, length_take, length_drop]
    omega
  have hstart := resized_reads (w := w)
    (if numBits ≠ npos S then numBits else min n (s.length - pos))
  obtain ⟨b, hb, hr⟩ := setDigits_reads hw
    (show pos + min numBits (min n (s.length - pos)) ≤ s.length by omega) hdigits
    (by split <;> omega) hstart _ (Nat.le_refl _)
  refine ⟨b, ?_, by rw [hlen]; exact hr⟩
  rw [initFromString, if_pos hpos]
  simp only
  rw [hm]
  exact hb

/-! ### The appender -/

theorem calcNumBlocks_succ (hw : 0 < w) (n : ℕ) : calcNumBlocks w (n + 1) = n / w + 1 := by
  have hlt : ∀ q, q < calcNumBlocks w (n + 1) ↔ q < n / w + 1 := fun q => by
    rw [lt_calcNumBlocks hw, Nat.lt_succ_iff, Nat.lt_succ_iff, Nat.le_div_iff_mul_le hw,
      Nat.mul_comm]
  exact Nat.le_antisymm (Nat.le_of_not_lt fun h => lt_irrefl _ ((hlt _).mp h))
    (Nat.le_of_not_lt fun h => lt_irrefl _ ((hlt _).mpr h))

theorem calcNumBlocks_mul (hw : 0 < w) (q : ℕ) : calcNumBlocks w (w * q) = q := by
  rw [calcNumBlocks_of_full (Nat.mul_mod_right w q), Nat.mul_div_cancel_left _ hw]

/-- The bits of the digits while they go in: each block filled from its highest bit down. -/
def filling (w : ℕ) (d : List Char) (i : ℕ) : Bool := d[i / w * w + (w - 1 - i % w)]? = some '1'

/-- The appender after the digits `d`, with `k` blocks. -/
structure Holding (a : BitAppender w) (d : List Char) (k : ℕ) : Prop where
  n_eq : a.n = d.length
  reads : a.bs.Reads (w * k) (filling w d)

/-- The appender between two digits. -/
structure Appended (a : BitAppender w) (d : List Char) : Prop extends
    Holding a d (calcNumBlocks w d.length) where
  mask_eq : a.mask.toNat = if d.length % w = 0 then 0 else 2 ^ (w - 1 - d.length % w)
  current_eq : d.length % w ≠ 0 → a.current = some (d.length / w)

/-- The appender with a place for the next digit. -/
structure Ready (a : BitAppender w) (d : List Char) : Prop extends
    Holding a d (d.length / w + 1) where
  mask_eq : a.mask.toNat = 2 ^ (w - 1 - d.length % w)
  current_eq : a.current = some (d.length / w)

theorem appended_start (w : ℕ) : Appended (BitAppender.start (⟨[], 0⟩ : DynamicBitset w)) [] := by
  refine ⟨⟨rfl, ?_⟩, by simp [BitAppender.start], fun h => absurd (Nat.zero_mod w) h⟩
  have hz : calcNumBlocks w ([] : List Char).length = 0 := by simp [calcNumBlocks]
  rw [hz, Nat.mul_zero]
  refine ⟨rfl, by simp [calcNumBlocks, BitAppender.start], fun i => ?_⟩
  rw [bit_of_ge (by simp [BitAppender.start])]
  simp

theorem Appended.nextBlock (hw : 0 < w) (h : Appended a d) :
    ∃ a', a.nextBlock = some a' ∧ Ready a' d := by
  have hdm := Nat.div_add_mod d.length w
  rw [BitAppender.nextBlock]
  by_cases hfull : d.length % w = 0
  · have hmask : a.mask = 0 := by
      have hm := h.mask_eq
      rw [if_pos hfull] at hm
      exact BitVec.eq_of_toNat_eq (by simpa using hm)
    have hreads := h.reads
    rw [calcNumBlocks_of_full hfull] at hreads
    obtain ⟨bs, hbs, hr⟩ := hreads.valid.append_reads hw (0 : BitVec w)
    rw [hreads.numBits_eq, ← Nat.mul_succ] at hr
    have hlen : bs.numBlocks = d.length / w + 1 := by
      rw [numBlocks, hr.length_eq, calcNumBlocks_mul hw]
    refine ⟨⟨bs, a.n, 1#w <<< (w - 1), some (bs.numBlocks - 1)⟩, by rw [if_pos hmask, hbs]; rfl,
      ⟨⟨h.n_eq, hr.congr fun i hi => ?_⟩, ?_, by rw [hlen]; rfl⟩⟩
    · have hi := Nat.div_add_mod' i w
      by_cases hlow : i < w * (d.length / w)
      · rw [if_pos hlow, hreads.bit_eq, decide_eq_true hlow, Bool.true_and]
      · -- past the digits
        have hq : d.length / w ≤ i / w := (Nat.le_div_iff_mul_le hw).mpr (by rw [Nat.mul_comm]; omega)
        have hmul := Nat.mul_le_mul_right w hq
        have hpast : d.length ≤ i / w * w + (w - 1 - i % w) := by
          rw [Nat.mul_comm] at hdm
          omega
        rw [if_neg hlow, filling, List.getElem?_eq_none hpast]
        simp
    · have htwo : 1 < 2 ^ w := Nat.one_lt_two_pow (by omega)
      have hlt : 2 ^ (w - 1) < 2 ^ w := Nat.pow_lt_pow_right (by decide) (by omega)
      rw [BitVec.toNat_shiftLeft, Nat.shiftLeft_eq, BitVec.toNat_ofNat, hfull, Nat.sub_zero,
        Nat.mod_eq_of_lt htwo, Nat.one_mul, Nat.mod_eq_of_lt hlt]
  · have hmask : a.mask ≠ 0 := by
      intro hz
      have hm := h.mask_eq
      rw [if_neg hfull, hz] at hm
      have hpos := Nat.two_pow_pos (w - 1 - d.length % w)
      simp only [BitVec.ofNat_eq_ofNat, BitVec.toNat_ofNat, Nat.zero_mod] at hm
      omega
    have hreads := h.reads
    rw [calcNumBlocks_of_extra hfull] at hreads
    have hm := h.mask_eq
    rw [if_neg hfull] at hm
    exact ⟨a, if_neg hmask, ⟨⟨h.n_eq, hreads⟩, hm, h.current_eq hfull⟩⟩

theorem place_div_mod (hw : 0 < w) (j : ℕ) :
    (w * (j / w) + (w - 1 - j % w)) / w = j / w ∧
      (w * (j / w) + (w - 1 - j % w)) % w = w - 1 - j % w :=
  mul_add_div_mod (by omega)

theorem filling_append (hw : 0 < w) (d : List Char) (c : Char) (i : ℕ)
    (hi : i < w * (d.length / w + 1)) :
    filling w (d ++ [c]) i =
      if i = w * (d.length / w) + (w - 1 - d.length % w) then decide (c = '1') else filling w d i := by
  obtain ⟨h₁, h₂⟩ := place_div_mod hw d.length
  have hdm := Nat.div_add_mod d.length w
  have hmod := Nat.mod_lt d.length hw
  have hidm := Nat.div_add_mod i w
  have himod := Nat.mod_lt i hw
  have hq : i / w ≤ d.length / w := Nat.lt_succ_iff.mp ((Nat.div_lt_iff_lt_mul hw).mpr (by
    rw [Nat.mul_comm]
    exact hi))
  rw [filling, Nat.mul_comm]
  by_cases he : i = w * (d.length / w) + (w - 1 - d.length % w)
  · have hplace : w * (i / w) + (w - 1 - i % w) = d.length := by
      rw [he, h₁, h₂]
      omega
    rw [if_pos he, hplace, List.getElem?_append_right (Nat.le_refl _), Nat.sub_self]
    simp
  · have hne : w * (i / w) + (w - 1 - i % w) ≠ d.length := by
      intro heq
      have hplace := place_div_mod hw i
      rw [heq] at hplace
      rw [hplace.1, hplace.2] at he
      omega
    rw [if_neg he, filling, Nat.mul_comm (i / w)]
    rcases Nat.lt_or_gt_of_ne hne with hlt | hgt
    · rw [List.getElem?_append_left hlt]
    · rw [List.getElem?_append_right (by omega), List.getElem?_eq_none (by simp; omega),
        List.getElem?_eq_none (by omega)]

/-- The position after one more digit, in the same block or at the start of the next. -/
theorem succ_div_mod (hw : 0 < w) (n : ℕ) :
    (n % w + 1 = w ∧ (n + 1) % w = 0) ∨
      ((n + 1) % w = n % w + 1 ∧ (n + 1) / w = n / w ∧ n % w + 1 < w) := by
  have hdm := Nat.div_add_mod n w
  have hmod := Nat.mod_lt n hw
  rcases Nat.lt_or_ge (n % w + 1) w with hlt | hge
  · have hsplit : n + 1 = w * (n / w) + (n % w + 1) := by omega
    obtain ⟨h₁, h₂⟩ := mul_add_div_mod (q := n / w) hlt
    rw [← hsplit] at h₁ h₂
    exact .inr ⟨h₂, h₁, hlt⟩
  · have hfull : n + 1 = w * (n / w + 1) := by
      rw [Nat.mul_succ]
      omega
    exact .inl ⟨by omega, by rw [hfull, Nat.mul_mod_right]⟩

/-- The mask moves down and the count up; it remains to write the bit. -/
theorem Ready.advance (hw : 0 < w) (h : Ready a d) (c : Char) {bits : List (BitVec w)}
    (hbits : Reads ⟨bits, a.bs.numBits⟩ (w * (d.length / w + 1)) (filling w (d ++ [c]))) :
    Appended ⟨⟨bits, a.bs.numBits⟩, a.n + 1, BitVec.ofNat w (a.mask.toNat / 2), a.current⟩
      (d ++ [c]) := by
  have hlen : (d ++ [c]).length = d.length + 1 := by simp
  have hsize : calcNumBlocks w (d ++ [c]).length = d.length / w + 1 := by
    rw [hlen, calcNumBlocks_succ hw]
  have hmask : (BitVec.ofNat w (a.mask.toNat / 2)).toNat = 2 ^ (w - 1 - d.length % w) / 2 := by
    have hlt := a.mask.isLt
    rw [BitVec.toNat_ofNat, Nat.mod_eq_of_lt (by omega), h.mask_eq]
  refine ⟨⟨by rw [hlen, ← h.n_eq], by rw [hsize]; exact hbits⟩, ?_, ?_⟩
  · rw [hmask, hlen]
    rcases succ_div_mod hw d.length with ⟨hfull, hz⟩ | ⟨hmod, -, hlt⟩
    · rw [if_pos hz, show w - 1 - d.length % w = 0 by omega]
      rfl
    · rw [if_neg (by omega), hmod,
        show w - 1 - d.length % w = w - 1 - (d.length % w + 1) + 1 by omega, Nat.pow_succ,
        Nat.mul_div_cancel _ (by decide)]
  · rw [hlen, h.current_eq]
    intro hne
    rcases succ_div_mod hw d.length with ⟨-, hz⟩ | ⟨-, hdiv, -⟩
    · exact absurd hz hne
    · rw [hdiv]

/-- **A digit** goes in below the bits there are, as the blocks will be read in reverse. -/
theorem Appended.doAppend (hw : 0 < w) (h : Appended a d) (c : Char) :
    ∃ a', a.doAppend (c = '1') = some a' ∧ Appended a' (d ++ [c]) := by
  obtain ⟨a₁, hrun, hr⟩ := h.nextBlock hw
  obtain ⟨hdiv, hmodpos⟩ := place_div_mod hw d.length
  have hpos : w * (d.length / w) + (w - 1 - d.length % w) < w * (d.length / w + 1) := by
    rw [Nat.mul_succ]
    omega
  have hfill : ∀ i < w * (d.length / w + 1), filling w (d ++ [c]) i =
      if i = w * (d.length / w) + (w - 1 - d.length % w) then decide (c = '1')
      else bit a₁.bs.bits i := fun i hi => by
    rw [filling_append hw d c i hi, hr.reads.bit_eq, decide_eq_true hi, Bool.true_and]
  by_cases hone : c = '1'
  · have hmask : ∀ t, a₁.mask.getLsbD t = decide (t = w - 1 - d.length % w) := fun t => by
      rw [BitVec.getLsbD, hr.mask_eq, Nat.testBit_two_pow, decide_eq_decide]
      omega
    have hset : Reads ⟨a₁.bs.bits.set (d.length / w) (block a₁.bs.bits (d.length / w) ||| a₁.mask),
        a₁.bs.numBits⟩ (w * (d.length / w + 1)) fun i =>
          if i = w * (d.length / w) + (w - 1 - d.length % w) then true else bit a₁.bs.bits i := by
      rw [← hr.reads.numBits_eq] at hpos ⊢
      have hwrite := hr.reads.valid.setBlock_reads hw hpos (v := true)
        (x := block a₁.bs.bits (d.length / w) ||| a₁.mask) fun t ht => by
          rw [BitVec.getLsbD_or, hmask, hmodpos, hdiv]
          split <;> simp [*]
      rwa [hdiv] at hwrite
    refine ⟨_, ?_, hr.advance hw c (hset.congr fun i hi => ?_)⟩
    · rw [BitAppender.doAppend, hrun, bind_some, decide_eq_true hone, if_pos rfl,
        hr.current_eq]
      rfl
    · rw [hfill i hi, decide_eq_true hone]
  · have hzero : filling w d (w * (d.length / w) + (w - 1 - d.length % w)) = false := by
      have hdm := Nat.div_add_mod d.length w
      have hmod := Nat.mod_lt d.length hw
      rw [filling, hdiv, hmodpos, Nat.mul_comm, List.getElem?_eq_none (by omega)]
      simp
    refine ⟨_, ?_, hr.advance hw c (hr.reads.congr fun i hi => ?_)⟩
    · rw [BitAppender.doAppend, hrun, bind_some, decide_eq_false hone]
      rfl
    · rw [hfill i hi, hr.reads.bit_eq, decide_eq_true hi, Bool.true_and, decide_eq_false hone]
      split
      · rename_i he
        rw [he, hzero]
      · rfl

theorem Appended.foldlM (hw : 0 < w) (s : List Char) (h : Appended a d) :
    ∃ a', s.foldlM (fun a c => BitAppender.doAppend a (c = '1')) a = some a' ∧
      Appended a' (d ++ s) := by
  induction s generalizing a d with
  | nil => exact ⟨a, rfl, by rwa [append_nil]⟩
  | cons c s ih =>
    obtain ⟨a₁, hrun, h₁⟩ := h.doAppend hw c
    obtain ⟨a', hrun', h'⟩ := ih h₁
    rw [List.append_assoc, singleton_append] at h'
    exact ⟨a', by rw [foldlM_cons, hrun]; exact hrun', h'⟩

theorem block_reverse {bits : List (BitVec w)} {q : ℕ} (hq : q < bits.length) :
    block bits.reverse q = block bits (bits.length - 1 - q) := by
  rw [block_eq_getElem (by rwa [length_reverse]), List.getElem_reverse, block_eq_getElem]

/-- **The destructor** puts the last digit at position zero: the blocks come in reverse order, and
the shift takes out what the last block has too much. -/
theorem Appended.destroy_reads (hw : 0 < w) (h : Appended a d) :
    ∃ b, a.destroy = some b ∧ b.Reads d.length (digitBit d) := by
  obtain ⟨k, hk⟩ : ∃ k, k = calcNumBlocks w d.length := ⟨_, rfl⟩
  have hreads := h.reads
  rw [← hk] at hreads
  have hlen : a.bs.bits.length = k := by
    rw [hreads.length_eq, calcNumBlocks_mul hw]
  have hdm := Nat.div_add_mod d.length w
  have hmod := Nat.mod_lt d.length hw
  -- how many bits the blocks have too many
  have hextra : w * k = d.length + if d.length % w ≠ 0 then w - d.length % w else 0 := by
    rw [hk]
    by_cases hz : d.length % w = 0
    · rw [calcNumBlocks_of_full hz, if_neg (by omega)]
      omega
    · rw [calcNumBlocks_of_extra hz, if_pos hz, Nat.mul_succ]
      omega
  have hrev : Reads ⟨a.bs.bits.reverse, a.bs.numBits⟩ (w * k) fun i =>
      decide (d[w * k - 1 - i]? = some '1') := by
    refine ⟨hreads.numBits_eq, by rw [length_reverse]; exact hreads.length_eq, fun i => ?_⟩
    by_cases hi : i < w * k
    · have hidm := Nat.div_add_mod i w
      have himod := Nat.mod_lt i hw
      have hq : i / w < k := (Nat.div_lt_iff_lt_mul hw).mpr (by rwa [Nat.mul_comm])
      have hmulq : w * k = w * (k - 1 - i / w) + w * (i / w) + w := by
        rw [← Nat.mul_add, ← Nat.mul_succ]
        congr 1
        omega
      have hin : w * (k - 1 - i / w) + i % w < w * k := by omega
      rw [bit, block_reverse (by rwa [hlen]), hlen, ← bit_mul_add _ himod, hreads.bit_eq,
        decide_eq_true hin, decide_eq_true hi, filling]
      obtain ⟨h₁, h₂⟩ := mul_add_div_mod (q := k - 1 - i / w) himod
      rw [h₁, h₂, Nat.mul_comm (k - 1 - i / w)]
      have hplace : w * (k - 1 - i / w) + (w - 1 - i % w) = w * k - 1 - i := by omega
      rw [hplace]
    · rw [bit_of_ge (by rw [length_reverse, hlen]; omega), decide_eq_false hi, Bool.false_and]
  -- the shift
  obtain ⟨bs, hbs⟩ : ∃ bs, bs = if a.n % w ≠ 0 then
      shiftRight ⟨a.bs.bits.reverse, a.bs.numBits⟩ (w - a.n % w)
      else (⟨a.bs.bits.reverse, a.bs.numBits⟩ : DynamicBitset w) := ⟨_, rfl⟩
  have hshift : bs.Reads (w * k) fun i => decide (i < d.length) && digitBit d i := by
    by_cases hz : d.length % w = 0
    · rw [if_neg (not_not.mpr hz), Nat.add_zero] at hextra
      rw [hbs, h.n_eq, if_neg (not_not.mpr hz)]
      refine hrev.congr fun i hi => ?_
      rw [digitBit, hextra, decide_eq_true (show i < d.length by omega), Bool.true_and]
    · rw [if_pos hz] at hextra
      have hr := hrev.valid.shiftRight_reads hw (w - d.length % w)
      rw [hbs, h.n_eq, if_pos hz]
      rw [show w * k = a.bs.numBits from hreads.numBits_eq.symm]
      refine hr.congr fun i hi => ?_
      rw [hrev.bit_eq, digitBit]
      by_cases hin : i < d.length
      · rw [decide_eq_true hin, decide_eq_true (by omega),
          show w * k - 1 - (i + (w - d.length % w)) = d.length - 1 - i by omega]
      · rw [decide_eq_false hin, decide_eq_false (by omega), Bool.false_and, Bool.false_and]
  obtain ⟨b, hb, hr⟩ := hshift.valid.resize_reads hw d.length false
  refine ⟨b, ?_, hr.congr fun i hi => ?_⟩
  · rw [BitAppender.destroy, ← hbs, h.n_eq, hb, bind_some, if_pos ((mCheckInvariants_iff hw).mpr hr.valid)]
  · rw [if_pos (by rw [hshift.numBits_eq]; omega), hshift.bit_eq, decide_eq_true (by omega),
      decide_eq_true hi]
    simp

/-! ### The text of a set -/

/-- The loop of `to_string_helper`: the characters of the positions passed are written. -/
theorem getElem?_toString (b : DynamicBitset w) (len j : ℕ) (hj : j ≤ len) (p : ℕ) :
    ((List.range j).foldl (fun s i => if b.mUncheckedTest i then s.set (len - 1 - i) '1' else s)
      (List.replicate len '0'))[p]? =
      if p < len then some (if len - 1 - p < j ∧ bit b.bits (len - 1 - p) = true then '1' else '0')
      else Option.none := by
  induction j with
  | zero => simp [List.getElem?_replicate]
  | succ j ih =>
    have ih := ih (by omega)
    rw [range_succ, foldl_append, foldl_cons, foldl_nil, mUncheckedTest_eq]
    generalize (List.range j).foldl
      (fun s i => if b.mUncheckedTest i then s.set (len - 1 - i) '1' else s)
      (List.replicate len '0') = l at ih ⊢
    by_cases hp : p < len
    · rw [if_pos hp] at ih ⊢
      have hin := (List.getElem?_eq_some_iff.mp ih).1
      by_cases hpj : len - 1 - p = j
      · rw [hpj] at ih ⊢
        by_cases hbit : bit b.bits j = true
        · rw [if_pos hbit, List.getElem?_set, if_pos (by omega), if_pos (by omega),
            if_pos ⟨by omega, hbit⟩]
        · rw [if_neg hbit, ih, if_neg fun h => hbit h.2, if_neg fun h => hbit h.2]
      · have hkeep : (if bit b.bits j = true then l.set (len - 1 - j) '1' else l)[p]? = l[p]? := by
          split
          · exact List.getElem?_set_ne (by omega)
          · rfl
        have hiff : len - 1 - p < j + 1 ↔ len - 1 - p < j := by omega
        rw [hkeep, ih]
        simp only [hiff]
    · rw [if_neg hp] at ih ⊢
      split
      · rw [List.getElem?_set_ne (by omega), ih]
      · exact ih

/-- **`to_string`** writes the highest bit first. -/
theorem getElem?_toStringHelper (b : DynamicBitset w) (p : ℕ) :
    (b.toStringHelper false)[p]? = if p < b.numBits then
      some (if bit b.bits (b.numBits - 1 - p) = true then '1' else '0') else Option.none := by
  have hget := getElem?_toString b b.numBits b.numBits (Nat.le_refl _) p
  rw [toStringHelper]
  simp only [Bool.false_eq_true, if_false]
  rw [hget]
  by_cases hp : p < b.numBits
  · simp [hp, show b.numBits - 1 - p < b.numBits by omega]
  · simp [hp]

theorem length_toStringHelper (b : DynamicBitset w) :
    (b.toStringHelper false).length = b.numBits := by
  have hge := getElem?_toStringHelper b b.numBits
  rw [if_neg (Nat.lt_irrefl _), List.getElem?_eq_none_iff] at hge
  rcases Nat.eq_zero_or_pos b.numBits with hz | hpos
  · omega
  · have hlt := getElem?_toStringHelper b (b.numBits - 1)
    rw [if_pos (by omega)] at hlt
    have hin := (List.getElem?_eq_some_iff.mp hlt).1
    omega

theorem digitBit_toStringHelper (b : DynamicBitset w) {i : ℕ} (hi : i < b.numBits) :
    digitBit (b.toStringHelper false) i = bit b.bits i := by
  rw [digitBit, length_toStringHelper, getElem?_toStringHelper, if_pos (by omega),
    show b.numBits - 1 - (b.numBits - 1 - i) = i by omega]
  cases bit b.bits i <;> simp

theorem isDigit_toStringHelper (b : DynamicBitset w) : ∀ c ∈ b.toStringHelper false, IsDigit c := by
  intro c hc
  obtain ⟨p, hp⟩ := mem_iff_getElem?.mp hc
  rw [getElem?_toStringHelper] at hp
  split at hp
  · cases hp
    split
    · exact .inl rfl
    · exact .inr rfl
  · cases hp

/-! ### The forms agree -/

theorem used_all {S : ℕ} {s : List Char} (hs : s.length < npos S) :
    used s 0 (npos S) (npos S) = s := by
  rw [used, drop_zero]
  exact take_of_length_le (by omega)

theorem initFromString_all_reads (hw : 0 < w) {S : ℕ} {s : List Char} (hs : s.length < npos S)
    (hdigits : ∀ c ∈ s, IsDigit c) :
    ∃ b, initFromString w S s 0 (npos S) (npos S) = some b ∧ b.Reads s.length (digitBit s) := by
  obtain ⟨b, hb, hr⟩ := initFromString_reads (S := S) hw (Nat.zero_le _) (npos S) (npos S)
    (by rwa [used_all hs])
  rw [used_all hs, if_neg (by simp), show min (npos S) (s.length - 0) = s.length by omega] at hr
  exact ⟨b, hb, hr.congr fun i hi => by rw [decide_eq_true hi, Bool.true_and]⟩

/-- **The text forms agree**, for every block width.  Constructing from what `to_string` wrote gives
the set back; the digits of any string give through the appender the set the constructor makes of
the string, and its invariant holds; and the constructor from a part of a string uses exactly the
first characters of that part, the last of them as bit zero, with zeros above. -/
theorem textForms_agree (hw : 0 < w) (S : ℕ) :
    (∀ b : DynamicBitset w, b.mCheckInvariants = true → b.numBits < npos S →
      initFromString w S (b.toStringHelper false) 0 (npos S) (npos S) = some b) ∧
    (∀ s : List Char, s.length < npos S → (∀ c ∈ s, IsDigit c) →
      ∃ b, initFromString w S s 0 (npos S) (npos S) = some b ∧ readDigits w s = some b ∧
        b.mCheckInvariants = true) ∧
    ∀ (s : List Char) (pos n numBits : ℕ), s.length < npos S → pos ≤ s.length →
      (∀ c ∈ (s.drop pos).take (min numBits (min n (s.length - pos))), IsDigit c) →
      ∃ b, initFromString w S s pos n numBits = some b ∧ b.mCheckInvariants = true ∧
        b.numBits = (if numBits ≠ npos S then numBits else min n (s.length - pos)) ∧
        ∀ i < b.numBits, b.test i =
          some (if i < min numBits (min n (s.length - pos)) then
            decide (s[pos + min numBits (min n (s.length - pos)) - 1 - i]? = some '1')
          else false) := by
  refine ⟨fun b hb hsize => ?_, fun s hs hdigits => ?_, fun s pos n numBits hs hpos hdigits => ?_⟩
  · have h := (mCheckInvariants_iff hw).mp hb
    rw [← length_toStringHelper] at hsize
    obtain ⟨b', hb', hr⟩ := initFromString_all_reads hw hsize (isDigit_toStringHelper b)
    rw [length_toStringHelper] at hr
    rw [hb', (hr.congr fun i hi => digitBit_toStringHelper b hi).unique h.reads]
  · obtain ⟨b, hb, hr⟩ := initFromString_all_reads hw hs hdigits
    obtain ⟨a, ha, happ⟩ := (appended_start w).foldlM hw s
    rw [nil_append] at happ
    obtain ⟨b', hb', hr'⟩ := happ.destroy_reads hw
    refine ⟨b, hb, ?_, (mCheckInvariants_iff hw).mpr hr.valid⟩
    rw [readDigits, ha, bind_some, hb', hr.unique hr']
  · obtain ⟨b, hb, hr⟩ := initFromString_reads (S := S) hw hpos n numBits hdigits
    refine ⟨b, hb, (mCheckInvariants_iff hw).mpr hr.valid, hr.numBits_eq, fun i hi => ?_⟩
    have hlen : (used s pos n numBits).length = min numBits (min n (s.length - pos)) := by
      rw [used, length_take, length_drop]
      omega
    have hin : i < if numBits ≠ npos S then numBits else min n (s.length - pos) := by
      rwa [← hr.numBits_eq]
    rw [test_eq_some hi, hr.bit_eq, decide_eq_true hin, Bool.true_and, hlen]
    congr 1
    split
    · rename_i hlt
      rw [decide_eq_true hlt, Bool.true_and, digitBit, hlen, used,
        List.getElem?_take_of_lt (by omega), List.getElem?_drop]
      congr 3
      omega
    · rename_i hge
      rw [decide_eq_false hge, Bool.false_and]

/-- Nine bits in blocks of eight. -/
theorem textForms_agree_nine :
    initFromString 8 64 ((⟨[0xA5#8, 0x1#8], 9⟩ : DynamicBitset 8).toStringHelper false) 0 (npos 64)
      (npos 64) = some ⟨[0xA5#8, 0x1#8], 9⟩ :=
  (textForms_agree (w := 8) (by decide) 64).1 ⟨[0xA5#8, 0x1#8], 9⟩ (by decide) (by decide)

end SourceLibs.DynamicBitset
