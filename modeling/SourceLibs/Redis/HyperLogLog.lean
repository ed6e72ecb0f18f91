import Mathlib.Data.Int.Basic
import Mathlib.Algebra.Order.Ring.Int
import Mathlib.Logic.Function.Basic
import SourceLibs.Support.RunLength

/-!
# Redis — HyperLogLog objects

`hyperloglog.c`: the sparse encoding, its conversion and its update.  The opcodes are the bytes behind the
header; a byte outside them is not read, and a register outside the array is not written (`none`).  The
array is one of registers, without their packing; of an element there is its hash.

* `opcodesLoop_spec`: the loops that read all opcodes.
* `locate_spec`: the loop that looks for the opcode of a register.
* `sparse_safe_iff`: when a string that is not a sparse encoding is rejected.
-/

namespace SourceLibs.HyperLogLog
open List Option Int RunLength

/-- The registers. -/
def hllRegisters : ℕ := 2 ^ 14

/-- The array of registers. -/
abbrev Registers := Fin hllRegisters → ℕ

/-- What `struct hllhdr` holds apart from the magic and the encoding. -/
structure Header where
  notused : List UInt8
  card : List UInt8

/-- `HLL_INVALIDATE_CACHE`. -/
def Header.invalidate (hdr : Header) : Header := { hdr with card := hdr.card.modify 7 (· ||| 0x80) }

/-- A HyperLogLog object, by its encoding. -/
inductive Hll where
  | sparse (hdr : Header) (opcodes : List UInt8)
  | dense (hdr : Header) (registers : Registers)

/-! ### Opcodes -/

def isZero (b : UInt8) : Prop := b &&& 0xc0 = 0
def isXzero (b : UInt8) : Prop := b &&& 0xc0 = 0x40
def isVal (b : UInt8) : Prop := b &&& 0x80 ≠ 0

instance (b : UInt8) : Decidable (isZero b) := inferInstanceAs (Decidable (_ = _))
instance (b : UInt8) : Decidable (isXzero b) := inferInstanceAs (Decidable (_ = _))
instance (b : UInt8) : Decidable (isVal b) := inferInstanceAs (Decidable (_ ≠ _))

def zeroLen (b : UInt8) : ℕ := (b &&& 0x3f).toNat + 1
def xzeroLen (b c : UInt8) : ℕ := (b &&& 0x3f).toNat * 2 ^ 8 + c.toNat + 1
def valValue (b : UInt8) : ℕ := ((b >>> 2) &&& 0x1f).toNat + 1
def valLen (b : UInt8) : ℕ := (b &&& 0x3).toNat + 1

def valSet (val len : ℕ) : UInt8 := .ofNat ((val - 1) * 2 ^ 2 + (len - 1)) ||| 0x80
def zeroSet (len : ℕ) : List UInt8 := [.ofNat (len - 1)]
def xzeroSet (len : ℕ) : List UInt8 := [.ofNat ((len - 1) / 2 ^ 8) ||| 0x40, .ofNat (len - 1)]

section

variable {R : Type*} (add : ℤ → ℕ → Option ℤ) (put : R → ℤ → ℕ → Option R)

/-- The loop over a run of registers that are set. -/
def setRun (value : ℕ) : ℕ → R → ℤ → Option (R × ℤ)
  | 0, r, i => some (r, i)
  | n + 1, r, i =>
    match put r i value with
    | none => none
    | some r => setRun value n r (i + 1)

/-- The loop of `hllSparseToDense` and of `hllMerge`: `add` counts registers that are zero, `put` sets
one. -/
def opcodesLoop : List UInt8 → R → ℤ → Option (R × ℤ)
  | [], r, i => some (r, i)
  | b :: p, r, i =>
    if isZero b then
      match add i (zeroLen b) with
      | none => none
      | some i => opcodesLoop p r i
    else if isXzero b then
      match p with
      | [] => none
      | c :: p =>
        match add i (xzeroLen b c) with
        | none => none
        | some i => opcodesLoop p r i
    else
      match setRun put (valValue b) (valLen b) r i with
      | none => none
      | some (r, i) => opcodesLoop p r i

end

/-- `idx += runlen`, which does not overflow. -/
def addInt (i : ℤ) (n : ℕ) : Option ℤ := if i + n < 2 ^ 31 then some (i + n) else none

/-- `i += runlen`, where `runlen` is a `long`: the sum is converted to `int`. -/
def addLong (i : ℤ) (n : ℕ) : Option ℤ := some (Int.bmod (i + n) (2 ^ 32))

/-- `HLL_DENSE_SET_REGISTER`. -/
def setRegister (r : Registers) (i : ℤ) (val : ℕ) : Option Registers :=
  if h : 0 ≤ i ∧ i.toNat < hllRegisters then some (Function.update r ⟨i.toNat, h.2⟩ val) else none

/-- The larger of a register and `val`. -/
def maxRegister (r : Registers) (i : ℤ) (val : ℕ) : Option Registers :=
  if h : 0 ≤ i ∧ i.toNat < hllRegisters then
    some (if val > r ⟨i.toNat, h.2⟩ then Function.update r ⟨i.toNat, h.2⟩ val else r)
  else none

/-- `hllSparseToDense`: whether it is `C_OK`, and the object. -/
def hllSparseToDense : Hll → Option (Bool × Hll)
  | .dense hdr registers => some (true, .dense hdr registers)
  | .sparse hdr opcodes =>
    match opcodesLoop addInt setRegister opcodes (fun _ => 0) 0 with
    | none => none
    | some (registers, idx) =>
      if idx ≠ hllRegisters then some (false, .sparse hdr opcodes)
      else some (true, .dense hdr registers)

/-- `hllMerge`: whether it is `C_OK`, and the array `max`. -/
def hllMerge (max : Registers) : Hll → Option (Bool × Registers)
  | .dense _ registers => some (true, fun i => Max.max (registers i) (max i))
  | .sparse _ opcodes =>
    match opcodesLoop addLong maxRegister opcodes max 0 with
    | none => none
    | some (max, i) => some (decide (i = hllRegisters), max)

/-! ### Adding an element -/

/-- The loop of `hllPatLen`, which ends at bit 63. -/
def patLoop (hash : ℕ) : ℕ → ℕ → ℕ → ℕ
  | 0, _, count => count
  | fuel + 1, bit, count => if hash.testBit bit then count else patLoop hash fuel (bit + 1) (count + 1)

/-- `hllPatLen`: the count and the index of the register. -/
def hllPatLen (hash : UInt64) : ℕ × Fin hllRegisters :=
  (patLoop (hash.toNat ||| 2 ^ 63) 50 14 1, ⟨hash.toNat % hllRegisters, Nat.mod_lt _ (by decide)⟩)

/-- `hllDenseAdd`: what it returns, and the registers. -/
def hllDenseAdd (registers : Registers) (hash : UInt64) : ℤ × Registers :=
  let (count, index) := hllPatLen hash
  if count > registers index then (1, Function.update registers index count) else (0, registers)

/-- The loop of `hllSparseAdd`: `p`, `first`, `span` and `prev`. -/
def locate (index : ℕ) : List UInt8 → ℕ → ℕ → ℕ → Option ℕ → Option (ℕ × ℕ × ℕ × Option ℕ)
  | [], p, first, span, prev => some (p, first, span, prev)
  | b :: s, p, first, _, prev =>
    if isZero b then
      if index ≤ first + zeroLen b - 1 then some (p, first, zeroLen b, prev)
      else locate index s (p + 1) (first + zeroLen b) (zeroLen b) (some p)
    else if isVal b then
      if index ≤ first + valLen b - 1 then some (p, first, valLen b, prev)
      else locate index s (p + 1) (first + valLen b) (valLen b) (some p)
    else
      match s with
      | [] => none
      | c :: s =>
        if index ≤ first + xzeroLen b c - 1 then some (p, first, xzeroLen b c, prev)
        else locate index s (p + 2) (first + xzeroLen b c) (xzeroLen b c) (some p)

/-- A gap of zeroes in the new sequence. -/
def gap (len : ℕ) : List UInt8 := if len > 64 then xzeroSet len else zeroSet len

/-- The new sequence for a `ZERO` or an `XZERO`. -/
def splitZero (count index first last : ℕ) : List UInt8 :=
  (if index ≠ first then gap (index - first) else []) ++ [valSet count 1] ++
    if index ≠ last then gap (last - index) else []

/-- The new sequence for a `VAL`. -/
def splitVal (curval count index first last : ℕ) : List UInt8 :=
  (if index ≠ first then [valSet curval (index - first)] else []) ++ [valSet count 1] ++
    if index ≠ last then [valSet curval (last - index)] else []

/-- The loop that merges adjacent `VAL` opcodes. -/
def mergeLoop : ℕ → List UInt8 → ℕ → List UInt8
  | 0, s, _ => s
  | scanlen + 1, s, p =>
    match s.drop p with
    | [] => s
    | b :: rest =>
      if isXzero b then mergeLoop scanlen s (p + 2)
      else if isZero b then mergeLoop scanlen s (p + 1)
      else
        match rest with
        | [] => mergeLoop scanlen s (p + 1)
        | c :: _ =>
          if isVal c ∧ valValue b = valValue c ∧ valLen b + valLen c ≤ 4 then
            mergeLoop scanlen
              (s.take p ++ valSet (valValue b) (valLen b + valLen c) :: s.drop (p + 2)) p
          else mergeLoop scanlen s (p + 1)

/-- What `hllSparseAdd` finds to do: it returns -1 or 0, goes to `updated`, or to `promote`. -/
inductive Plan where
  | invalid
  | same
  | updated (opcodes : List UInt8) (prev : Option ℕ)
  | promote

/-- The new sequence in the place of the old one, unless the string gets too long. -/
def substitute (maxBytes : ℕ) (s seq : List UInt8) (p oldlen : ℕ) (prev : Option ℕ) : Plan :=
  if seq.length > oldlen ∧ 16 + s.length + (seq.length - oldlen) > maxBytes then .promote
  else .updated (s.take p ++ seq ++ s.drop (p + oldlen)) prev

/-- `hllSparseAdd`, up to `updated` and `promote`; `maxBytes` is `server.hll_sparse_max_bytes`. -/
def plan (maxBytes count index : ℕ) (s : List UInt8) : Option Plan :=
  match locate index s 0 0 0 none with
  | none => none
  | some (p, first, span, prev) =>
    if span = 0 then some .invalid
    else
      let last := first + span - 1
      match s.drop p with
      | [] => none
      | b :: rest =>
        if isZero b then
          if zeroLen b = 1 then some (.updated (s.set p (valSet count 1)) prev)
          else some (substitute maxBytes s (splitZero count index first last) p 1 prev)
        else if isXzero b then
          match rest with
          | [] => none
          | _ :: _ => some (substitute maxBytes s (splitZero count index first last) p 2 prev)
        else if valValue b ≥ count then some .same
        else if valLen b = 1 then some (.updated (s.set p (valSet count 1)) prev)
        else some (substitute maxBytes s (splitVal (valValue b) count index first last) p 1 prev)

/-- `hllSparseAdd` from `promote` on. -/
def promote (hash : UInt64) (o : Hll) : Option (ℤ × Hll) :=
  match hllSparseToDense o with
  | none => none
  | some (false, o) => some (-1, o)
  | some (true, .sparse _ _) => none
  | some (true, .dense hdr registers) =>
    let (retval, registers) := hllDenseAdd registers hash
    -- an assertion
    if retval = 1 then some (retval, .dense hdr registers) else none

/-- `hllSparseAdd` of a sparse object: what it returns, and the object. -/
def hllSparseAdd (maxBytes : ℕ) (hash : UInt64) (hdr : Header) (s : List UInt8) :
    Option (ℤ × Hll) :=
  let (count, index) := hllPatLen hash
  if count > 32 then promote hash (.sparse hdr s)
  else
    match plan maxBytes count index s with
    | none => none
    | some .invalid => some (-1, .sparse hdr s)
    | some .same => some (0, .sparse hdr s)
    | some .promote => promote hash (.sparse hdr s)
    | some (.updated s' prev) =>
      some (1, .sparse hdr.invalidate (mergeLoop 5 s' (prev.getD 0)))

/-! ### Runs -/

/-- The opcodes as runs, each a value (0 for `ZERO` and `XZERO`) and a length; an `XZERO` may be cut off
at the end. -/
def runs : List UInt8 → Option (List (ℕ × ℕ))
  | [] => some []
  | b :: p =>
    if isZero b then (runs p).map ((0, zeroLen b) :: ·)
    else if isXzero b then
      match p with
      | [] => none
      | c :: p => (runs p).map ((0, xzeroLen b c) :: ·)
    else (runs p).map ((valValue b, valLen b) :: ·)

/-- **A sparse encoding**: the runs add up to exactly 16384 registers. -/
def Exact (s : List UInt8) : Prop := ∃ rs, runs s = some rs ∧ total rs = hllRegisters

/-- From register `k` on, the count of zeroes stays in `count`, and the registers that are set in
`index`. -/
def Within (index count : ℕ → Prop) : ℕ → List (ℕ × ℕ) → Prop
  | _, [] => True
  | k, (0, n) :: rs => count (k + n) ∧ Within index count (k + n) rs
  | k, (_ + 1, n) :: rs => (∀ j < n, index (k + j)) ∧ Within index count (k + n) rs

section

variable {R : Type*} {add : ℤ → ℕ → Option ℤ} {put : R → ℤ → ℕ → Option R}
variable {conv : ℕ → ℤ} {index count : ℕ → Prop} {write : R → ℕ → ℕ → R}

/-- What the loop computes of registers that are set one after the other. -/
def writeRun (write : R → ℕ → ℕ → R) (value : ℕ) : ℕ → R → ℕ → R
  | 0, r, _ => r
  | n + 1, r, k => writeRun write value n (write r k value) (k + 1)

/-- Runs, written one behind the other. -/
def writeRuns (write : R → ℕ → ℕ → R) : R → ℕ → List (ℕ × ℕ) → R
  | r, _, [] => r
  | r, k, (0, n) :: rs => writeRuns write r (k + n) rs
  | r, k, (v + 1, n) :: rs => writeRuns write (writeRun write (v + 1) n r k) (k + n) rs

/-- `add` and `put` count registers by `conv`, as long as they are in `count` and in `index`. -/
structure Counts (add : ℤ → ℕ → Option ℤ) (put : R → ℤ → ℕ → Option R) (conv : ℕ → ℤ)
    (index count : ℕ → Prop) (write : R → ℕ → ℕ → R) : Prop where
  add_of : ∀ k n, count (k + n) → add (conv k) n = some (conv (k + n))
  add_not : ∀ k n, ¬ count (k + n) → add (conv k) n = none
  put_of : ∀ r k v, index k → put r (conv k) v = some (write r k v)
  put_not : ∀ r k v, ¬ index k → put r (conv k) v = none
  succ : ∀ k, index k → conv k + 1 = conv (k + 1)

theorem setRun_of (h : Counts add put conv index count write) {value : ℕ} (n : ℕ) : ∀ r k,
    (∀ j < n, index (k + j)) →
    setRun put value n r (conv k) = some (writeRun write value n r k, conv (k + n)) := by
  induction n with
  | zero => exact fun r k _ => rfl
  | succ n ih =>
    intro r k hin
    have hk : index k := hin 0 (Nat.succ_pos n)
    rw [setRun, h.put_of r k value hk]
    dsimp only
    rw [h.succ k hk, ih _ (k + 1) fun j hj => ?_, writeRun, Nat.add_right_comm]
    · rfl
    · rw [Nat.add_right_comm]
      exact hin (j + 1) (by omega)

theorem setRun_not (h : Counts add put conv index count write) {value : ℕ} (n : ℕ) : ∀ r k,
    ¬ (∀ j < n, index (k + j)) → setRun put value n r (conv k) = none := by
  induction n with
  | zero => exact fun r k hin => absurd (fun j hj => absurd hj (Nat.not_lt_zero j)) hin
  | succ n ih =>
    intro r k hin
    rw [setRun]
    by_cases hk : index k
    · rw [h.put_of r k value hk]
      dsimp only
      rw [h.succ k hk]
      refine ih _ (k + 1) fun hall => hin fun j hj => ?_
      cases j with
      | zero => exact hk
      | succ j =>
        rw [show k + (j + 1) = k + 1 + j by omega]
        exact hall j (by omega)
    · rw [h.put_not r k value hk]

/-- The loop does what the runs say, or fails if they do not stay within. -/
def Follows (conv : ℕ → ℤ) (index count : ℕ → Prop) (write : R → ℕ → ℕ → R)
    (loop : R → ℤ → Option (R × ℤ)) (o : Option (List (ℕ × ℕ))) : Prop :=
  ∀ r k, (∀ rs, o = some rs → Within index count k rs →
      loop r (conv k) = some (writeRuns write r k rs, conv (k + total rs)))
    ∧ ((∀ rs, o = some rs → ¬ Within index count k rs) → loop r (conv k) = none)

variable {loop loop' : R → ℤ → Option (R × ℤ)} {o : Option (List (ℕ × ℕ))}

theorem Follows.zero (h : Counts add put conv index count write)
    (ho : Follows conv index count write loop o) {n : ℕ}
    (hl : ∀ r i, loop' r i = match add i n with | none => none | some i => loop r i) :
    Follows conv index count write loop' (o.map ((0, n) :: ·)) := by
  intro r k
  rw [hl]
  obtain ⟨hin, hout⟩ := ho r (k + n)
  constructor
  · intro rs hrs hwithin
    obtain ⟨rs', hrs', rfl⟩ := map_eq_some_iff.mp hrs
    obtain ⟨hcount, hrest⟩ := hwithin
    rw [h.add_of k n hcount, total, ← Nat.add_assoc, writeRuns]
    exact hin rs' hrs' hrest
  · intro hnot
    by_cases hcount : count (k + n)
    · rw [h.add_of k n hcount]
      refine hout fun rs' hrs' hrest => hnot ((0, n) :: rs') ?_ ⟨hcount, hrest⟩
      rw [hrs', map_some]
    · rw [h.add_not k n hcount]

/-- A run of registers that are set before others. -/
theorem Follows.val (h : Counts add put conv index count write)
    (ho : Follows conv index count write loop o) {v n : ℕ}
    (hl : ∀ r i, loop' r i =
      match setRun put (v + 1) n r i with | none => none | some (r, i) => loop r i) :
    Follows conv index count write loop' (o.map ((v + 1, n) :: ·)) := by
  intro r k
  rw [hl]
  constructor
  · intro rs hrs hwithin
    obtain ⟨rs', hrs', rfl⟩ := map_eq_some_iff.mp hrs
    obtain ⟨hindex, hrest⟩ := hwithin
    rw [setRun_of h n r k hindex, total, ← Nat.add_assoc, writeRuns]
    exact (ho _ (k + n)).1 rs' hrs' hrest
  · intro hnot
    by_cases hindex : ∀ j < n, index (k + j)
    · rw [setRun_of h n r k hindex]
      refine (ho _ (k + n)).2 fun rs' hrs' hrest => hnot ((v + 1, n) :: rs') ?_ ⟨hindex, hrest⟩
      rw [hrs', map_some]
    · rw [setRun_not h n r k hindex]

/-- **The loop over all opcodes**: the induction is on the string. -/
theorem opcodesLoop_spec (h : Counts add put conv index count write) (s : List UInt8) :
    Follows conv index count write (opcodesLoop add put s) (runs s) := by
  fun_induction runs s with
  | case1 =>
    intro r k
    refine ⟨fun rs hrs _ => ?_, fun hnot => absurd trivial (hnot [] rfl)⟩
    obtain rfl := some.inj hrs
    rfl
  | case2 b p hzero ih =>
    refine ih.zero h fun r i => ?_
    rw [opcodesLoop.eq_def]
    simp only [if_pos hzero]
  | case3 b hzero hxzero =>
    refine fun r k => ⟨nofun, fun _ => ?_⟩
    rw [opcodesLoop, if_neg hzero, if_pos hxzero]
  | case4 b hzero hxzero c p ih =>
    refine ih.zero h fun r i => ?_
    rw [opcodesLoop, if_neg hzero, if_pos hxzero]
  | case5 b p hzero hxzero ih =>
    refine ih.val h fun r i => ?_
    rw [opcodesLoop.eq_def]
    simp only [if_neg hzero, if_neg hxzero]
    rfl

end

/-! ### `hllSparseToDense` and `hllMerge` -/

/-- Setting a register by its number. -/
def writeRegister (f : ℕ → ℕ → ℕ) (r : Registers) (k value : ℕ) : Registers :=
  if h : k < hllRegisters then Function.update r ⟨k, h⟩ (f (r ⟨k, h⟩) value) else r

theorem setRegister_of {r : Registers} {k value : ℕ} {i : ℤ} (hi : i = k) (hk : k < hllRegisters) :
    setRegister r i value = some (writeRegister (fun _ value => value) r k value) := by
  subst hi
  have hin : 0 ≤ (k : ℤ) ∧ (k : ℤ).toNat < hllRegisters := ⟨by omega, by omega⟩
  rw [setRegister, dif_pos hin, writeRegister, dif_pos hk]
  rfl

theorem maxRegister_of {r : Registers} {k value : ℕ} {i : ℤ} (hi : i = k) (hk : k < hllRegisters) :
    maxRegister r i value = some (writeRegister max r k value) := by
  subst hi
  have hin : 0 ≤ (k : ℤ) ∧ (k : ℤ).toNat < hllRegisters := ⟨by omega, by omega⟩
  rw [maxRegister, dif_pos hin, writeRegister, dif_pos hk, some_inj]
  split
  · next h =>
      have hlt : r ⟨k, hk⟩ < value := h
      rw [max_eq_right hlt.le]
      rfl
  · next h =>
      have hle : value ≤ r ⟨k, hk⟩ := not_lt.mp h
      rw [max_eq_left hle]
      exact (Function.update_eq_self _ r).symm

theorem counts_dense : Counts addInt setRegister (fun k => (k : ℤ)) (· < hllRegisters) (· < 2 ^ 31)
    (writeRegister fun _ value => value) where
  add_of k n h := by
    rw [addInt, if_pos (by omega), Nat.cast_add]
  add_not k n h := by
    rw [addInt, if_neg (by omega)]
  put_of r k v h := setRegister_of rfl h
  put_not r k v h := by
    rw [setRegister, dif_neg]
    rintro ⟨-, hk⟩
    exact h (by omega)
  succ k _ := (Nat.cast_succ k).symm

theorem counts_merge : Counts addLong maxRegister (fun k => Int.bmod k (2 ^ 32))
    (· % 2 ^ 32 < hllRegisters) (fun _ => True)
    (fun r k => writeRegister max r (k % 2 ^ 32)) := by
  have hbmod : ∀ k : ℕ, k % 2 ^ 32 < hllRegisters → bmod k (2 ^ 32) = (k % 2 ^ 32 : ℕ) := by
    intro k hk
    rw [hllRegisters] at hk
    rw [bmod_def]
    split <;> omega
  refine ⟨fun k n _ => ?_, fun k n h => absurd trivial h, fun r k v h => maxRegister_of (hbmod k h) h,
    fun r k v h => ?_, fun k h => ?_⟩
  · rw [addLong, some_inj, bmod_add_bmod, Nat.cast_add]
  · rw [maxRegister, dif_neg]
    rintro ⟨hpos, hk⟩
    refine h ?_
    rw [hllRegisters] at *
    rw [bmod_def] at hpos hk
    split at hpos <;> omega
  · rw [hllRegisters] at h
    rw [bmod_def, bmod_def]
    split <;> split <;> omega

theorem within_of_total {index count : ℕ → Prop} (hindex : ∀ k < hllRegisters, index k)
    (hcount : ∀ k ≤ hllRegisters, count k) (rs : List (ℕ × ℕ)) : ∀ k,
    k + total rs ≤ hllRegisters → Within index count k rs := by
  induction rs with
  | nil => exact fun _ _ => trivial
  | cons r rs ih =>
    intro k h
    obtain ⟨v, n⟩ := r
    rw [total] at h
    cases v with
    | zero => exact ⟨hcount _ (by omega), ih (k + n) (by omega)⟩
    | succ v => exact ⟨fun j hj => hindex _ (by omega), ih (k + n) (by omega)⟩

/-- What `hllSparseToDense` can convert: no `XZERO` is cut off, every `VAL` ends at register 16384 or
before, and the registers are fewer than 2^31. -/
def Convertible (s : List UInt8) (rs : List (ℕ × ℕ)) : Prop :=
  runs s = some rs ∧ Within (· < hllRegisters) (· < 2 ^ 31) 0 rs

/-- What `hllMerge` can read: no `XZERO` is cut off, every register of a `VAL` is below 16384, modulo
2^32. -/
def Mergeable (s : List UInt8) (rs : List (ℕ × ℕ)) : Prop :=
  runs s = some rs ∧ Within (· % 2 ^ 32 < hllRegisters) (fun _ => True) 0 rs

theorem Exact.convertible {s : List UInt8} (h : Exact s) : ∃ rs, Convertible s rs := by
  obtain ⟨rs, hrs, htotal⟩ := h
  refine ⟨rs, hrs, within_of_total (fun k hk => hk) (fun k hk => ?_) rs 0 (by omega)⟩
  exact lt_of_le_of_lt hk (by decide)

/-- The registers that the runs stand for. -/
def registersOf (rs : List (ℕ × ℕ)) : Registers :=
  writeRuns (writeRegister fun _ value => value) (fun _ => 0) 0 rs

section

variable {hdr : Header} {s : List UInt8} {rs : List (ℕ × ℕ)}

theorem hllSparseToDense_of (h : Convertible s rs) : hllSparseToDense (.sparse hdr s) =
    some (if total rs = hllRegisters then (true, .dense hdr (registersOf rs))
      else (false, .sparse hdr s)) := by
  have hloop := ((opcodesLoop_spec counts_dense s) (fun _ => 0) 0).1 rs h.1 h.2
  rw [Nat.cast_zero, Nat.zero_add] at hloop
  rw [hllSparseToDense, hloop]
  dsimp only
  by_cases htotal : total rs = hllRegisters
  · rw [if_neg (by rw [htotal]; exact fun hne => hne rfl), if_pos htotal, registersOf]
  · rw [if_pos (by exact_mod_cast htotal), if_neg htotal]

theorem hllSparseToDense_not (h : ∀ rs, ¬ Convertible s rs) :
    hllSparseToDense (.sparse hdr s) = none := by
  have hloop := ((opcodesLoop_spec counts_dense s) (fun _ => 0) 0).2 fun rs hrs hin => h rs ⟨hrs, hin⟩
  rw [Nat.cast_zero] at hloop
  rw [hllSparseToDense, hloop]

/-- The function stays inside the string and the registers, and rejects the object, which stays as it
is, if it is not a sparse encoding. -/
def Safe {ρ : Type*} (s : List UInt8) (r : Option (ρ × Hll)) (error : ρ) (o : Hll) : Prop :=
  ∃ code o', r = some (code, o') ∧ (¬ Exact s → code = error ∧ o' = o)

/-- **`hllSparseToDense`** is safe if and only if it can convert the string. -/
theorem hllSparseToDense_safe_iff : Safe s (hllSparseToDense (.sparse hdr s)) false (.sparse hdr s) ↔
    ∃ rs, Convertible s rs := by
  constructor
  · rintro ⟨code, o', hr, -⟩
    by_contra h
    rw [hllSparseToDense_not fun rs hrs => h ⟨rs, hrs⟩] at hr
    exact nomatch hr
  · rintro ⟨rs, h⟩
    rw [hllSparseToDense_of h]
    by_cases htotal : total rs = hllRegisters
    · rw [if_pos htotal]
      exact ⟨_, _, rfl, fun hexact => absurd ⟨rs, h.1, htotal⟩ hexact⟩
    · rw [if_neg htotal]
      exact ⟨_, _, rfl, fun _ => ⟨rfl, rfl⟩⟩

/-- **`hllMerge`** is safe if and only if it can read the string, and does not count up to 16384 modulo
2^32. -/
theorem hllMerge_safe_iff (max : Registers) :
    (∃ ok max', hllMerge max (.sparse hdr s) = some (ok, max') ∧ (¬ Exact s → ok = false)) ↔
      ∃ rs, Mergeable s rs ∧ (total rs % 2 ^ 32 = hllRegisters → total rs = hllRegisters) := by
  have hend : ∀ n : ℕ, bmod n (2 ^ 32) = hllRegisters ↔ n % 2 ^ 32 = hllRegisters := by
    intro n
    rw [bmod_def, hllRegisters]
    split <;> omega
  have hstart : bmod ((0 : ℕ) : ℤ) (2 ^ 32) = 0 := by decide
  have hspec := opcodesLoop_spec counts_merge s max 0
  rw [hstart] at hspec
  constructor
  · rintro ⟨ok, max', hr, hok⟩
    by_cases h : ∃ rs, Mergeable s rs
    · obtain ⟨rs, hrs, hin⟩ := h
      refine ⟨rs, ⟨hrs, hin⟩, fun hmod => ?_⟩
      by_contra htotal
      have hloop := hspec.1 rs hrs hin
      rw [Nat.zero_add] at hloop
      rw [hllMerge, hloop] at hr
      dsimp only at hr
      rw [decide_eq_true ((hend _).mpr hmod)] at hr
      have hexact : ¬ Exact s := by
        rintro ⟨rs', hrs', htotal'⟩
        rw [hrs] at hrs'
        exact htotal (some.inj hrs' ▸ htotal')
      have htrue := (Prod.mk.inj (some.inj hr)).1
      exact Bool.false_ne_true ((hok hexact).symm.trans htrue.symm)
    · have hloop := hspec.2 fun rs hrs hin => h ⟨rs, hrs, hin⟩
      rw [hllMerge, hloop] at hr
      exact nomatch hr
  · rintro ⟨rs, ⟨hrs, hin⟩, hmod⟩
    have hloop := hspec.1 rs hrs hin
    rw [Nat.zero_add] at hloop
    rw [hllMerge, hloop]
    refine ⟨_, _, rfl, fun hexact => decide_eq_false fun hidx => hexact ⟨rs, hrs, ?_⟩⟩
    exact hmod ((hend _).mp hidx)

end

/-! ### The registers of a sparse encoding -/

theorem writeRun_apply (value n : ℕ) (i : Fin hllRegisters) : ∀ (r : Registers) (k : ℕ),
    writeRun (writeRegister fun _ value => value) value n r k i =
      if k ≤ i ∧ i < k + n then value else r i := by
  induction n with
  | zero =>
    intro r k
    rw [writeRun, if_neg (by omega)]
  | succ n ih =>
    intro r k
    rw [writeRun, ih, writeRegister]
    by_cases hk : k < hllRegisters
    · rw [dif_pos hk]
      by_cases hi : i = ⟨k, hk⟩
      · rw [hi, Function.update_self, if_neg (by simp), if_pos (by simp)]
      · have hne : (i : ℕ) ≠ k := fun h => hi (Fin.ext h)
        rw [Function.update_of_ne hi]
        exact if_congr (by omega) rfl rfl
    · have hlt := i.isLt
      rw [dif_neg hk, if_neg (by omega), if_neg (by omega)]

/-- **A register** holds the value of the run that covers it. -/
theorem writeRuns_apply (rs : List (ℕ × ℕ)) (i : Fin hllRegisters) : ∀ (r : Registers) (k : ℕ),
    k ≤ i → r i = 0 → writeRuns (writeRegister fun _ value => value) r k rs i =
      (valueAt rs (i - k)).getD 0 := by
  have hbefore : ∀ (rs : List (ℕ × ℕ)) (r : Registers) (k : ℕ), i < k →
      writeRuns (writeRegister fun _ value => value) r k rs i = r i := by
    intro rs
    induction rs with
    | nil => exact fun r k _ => rfl
    | cons run rs ih =>
      intro r k hk
      obtain ⟨v, n⟩ := run
      cases v with
      | zero => exact ih r (k + n) (by omega)
      | succ v => rw [writeRuns, ih _ (k + n) (by omega), writeRun_apply, if_neg (by omega)]
  induction rs with
  | nil => exact fun r k _ hr => hr
  | cons run rs ih =>
    intro r k hk hr
    obtain ⟨v, n⟩ := run
    by_cases hin : (i : ℕ) - k < n
    · rw [valueAt_cons_of_lt hin]
      cases v with
      | zero => rw [writeRuns, hbefore _ _ _ (by omega), hr, getD_some]
      | succ v =>
        rw [writeRuns, hbefore _ _ _ (by omega), writeRun_apply, if_pos (by omega),
          getD_some]
    · rw [valueAt_cons_of_le (by omega), Nat.sub_sub]
      cases v with
      | zero => exact ih r (k + n) (by omega) hr
      | succ v =>
        rw [writeRuns, ih _ (k + n) (by omega)]
        rw [writeRun_apply, if_neg (by omega), hr]

theorem registersOf_apply (rs : List (ℕ × ℕ)) (i : Fin hllRegisters) :
    registersOf rs i = (valueAt rs i).getD 0 :=
  writeRuns_apply rs i _ 0 (Nat.zero_le _) rfl

/-! ### Looking for an opcode -/

/-- The tests of `hllSparseAdd` are those of the other loops. -/
theorem isVal_iff (b : UInt8) (h : ¬ isZero b) : isVal b ↔ ¬ isXzero b := by
  have hbits : ∀ b : BitVec 8, b &&& 0xc0#8 ≠ 0 →
      (b &&& 0x80#8 ≠ 0 ↔ ¬ b &&& 0xc0#8 = 0x40#8) := by decide
  have hb := hbits b.toBitVec
  rw [isZero] at h
  rw [isVal, isXzero]
  simp only [ne_eq, ← UInt8.toBitVec_inj, UInt8.toBitVec_and] at h ⊢
  exact hb h

/-- The value of an opcode that begins with `b`. -/
def opcodeValue (b : UInt8) : ℕ := if isZero b then 0 else if isXzero b then 0 else valValue b

/-- What the loop of `hllSparseAdd` finds from `p` on, where register `first` begins. -/
inductive Located (index : ℕ) (s : List UInt8) (p first span : ℕ) :
    Option (ℕ × ℕ × ℕ × Option ℕ) → Prop where
  | cut (h : runs s = none) : Located index s p first span none
  | found (before rest : List UInt8) (b : UInt8) {p' first' span' : ℕ} {prev' : Option ℕ}
      (string : s = before ++ b :: rest) (position : p' = p + before.length) (length : 0 < span')
      (whole : isXzero b → rest ≠ [])
      (value : ∀ rs, runs s = some rs → valueAt rs (index - first) = some (opcodeValue b)) :
      Located index s p first span (some (p', first', span', prev'))
  | past {p' first' span' : ℕ} {prev' : Option ℕ} (position : p' = p + s.length)
      (empty : s = [] → span' = span) (length : s ≠ [] → 0 < span')
      (short : ∀ rs, runs s = some rs → first + total rs ≤ index) :
      Located index s p first span (some (p', first', span', prev'))

variable {index p first span : ℕ} {s : List UInt8} {res : Option (ℕ × ℕ × ℕ × Option ℕ)}

theorem Located.cons_opcode (opcode : List UInt8) {v n : ℕ}
    (h : Located index s (p + opcode.length) (first + n) n res) (hn : 0 < n)
    (hpast : first + n ≤ index) (hruns : runs (opcode ++ s) = (runs s).map ((v, n) :: ·))
    (hne : opcode ≠ []) : Located index (opcode ++ s) p first span res := by
  have hmap : ∀ {rs}, runs (opcode ++ s) = some rs → ∃ rs', runs s = some rs' ∧ rs = (v, n) :: rs' := by
    intro rs hrs
    rw [hruns] at hrs
    obtain ⟨rs', hrs', rfl⟩ := map_eq_some_iff.mp hrs
    exact ⟨rs', hrs', rfl⟩
  cases h with
  | cut h => exact .cut (by rw [hruns, h]; rfl)
  | found before rest b string position length whole value =>
    refine .found (opcode ++ before) rest b (by rw [string, List.append_assoc])
      (by rw [position, length_append, Nat.add_assoc]) length whole fun rs hrs => ?_
    obtain ⟨rs', hrs', rfl⟩ := hmap hrs
    rw [valueAt_cons_of_le (by omega), Nat.sub_sub]
    exact value rs' hrs'
  | past position empty length short =>
    refine .past (by rw [position, length_append, Nat.add_assoc])
      (fun h => absurd (append_eq_nil_iff.mp h).1 hne) (fun _ => ?_) fun rs hrs => ?_
    · by_cases hs : s = []
      · rw [empty hs]
        exact hn
      · exact length hs
    · obtain ⟨rs', hrs', rfl⟩ := hmap hrs
      rw [total, ← Nat.add_assoc]
      exact short rs' hrs'

/-- The opcode that covers the register. -/
theorem Located.here {b : UInt8} {n : ℕ} {prev : Option ℕ} (hn : 0 < n) (hfirst : first ≤ index)
    (hcovers : index < first + n)
    {o : Option (List (ℕ × ℕ))} (hruns : runs (b :: s) = o.map ((opcodeValue b, n) :: ·))
    (whole : isXzero b → s ≠ []) :
    Located index (b :: s) p first span (some (p, first, n, prev)) := by
  refine .found [] s b rfl rfl hn whole fun rs hrs => ?_
  rw [hruns] at hrs
  obtain ⟨rs', -, rfl⟩ := map_eq_some_iff.mp hrs
  exact valueAt_cons_of_lt (by omega)

theorem not_isXzero {b : UInt8} (h : isZero b) : ¬ isXzero b := by
  intro hx
  rw [isZero] at h
  rw [isXzero, h] at hx
  exact absurd hx (by decide)

theorem runs_zero {b : UInt8} (h : isZero b) :
    runs (b :: s) = (runs s).map ((opcodeValue b, zeroLen b) :: ·) := by
  rw [runs.eq_def]
  simp only [opcodeValue, if_pos h]

theorem runs_xzero {b c : UInt8} (hz : ¬ isZero b) (hx : isXzero b) :
    runs (b :: c :: s) = (runs s).map ((opcodeValue b, xzeroLen b c) :: ·) := by
  rw [runs, if_neg hz, if_pos hx, opcodeValue, if_neg hz, if_pos hx]

theorem runs_val {b : UInt8} (hz : ¬ isZero b) (hx : ¬ isXzero b) :
    runs (b :: s) = (runs s).map ((opcodeValue b, valLen b) :: ·) := by
  rw [runs.eq_def]
  simp only [opcodeValue, if_neg hz, if_neg hx]

/-- **Looking for an opcode**: the induction is on the string. -/
theorem locate_spec (index : ℕ) (s : List UInt8) : ∀ (p first span : ℕ) (prev : Option ℕ),
    first ≤ index → Located index s p first span (locate index s p first span prev) := by
  fun_induction runs s with
  | case1 =>
    intro p first span prev hfirst
    refine .past rfl (fun _ => rfl) (fun h => absurd rfl h) fun rs hrs => ?_
    obtain rfl := some.inj hrs
    exact hfirst
  | case2 b s hzero ih =>
    intro p first span prev hfirst
    have hpos : 0 < zeroLen b := Nat.succ_pos _
    rw [locate.eq_def]
    simp only [if_pos hzero]
    split
    · exact .here hpos hfirst (by omega) (runs_zero hzero) fun hx => absurd hx (not_isXzero hzero)
    · have hrest := ih (p + 1) (first + zeroLen b) (zeroLen b) (some p) (by omega)
      exact hrest.cons_opcode [b] hpos (by omega) (runs_zero hzero) (cons_ne_nil _ _)
  | case3 b hzero hxzero =>
    intro p first span prev hfirst
    rw [locate.eq_def]
    simp only [if_neg hzero, if_neg (mt (isVal_iff b hzero).mp (not_not.mpr hxzero))]
    refine .cut ?_
    rw [runs, if_neg hzero, if_pos hxzero]
  | case4 b hzero hxzero c s ih =>
    intro p first span prev hfirst
    have hpos : 0 < xzeroLen b c := Nat.succ_pos _
    rw [locate.eq_def]
    simp only [if_neg hzero, if_neg (mt (isVal_iff b hzero).mp (not_not.mpr hxzero))]
    split
    · exact .here hpos hfirst (by omega) (runs_xzero hzero hxzero) fun _ => cons_ne_nil _ _
    · have hrest := ih (p + 2) (first + xzeroLen b c) (xzeroLen b c) (some p) (by omega)
      exact hrest.cons_opcode [b, c] hpos (by omega) (runs_xzero hzero hxzero) (cons_ne_nil _ _)
  | case5 b s hzero hxzero ih =>
    intro p first span prev hfirst
    have hpos : 0 < valLen b := Nat.succ_pos _
    rw [locate.eq_def]
    simp only [if_neg hzero, if_pos ((isVal_iff b hzero).mpr hxzero)]
    split
    · exact .here hpos hfirst (by omega) (runs_val hzero hxzero) fun hx => absurd hx hxzero
    · have hrest := ih (p + 1) (first + valLen b) (valLen b) (some p) (by omega)
      exact hrest.cons_opcode [b] hpos (by omega) (runs_val hzero hxzero) (cons_ne_nil _ _)

/-! ### `hllSparseAdd` -/

variable {maxBytes count : ℕ}

/-- What `hllSparseAdd` finds to do: `-1` on an empty string; nothing, where it reads past the end; or an
update, which needs the dense encoding only if the register is smaller. -/
inductive Planned (count index : ℕ) (s : List UInt8) : Option Plan → Prop where
  | empty (h : s = []) : Planned count index s (some .invalid)
  | outside (h : s ≠ []) (short : ∀ rs, runs s = some rs → total rs ≤ index) : Planned count index s none
  | inside {pl : Plan} (h : s ≠ []) (valid : pl ≠ .invalid)
      (smaller : pl = .promote → ∀ rs, runs s = some rs → ∃ v, valueAt rs index = some v ∧ v < count) :
      Planned count index s (some pl)

theorem substitute_ne (seq : List UInt8) (p oldlen : ℕ) (prev : Option ℕ) :
    substitute maxBytes s seq p oldlen prev ≠ .invalid := by
  rw [substitute]
  split <;> exact nofun

theorem plan_spec (maxBytes : ℕ) (hcount : 0 < count) (s : List UInt8) :
    Planned count index s (plan maxBytes count index s) := by
  have hloc := locate_spec index s 0 0 0 none (Nat.zero_le index)
  have hnonempty : runs s = none → s ≠ [] := by
    rintro hs rfl
    cases hs
  rw [plan]
  generalize locate index s 0 0 0 none = res at hloc
  cases hloc with
  | cut h => exact .outside (hnonempty h) fun rs hrs => by cases h.symm.trans hrs
  | past position empty length short =>
    by_cases hs : s = []
    · dsimp only
      rw [if_pos (empty hs)]
      exact .empty hs
    · have hdrop : s.drop (0 + s.length) = [] := by rw [Nat.zero_add, drop_length]
      dsimp only
      rw [if_neg (length hs).ne', position, hdrop]
      exact .outside hs fun rs hrs => (Nat.zero_add _).symm.trans_le (short rs hrs)
  | found before rest b string position length whole value =>
    have hs : s ≠ [] := by
      rw [string]
      exact append_ne_nil_of_right_ne_nil _ (cons_ne_nil _ _)
    have hdrop : s.drop (0 + before.length) = b :: rest := by
      rw [Nat.zero_add, string, drop_left]
    dsimp only
    rw [if_neg length.ne', position, hdrop]
    dsimp only
    have hzero : opcodeValue b < count → ∀ rs, runs s = some rs →
        ∃ v, valueAt rs index = some v ∧ v < count := fun hlt rs hrs => ⟨_, value rs hrs, hlt⟩
    by_cases hz : isZero b
    · have hvalue : opcodeValue b < count := by rw [opcodeValue, if_pos hz]; exact hcount
      rw [if_pos hz]
      split
      · exact .inside hs (fun h => by cases h) fun h => by cases h
      · exact .inside hs (substitute_ne _ _ _ _) fun _ => hzero hvalue
    · rw [if_neg hz]
      by_cases hx : isXzero b
      · have hvalue : opcodeValue b < count := by
          rw [opcodeValue, if_neg hz, if_pos hx]
          exact hcount
        rw [if_pos hx]
        split
        · exact absurd rfl (whole hx)
        · exact .inside hs (substitute_ne _ _ _ _) fun _ => hzero hvalue
      · rw [if_neg hx]
        split
        · exact .inside hs (fun h => by cases h) fun h => by cases h
        · next hlt =>
            have hvalue : opcodeValue b < count := by
              rw [opcodeValue, if_neg hz, if_neg hx]
              exact not_le.mp hlt
            split
            · exact .inside hs (fun h => by cases h) fun h => by cases h
            · exact .inside hs (substitute_ne _ _ _ _) fun _ => hzero hvalue

theorem le_patLoop (hash fuel : ℕ) : ∀ bit count, count ≤ patLoop hash fuel bit count := by
  induction fuel with
  | zero => exact fun _ _ => le_refl _
  | succ fuel ih =>
    intro bit count
    rw [patLoop]
    split
    · exact le_refl _
    · exact (Nat.le_succ _).trans (ih _ _)

theorem hllPatLen_pos (hash : UInt64) : 0 < (hllPatLen hash).1 := le_patLoop _ _ _ _

theorem valValue_le (b : UInt8) : valValue b ≤ 32 := by
  rw [valValue, UInt8.toNat_and]
  have hle : (b >>> 2).toNat &&& (0x1f : UInt8).toNat ≤ 31 := Nat.and_le_right
  omega

theorem opcodeValue_le (b : UInt8) : opcodeValue b ≤ 32 := by
  rw [opcodeValue]
  split
  · exact Nat.zero_le _
  · split
    · exact Nat.zero_le _
    · exact valValue_le b

/-- A sparse encoding holds no value above 32. -/
theorem runs_le {rs : List (ℕ × ℕ)} (h : runs s = some rs) : ∀ r ∈ rs, r.1 ≤ 32 := by
  have hcons : ∀ {o : Option (List (ℕ × ℕ))} {v n : ℕ} {rs : List (ℕ × ℕ)}, v ≤ 32 →
      (∀ {rs}, o = some rs → ∀ r ∈ rs, r.1 ≤ 32) → o.map ((v, n) :: ·) = some rs →
      ∀ r ∈ rs, r.1 ≤ 32 := by
    intro o v n rs hv ih hmap
    obtain ⟨rs', hrs', rfl⟩ := map_eq_some_iff.mp hmap
    rw [forall_mem_cons]
    exact ⟨hv, ih hrs'⟩
  induction s using runs.induct generalizing rs with
  | case1 => exact some.inj h ▸ nofun
  | case2 b p hz ih =>
    rw [runs_zero hz] at h
    exact hcons (opcodeValue_le b) ih h
  | case3 b hz hx =>
    rw [runs, if_neg hz, if_pos hx] at h
    cases h
  | case4 b hz hx c p ih =>
    rw [runs_xzero hz hx] at h
    exact hcons (opcodeValue_le b) ih h
  | case5 b p hz hx ih =>
    rw [runs_val hz hx] at h
    exact hcons (opcodeValue_le b) ih h

/-- **Promotion** is safe if and only if the string can be converted, since the register is smaller than
the count if the string is a sparse encoding. -/
theorem promote_safe_iff {hdr : Header} {hash : UInt64} (hsmaller : ∀ rs, runs s = some rs →
      total rs = hllRegisters → registersOf rs (hllPatLen hash).2 < (hllPatLen hash).1) :
    Safe s (promote hash (.sparse hdr s)) (-1) (.sparse hdr s) ↔ ∃ rs, Convertible s rs := by
  constructor
  · rintro ⟨code, o', hr, -⟩
    by_contra h
    rw [promote, hllSparseToDense_not fun rs hrs => h ⟨rs, hrs⟩] at hr
    exact nomatch hr
  · rintro ⟨rs, h⟩
    rw [promote, hllSparseToDense_of h]
    by_cases htotal : total rs = hllRegisters
    · have hadd : hllDenseAdd (registersOf rs) hash
          = (1, Function.update (registersOf rs) (hllPatLen hash).2 (hllPatLen hash).1) := by
        rw [hllDenseAdd]
        exact if_pos (hsmaller rs h.1 htotal)
      rw [if_pos htotal]
      dsimp only
      rw [hadd]
      exact ⟨1, _, rfl, fun hexact => absurd ⟨rs, h.1, htotal⟩ hexact⟩
    · rw [if_neg htotal]
      exact ⟨_, _, rfl, fun _ => ⟨rfl, rfl⟩⟩

/-- `hllSparseAdd` gets to `promote`: the count needs the dense encoding, or the update makes the string
longer than `server.hll_sparse_max_bytes`. -/
def Promotes (maxBytes : ℕ) (hash : UInt64) (s : List UInt8) : Prop :=
  (hllPatLen hash).1 > 32 ∨
    plan maxBytes (hllPatLen hash).1 (hllPatLen hash).2 s = some .promote

/-- **`hllSparseAdd`** is safe if and only if, where it gets to `promote`, the string can be converted, and
elsewhere it is empty or a sparse encoding. -/
theorem hllSparseAdd_safe_iff (maxBytes : ℕ) (hash : UInt64) (hdr : Header) (s : List UInt8) :
    Safe s (hllSparseAdd maxBytes hash hdr s) (-1) (.sparse hdr s) ↔
      (Promotes maxBytes hash s → ∃ rs, Convertible s rs) ∧
        (¬ Promotes maxBytes hash s → s = [] ∨ Exact s) := by
  have hdone : ∀ {code : ℤ} {o : Hll}, code ≠ -1 → s ≠ [] →
      (Safe s (some (code, o)) (-1) (.sparse hdr s) ↔ s = [] ∨ Exact s) := by
    intro code o hcode hs
    rw [or_iff_right hs]
    constructor
    · rintro ⟨code', o', hr, hreject⟩
      by_contra hexact
      obtain ⟨rfl, rfl⟩ := Prod.mk.inj (some.inj hr)
      exact hcode (hreject hexact).1
    · exact fun hexact => ⟨code, o, rfl, fun h => absurd hexact h⟩
  rw [hllSparseAdd]
  dsimp only
  by_cases hcount : (hllPatLen hash).1 > 32
  · have hprom : Promotes maxBytes hash s := Or.inl hcount
    rw [if_pos hcount, and_iff_left (fun h => absurd hprom h), forall_prop_of_true hprom]
    refine promote_safe_iff fun rs hrs htotal => ?_
    have hlt : ((hllPatLen hash).2 : ℕ) < total rs := by
      rw [htotal]
      exact (hllPatLen hash).2.isLt
    obtain ⟨v, hv⟩ := exists_valueAt hlt
    obtain ⟨n, hn⟩ := mem_of_valueAt hv
    have hle := runs_le hrs _ hn
    rw [registersOf_apply, hv, getD_some]
    exact lt_of_le_of_lt hle hcount
  · have hplan : Planned (hllPatLen hash).1 (hllPatLen hash).2 s
        (plan maxBytes (hllPatLen hash).1 (hllPatLen hash).2 s) :=
      plan_spec maxBytes (hllPatLen_pos hash) s
    have hprom : Promotes maxBytes hash s ↔
        plan maxBytes (hllPatLen hash).1 (hllPatLen hash).2 s = some .promote := or_iff_right hcount
    rw [if_neg hcount, hprom]
    generalize plan maxBytes (hllPatLen hash).1 (hllPatLen hash).2 s = res at hplan
    cases hplan with
    | empty hs => exact ⟨fun _ => ⟨nofun, fun _ => .inl hs⟩, fun _ => ⟨-1, _, rfl, fun _ => ⟨rfl, rfl⟩⟩⟩
    | outside hs short =>
      refine iff_of_false ?_ fun h => ?_
      · rintro ⟨code, o', hr, -⟩
        exact nomatch hr
      · rcases h.2 nofun with hnil | ⟨rs, hrs, htotal⟩
        · exact hs hnil
        · have hlt := (hllPatLen hash).2.isLt
          have hle := short rs hrs
          omega
    | @inside pl hs valid smaller =>
      cases pl with
      | invalid => exact absurd rfl valid
      | same =>
        rw [and_iff_right (nofun), forall_prop_of_true (nofun)]
        exact hdone (by decide) hs
      | updated s' prev =>
        rw [and_iff_right (nofun), forall_prop_of_true (nofun)]
        exact hdone (by decide) hs
      | promote =>
        rw [and_iff_left (fun h => absurd rfl h), forall_prop_of_true rfl]
        refine promote_safe_iff fun rs hrs htotal => ?_
        obtain ⟨v, hv, hlt⟩ := smaller rfl rs hrs
        rw [registersOf_apply, hv, getD_some]
        exact hlt

/-- **Strings that are not a sparse encoding** are rejected safely by each of the three functions in these
cases and no other. -/
theorem sparse_safe_iff (hdr : Header) (s : List UInt8) :
    (Safe s (hllSparseToDense (.sparse hdr s)) false (.sparse hdr s) ↔ ∃ rs, Convertible s rs)
      ∧ (∀ max,
        (∃ ok max', hllMerge max (.sparse hdr s) = some (ok, max') ∧ (¬ Exact s → ok = false)) ↔
          ∃ rs, Mergeable s rs ∧ (total rs % 2 ^ 32 = hllRegisters → total rs = hllRegisters))
      ∧ ∀ maxBytes hash, Safe s (hllSparseAdd maxBytes hash hdr s) (-1) (.sparse hdr s) ↔
          (Promotes maxBytes hash s → ∃ rs, Convertible s rs) ∧
            (¬ Promotes maxBytes hash s → s = [] ∨ Exact s) :=
  ⟨hllSparseToDense_safe_iff, fun max => hllMerge_safe_iff max, fun maxBytes hash =>
    hllSparseAdd_safe_iff maxBytes hash hdr s⟩

/-- A header of zeros. -/
def zeroHeader : Header := ⟨List.replicate 3 0, List.replicate 8 0⟩

/-- 16384 registers that are zero and one more that is 1: both loops get to register 16384.  One register
that is zero: an element whose register is the first is added, though 16383 registers are missing. -/
theorem sparse_overshoots :
    hllSparseToDense (.sparse zeroHeader [0x7f, 0xff, 0x80]) = none
      ∧ hllMerge (fun _ => 0) (.sparse zeroHeader [0x7f, 0xff, 0x80]) = none
      ∧ (¬ Exact [0x00] ∧ ∃ o, hllSparseAdd 3000 0x4000 zeroHeader [0x00] = some (1, o)) := by
  refine ⟨rfl, rfl, ?_, _, rfl⟩
  rintro ⟨rs, hrs, htotal⟩
  obtain rfl := some.inj hrs
  exact absurd htotal (by decide)

/-- The empty object is converted, merged and added to; a string of one register that is zero is rejected
by the loops that read all of it. -/
theorem sparse_safe_iff_short :
    Safe [0x7f, 0xff] (hllSparseAdd 3000 0x4000 zeroHeader [0x7f, 0xff]) (-1)
        (.sparse zeroHeader [0x7f, 0xff])
      ∧ Safe [0x00] (hllSparseToDense (.sparse zeroHeader [0x00])) false (.sparse zeroHeader [0x00]) := by
  have hexact : Exact [0x7f, 0xff] := ⟨[(0, 16384)], rfl, rfl⟩
  refine ⟨((sparse_safe_iff zeroHeader [0x7f, 0xff]).2.2 _ _).mpr
      ⟨fun _ => hexact.convertible, fun _ => .inr hexact⟩,
    (sparse_safe_iff zeroHeader [0x00]).1.mpr ⟨[(0, 1)], rfl, ?_, trivial⟩⟩
  decide

end SourceLibs.HyperLogLog
