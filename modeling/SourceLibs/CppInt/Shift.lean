import SourceLibs.CppInt.ImportExport
import SourceLibs.CppInt.Increment
import SourceLibs.Support.InPlace
import SourceLibs.Support.Words

/-!
# CppInt — shifts

`eval_left_shift` and `eval_right_shift` of `cpp_int/bitwise.hpp`.  Which of the three in-place
algorithms runs (over limbs, over bytes, over limbs and bits) follows from the shift and from three
configurations of the preprocessor.

The machine's integers matter here: the limb offset is narrowed to `limb_type`, the limb count is an
`unsigned`, byte counts are `std::size_t` (64 bits).  A left shift guesses the new limb count first;
`resize` grants at most `cap` limbs, which is `max_limbs` of a backend that allocates and
`internal_limb_count` of a fixed one.  A right shift only makes the object smaller, which is
granted.

* `natOf_shiftLeft`, `natOf_shiftRight`: limbs whose bits are moved, as numbers.
-/

namespace SourceLibs.CppInt
open InPlace Words

variable {w : ℕ}

/-- The widths a limb can have. -/
def LimbWidth (w : ℕ) : Prop := w = 32 ∨ w = 64

theorem LimbWidth.eight_dvd (hw : LimbWidth w) : 8 ∣ w := by
  rcases hw with rfl | rfl <;> decide

theorem LimbWidth.le (hw : LimbWidth w) : 32 ≤ w := by
  rcases hw with rfl | rfl <;> decide

theorem LimbWidth.lt (hw : LimbWidth w) : w < 2 ^ 30 := by
  rcases hw with rfl | rfl <;> decide

theorem LimbWidth.neZero (hw : LimbWidth w) : NeZero w := ⟨by have := hw.le; omega⟩

theorem LimbWidth.limb_le (hw : LimbWidth w) : 2 ^ 32 ≤ 2 ^ w := Nat.pow_le_pow_right Nat.two_pos hw.le

/-! ### Left shift -/

/-- `static_cast<limb_type>(n)`. -/
def limbCast (w n : ℕ) : ℕ := n % 2 ^ w

/-- `static_cast<std::size_t>(n)`. -/
def sizeCast (n : ℕ) : ℕ := n % 2 ^ 64

theorem limbCast_of_lt (hw : LimbWidth w) {n : ℕ} (h : n < 2 ^ 32) : limbCast w n = n :=
  Nat.mod_eq_of_lt (h.trans_le hw.limb_le)

/-- `resize(n, n)` where the storage has room for `cap` limbs. -/
def grow (cap : ℕ) (x : CppInt w) (n : ℕ) : CppInt w := x.setSize (min n cap)

/-- The top limb overflows when shifted. -/
def topOverflows (x : CppInt w) (shift : ℕ) : Bool :=
  decide (shift ≠ 0) && x.limbs (x.size - 1) >>> (w - shift) != 0

/-- `rs`, the limb count guessed before the shift. -/
def shiftedSize (x : CppInt w) (offset shift : ℕ) : ℕ :=
  let rs := if topOverflows x shift then x.size + 1 else x.size
  uint (rs + offset)

/-- `left_shift_byte`.  Without a limb, the store to `pr[rs - 1]` is outside the storage. -/
def leftShiftByte (cap : ℕ) (result : CppInt w) (s : ℕ) : Option (CppInt w) :=
  let offset := limbCast w (s / w)
  let shift := s % w
  let ors := result.size
  if ors = 1 ∧ result.limbs 0 = 0 then some result
  else
    let result := result.grow cap (shiftedSize result offset shift)
    let rs := result.size
    if rs = 0 then none
    else
      let result := if rs ≠ ors then result.store (rs - 1) 0 else result
      let bytes := sizeCast (s / 8)
      let len := min (ors * (w / 8)) (rs * (w / 8) - bytes)
      if rs * (w / 8) ≤ bytes then some (result.assignLimb 0)
      else some (result.setLimbs (clearBytes (moveBytes result.limbs bytes 0 len) 0 bytes))

/-- `left_shift_limb`: by whole limbs. -/
def leftShiftLimb (cap : ℕ) (result : CppInt w) (s : ℕ) : CppInt w :=
  let offset := limbCast w (s / w)
  let shift := s % w
  let ors := result.size
  if ors = 1 ∧ result.limbs 0 = 0 then result
  else
    let rs := shiftedSize result offset shift
    let result := result.grow cap rs
    if rs < offset then result.assignLimb 0
    else
      let i := rs - result.size
      let pr := writeDown (fun pr i => pr (ors - 1 - i)) rs (ors - i) i result.limbs
      let i := max i ors
      result.setLimbs (writeDown (fun _ _ => 0) rs (rs - i) i pr)

/-- The limbs of `left_shift_generic`, from `i` on. -/
def leftShiftLoops (ors rs shift i : ℕ) (pr : ℕ → BitVec w) : ℕ → BitVec w :=
  let pr := writeDown (fun (pr : ℕ → BitVec w) i =>
    pr (ors - 1 - i) <<< shift ||| pr (ors - 2 - i) >>> (w - shift)) rs (ors - 1 - i) i pr
  let i := max i (ors - 1)
  let (pr, i) := if 1 + i ≤ ors then (Function.update pr (rs - 1 - i) (pr (ors - 1 - i) <<< shift), i + 1)
    else (pr, i)
  writeDown (fun _ _ => 0) rs (rs - i) i pr

def leftShiftGeneric (cap : ℕ) (result : CppInt w) (s : ℕ) : CppInt w :=
  let offset := limbCast w (s / w)
  let shift := s % w
  let ors := result.size
  if ors = 1 ∧ result.limbs 0 = 0 then result
  else
    let rs := shiftedSize result offset shift
    let result := result.grow cap rs
    let pr := result.limbs
    if rs < offset then result.assignLimb 0
    else
      let i := rs - result.size
      if result.size = rs then
        if ors + offset < rs then
          let pr := Function.update pr (rs - 1 - i) (pr (ors - 1 - i) >>> (w - shift))
          result.setLimbs (leftShiftLoops ors (rs - 1) shift i pr)
        else
          let top := pr (ors - 1 - i) <<< shift
          let top := if 1 < ors then top ||| pr (ors - 2 - i) >>> (w - shift) else top
          let pr := Function.update pr (rs - 1 - i) top
          result.setLimbs (leftShiftLoops ors rs shift (i + 1) pr)
      else result.setLimbs (leftShiftLoops ors rs shift i pr)

/-! ### Right shift -/

/-- `right_shift_byte`: by whole bytes. -/
def rightShiftByte (result : CppInt w) (s : ℕ) : CppInt w :=
  let offset := limbCast w (s / w)
  let ors := result.size
  if ors ≤ offset then result.assignLimb 0
  else
    let rs := ors - offset
    let shift := limbCast w (s / 8)
    let result := result.setLimbs (moveBytes result.limbs 0 shift (ors * (w / 8) - shift))
    let shift := (w / 8 - shift % (w / 8)) * 8
    if shift < w then
      let top := result.limbs (ors - offset - 1) &&& ((1#w <<< shift) - 1)
      let result := result.store (ors - offset - 1) top
      result.setSize (if top = 0 ∧ 1 < rs then rs - 1 else rs)
    else result.setSize rs

/-- `right_shift_limb`: by whole limbs. -/
def rightShiftLimb (result : CppInt w) (s : ℕ) : CppInt w :=
  let offset := limbCast w (s / w)
  let ors := result.size
  if ors ≤ offset then result.assignLimb 0
  else
    let rs := ors - offset
    (result.setLimbs (writeUp (fun pr i => pr (i + offset)) rs 0 result.limbs)).setSize rs

/-- The loop of `right_shift_generic`, from limb `i` on. -/
def shiftLimbs (shift offset : ℕ) : ℕ → ℕ → (ℕ → BitVec w) → ℕ → BitVec w
  | 0, i, pr => Function.update pr i (pr (i + offset) >>> shift)
  | n + 1, i, pr =>
    shiftLimbs shift offset n (i + 1)
      (Function.update pr i (pr (i + offset) >>> shift ||| pr (i + offset + 1) <<< (w - shift)))

def rightShiftGeneric (result : CppInt w) (s : ℕ) : CppInt w :=
  let offset := limbCast w (s / w)
  let shift := s % w
  let ors := result.size
  let rs := ors - offset
  if ors ≤ offset then result.assignLimb 0
  else
    let rs := if result.limbs (ors - 1) >>> shift = 0 then rs - 1 else rs
    if rs = 0 then result.assignLimb 0
    else (result.setLimbs (shiftLimbs shift offset (ors - offset - 1) 0 result.limbs)).setSize rs

/-! ### Choosing the algorithm -/

/-- `BOOST_LITTLE_ENDIAN` with and without `BOOST_MP_USE_LIMB_SHIFT`, and neither. -/
inductive ShiftConfig where
  | littleEndian
  | limbShift
  | bigEndian
deriving DecidableEq

/-- The in-place algorithms. -/
inductive ShiftStrategy where
  | limb
  | byte
  | generic
deriving DecidableEq

/-- The algorithm that runs. -/
def strategy (w : ℕ) (config : ShiftConfig) (s : ℕ) : ShiftStrategy :=
  match config with
  | .limbShift => if s % w = 0 then .limb else if s % 8 = 0 then .byte else .generic
  | .littleEndian => if s % 8 = 0 then .byte else .generic
  | .bigEndian => if s % w = 0 then .limb else .generic

/-- The shifts an algorithm is written for. -/
def ShiftStrategy.Applies (w s : ℕ) : ShiftStrategy → Prop
  | .limb => s % w = 0
  | .byte => s % 8 = 0
  | .generic => s % w ≠ 0

/-- A left shift by one of the algorithms. -/
def leftShift (strategy : ShiftStrategy) (cap : ℕ) (result : CppInt w) (s : ℕ) : Option (CppInt w) :=
  match strategy with
  | .limb => some (leftShiftLimb cap result s)
  | .byte => leftShiftByte cap result s
  | .generic => some (leftShiftGeneric cap result s)

/-- A right shift by one of the algorithms. -/
def rightShift (strategy : ShiftStrategy) (result : CppInt w) (s : ℕ) : CppInt w :=
  match strategy with
  | .limb => rightShiftLimb result s
  | .byte => rightShiftByte result s
  | .generic => rightShiftGeneric result s

/-- `eval_left_shift` with the algorithm given. -/
def evalLeftShiftBy (strategy : ShiftStrategy) (cap : ℕ) (result : CppInt w) (s : ℕ) : Option (CppInt w) :=
  if s = 0 then some result else (leftShift strategy cap result s).map normalize

def evalLeftShift (config : ShiftConfig) (cap : ℕ) (result : CppInt w) (s : ℕ) : Option (CppInt w) :=
  evalLeftShiftBy (strategy w config s) cap result s

/-- `eval_right_shift` with the algorithm given: a negative number is incremented before the shift
and decremented after it. -/
def evalRightShiftBy (strategy : ShiftStrategy) (result : CppInt w) (s : ℕ) : CppInt w :=
  if s = 0 then result
  else
    let isNeg := result.sign
    let result := if isNeg then evalIncrement result else result
    let result := rightShift strategy result s
    if isNeg then evalDecrement result else result

def evalRightShift (config : ShiftConfig) (result : CppInt w) (s : ℕ) : CppInt w :=
  evalRightShiftBy (strategy w config s) result s

/-! ### Bits moved -/

section Bits
variable [NeZero w]

theorem testBit_natOf (p : ℕ → BitVec w) (n k : ℕ) :
    (natOf p n).testBit k = (decide (k < w * n) && bitAt p k) := by
  have h := testBit_mag_eq (⟨p, n, false⟩ : CppInt w) k
  rw [Nat.mul_comm, show decide (k < n * w) = decide (k / w < n) from
    decide_eq_decide.mpr (Nat.div_lt_iff_lt_mul (NeZero.pos w)).symm]
  exact h

/-- Bits moved up multiply, modulo what the limbs hold. -/
theorem natOf_shiftLeft {p q : ℕ → BitVec w} {m n e : ℕ}
    (h : ∀ k < w * n, bitAt q k = (decide (e ≤ k ∧ k < e + w * m) && bitAt p (k - e))) :
    natOf q n = natOf p m * 2 ^ e % 2 ^ (w * n) := by
  refine Nat.eq_of_testBit_eq fun k => ?_
  rw [Nat.testBit_mod_two_pow, Nat.testBit_mul_two_pow, testBit_natOf, testBit_natOf]
  by_cases hk : k < w * n
  · rw [h k hk]
    by_cases hle : e ≤ k
    · simp only [hk, hle, decide_true, Bool.true_and, true_and]
      congr 1
      exact decide_eq_decide.mpr (by omega)
    · simp [hle]
  · simp [hk]

theorem natOf_shiftRight {p q : ℕ → BitVec w} {m n e : ℕ} (hfit : w * m ≤ w * n + e)
    (h : ∀ k < w * n, bitAt q k = (decide (k + e < w * m) && bitAt p (k + e))) :
    natOf q n = natOf p m / 2 ^ e := by
  refine Nat.eq_of_testBit_eq fun k => ?_
  rw [Nat.testBit_div_two_pow, testBit_natOf, testBit_natOf]
  by_cases hk : k < w * n
  · simp [h k hk, hk]
  · simp [hk, show ¬ k + e < w * m by omega]

end Bits

end SourceLibs.CppInt
