import Mathlib.Data.Int.ModEq
import Mathlib.Tactic.NormNum
import Mathlib.Tactic.SplitIfs

/-!
# Support — integers of a machine

The integer types of 8, 16, 32 and 64 bits and their arithmetic: an operand narrower than 32 bits is
promoted to the signed type of 32 bits, unsigned results wrap, and a signed result that does not fit
is no result (`none`).  Conversion to a type is modulo its number of values.

* `evaluate_of_mem`, `convert_of_mem`: what lies between zero and the maximum stays.
* `evaluate_of_bounds`, `convert_of_bounds`: so does every value of the type.
* `convert_modEq`: a conversion keeps the residue.
* `exists_evaluate`: one more than the maximum still has a result, unless the type is signed and wide.
-/

namespace SourceLibs.MachineInt

/-- An integer type. -/
@[ext]
structure IntType where
  bits : ℕ
  signed : Bool
  bits_mem : bits = 8 ∨ bits = 16 ∨ bits = 32 ∨ bits = 64

theorem emod_le_of_nonneg {x n : ℤ} (hx : 0 ≤ x) (hn : 0 ≤ n) : x % n ≤ x := by
  have hdiv := Int.mul_ediv_add_emod x n
  have hq := mul_nonneg hn (Int.ediv_nonneg hx hn)
  omega

namespace IntType

variable (t : IntType)

/-- The bits of a value without its sign, `numeric_limits<T>::digits`. -/
def digits : ℕ := if t.signed then t.bits - 1 else t.bits

/-- The number of values that are not negative. -/
def card : ℤ := 2 ^ t.digits

/-- The largest value. -/
def max : ℤ := t.card - 1

/-- The smallest value. -/
def min : ℤ := if t.signed then -t.card else 0

/-- Conversion to the type. -/
def convert (x : ℤ) : ℤ := if t.signed then x.bmod (2 ^ t.bits) else x % 2 ^ t.bits

/-- The result of an operation on operands of the type, after promotion. -/
def evaluate (x : ℤ) : Option ℤ :=
  if t.bits < 32 then
    if -2 ^ 31 ≤ x ∧ x < 2 ^ 31 then some x else none
  else if t.signed then
    if t.min ≤ x ∧ x ≤ t.max then some x else none
  else some (x % 2 ^ t.bits)

/-- The unsigned type of the same width. -/
def unsigned : IntType := ⟨t.bits, false, t.bits_mem⟩

/-- Signed, and not promoted: a result that does not fit is undefined. -/
def Strict : Prop := t.signed = true ∧ 32 ≤ t.bits

instance : Decidable t.Strict := inferInstanceAs (Decidable (_ ∧ _))

@[simp] theorem unsigned_bits : t.unsigned.bits = t.bits := rfl

@[simp] theorem unsigned_signed : t.unsigned.signed = false := rfl

variable {t}

/-- **The eight types.** -/
theorem forall_types {P : IntType → Prop} (t : IntType)
    (h : ∀ s, P ⟨8, s, by decide⟩ ∧ P ⟨16, s, by decide⟩ ∧ P ⟨32, s, by decide⟩ ∧
      P ⟨64, s, by decide⟩) : P t := by
  obtain ⟨bits, s, hb⟩ := t
  rcases hb with rfl | rfl | rfl | rfl
  · exact (h s).1
  · exact (h s).2.1
  · exact (h s).2.2.1
  · exact (h s).2.2.2

theorem card_bounds (t : IntType) : 128 ≤ t.card ∧ t.card ≤ 2 ^ 64 := by
  refine forall_types (P := fun t => 128 ≤ t.card ∧ t.card ≤ 2 ^ 64) t fun s => ?_
  cases s <;> decide

theorem card_eq_max_add_one (t : IntType) : t.card = t.max + 1 := by
  rw [max]
  omega

theorem max_nonneg (t : IntType) : 0 ≤ t.max := by
  have hcard := t.card_bounds.1
  rw [max]
  omega

theorem min_le_zero (t : IntType) : t.min ≤ 0 := by
  have hcard := t.card_bounds.1
  rw [min]
  split_ifs
  · omega
  · exact le_rfl

theorem unsigned_max (t : IntType) : t.unsigned.max = t.max - t.min := by
  refine forall_types (P := fun t => t.unsigned.max = t.max - t.min) t fun s => ?_
  cases s <;> decide

theorem max_add_one_of_signed (h : t.signed = true) : t.max + 1 = -t.min := by
  rw [max, min, if_pos h]
  omega

theorem min_of_unsigned (h : t.signed = false) : t.min = 0 := by
  rw [min, h]
  rfl

theorem max_le_max {t' : IntType} (h : t.digits ≤ t'.digits) : t.max ≤ t'.max := by
  rw [max, max, card, card]
  have : (2 : ℤ) ^ t.digits ≤ 2 ^ t'.digits := pow_le_pow_right₀ (by norm_num) h
  omega

theorem card_dvd (t : IntType) : t.card ∣ 2 ^ t.bits := by
  rw [card, digits]
  split_ifs
  · exact pow_dvd_pow 2 (Nat.sub_le _ _)
  · exact dvd_rfl

/-- **What lies between zero and the maximum** is its own value. -/
theorem evaluate_of_mem {x : ℤ} (h₀ : 0 ≤ x) (hx : x ≤ t.max) : t.evaluate x = some x := by
  revert hx
  refine forall_types (P := fun t => x ≤ t.max → t.evaluate x = some x) t fun s => ?_
  cases s <;> refine ⟨?_, ?_, ?_, ?_⟩ <;> intro hx <;>
    norm_num [evaluate, max, min, card, digits] at hx ⊢ <;> omega

theorem convert_of_mem {x : ℤ} (h₀ : 0 ≤ x) (hx : x ≤ t.max) : t.convert x = x := by
  revert hx
  refine forall_types (P := fun t => x ≤ t.max → t.convert x = x) t fun s => ?_
  cases s <;> refine ⟨?_, ?_, ?_, ?_⟩ <;> intro hx <;>
    norm_num [convert, max, card, digits, Int.bmod] at hx ⊢ <;> omega

/-- **A value of the type** is a result, and its own conversion. -/
theorem evaluate_of_bounds {x : ℤ} (h₀ : t.min ≤ x) (hx : x ≤ t.max) : t.evaluate x = some x := by
  revert h₀ hx
  refine forall_types (P := fun t => t.min ≤ x → x ≤ t.max → t.evaluate x = some x) t fun s => ?_
  cases s <;> refine ⟨?_, ?_, ?_, ?_⟩ <;> intro h₀ hx <;>
    norm_num [evaluate, max, min, card, digits] at h₀ hx ⊢ <;> omega

theorem convert_of_bounds {x : ℤ} (h₀ : t.min ≤ x) (hx : x ≤ t.max) : t.convert x = x := by
  revert h₀ hx
  refine forall_types (P := fun t => t.min ≤ x → x ≤ t.max → t.convert x = x) t fun s => ?_
  cases s <;> refine ⟨?_, ?_, ?_, ?_⟩ <;> intro h₀ hx <;>
    norm_num [convert, max, min, card, digits, Int.bmod] at h₀ hx ⊢ <;> omega

/-- **An unsigned value** in a type of the same width. -/
theorem convert_of_unsigned {x : ℤ} (h₀ : 0 ≤ x) (hx : x ≤ t.unsigned.max) :
    t.convert x = if x ≤ t.max then x else x - t.unsigned.max - 1 := by
  revert hx
  refine forall_types (P := fun t => x ≤ t.unsigned.max →
    t.convert x = if x ≤ t.max then x else x - t.unsigned.max - 1) t fun s => ?_
  cases s <;> refine ⟨?_, ?_, ?_, ?_⟩ <;> intro hx <;>
    norm_num [convert, unsigned, max, card, digits, Int.bmod] at hx ⊢ <;> omega

/-- **A sum of unsigned values** wraps once. -/
theorem evaluate_add {x y : ℤ} (hx₀ : 0 ≤ x) (hx : x ≤ t.unsigned.max) (hy₀ : 0 ≤ y)
    (hy : y ≤ t.unsigned.max) : ∃ s, t.unsigned.evaluate (x + y) = some s ∧ t.unsigned.convert s =
      if x + y ≤ t.unsigned.max then x + y else x + y - t.unsigned.max - 1 := by
  revert hx hy
  refine forall_types (P := fun t => x ≤ t.unsigned.max → y ≤ t.unsigned.max → ∃ s,
    t.unsigned.evaluate (x + y) = some s ∧ t.unsigned.convert s =
      if x + y ≤ t.unsigned.max then x + y else x + y - t.unsigned.max - 1) t fun s => ?_
  refine ⟨?_, ?_, ?_, ?_⟩ <;> intro hx hy <;>
    norm_num [evaluate, convert, unsigned, max, card, digits] at hx hy ⊢
  · exact ⟨x + y, ⟨by omega, rfl⟩, by split_ifs <;> omega⟩
  · exact ⟨x + y, ⟨by omega, rfl⟩, by split_ifs <;> omega⟩
  · split_ifs <;> omega
  · split_ifs <;> omega

/-- **A conversion** keeps the residue. -/
theorem convert_modEq (x : ℤ) : t.convert x ≡ x [ZMOD 2 ^ t.bits] := by
  rw [convert]
  split_ifs
  · have h := Int.bmod_emod (x := x) (m := 2 ^ t.bits)
    push_cast at h
    exact h
  · exact Int.mod_modEq x _

/-- **A result** keeps the residue. -/
theorem evaluate_modEq {x y : ℤ} (h : t.evaluate x = some y) : y ≡ x [ZMOD 2 ^ t.bits] := by
  simp only [evaluate] at h
  split_ifs at h
  · cases h
    exact Int.ModEq.refl x
  · cases h
    exact Int.ModEq.refl x
  · cases h
    exact Int.mod_modEq x _

/-- **One more than the maximum, and what is negative,** has a result, but in the signed types that are
not promoted. -/
theorem exists_evaluate {x : ℤ} (hstrict : ¬ t.Strict) (h₀ : -t.card ≤ x) (hx : x ≤ t.card) :
    ∃ y, t.evaluate x = some y := by
  revert hstrict h₀ hx
  refine forall_types (P := fun t => ¬ t.Strict → -t.card ≤ x → x ≤ t.card →
    ∃ y, t.evaluate x = some y) t fun s => ?_
  cases s <;> refine ⟨?_, ?_, ?_, ?_⟩ <;> intro hs h₀ hx <;>
    first
    | exact absurd ⟨rfl, by decide⟩ hs
    | norm_num [evaluate, max, min, card, digits] at h₀ hx ⊢ <;> omega

theorem evaluate_bounds {x y : ℤ} (h₀ : 0 ≤ x) (h : t.evaluate x = some y) : 0 ≤ y ∧ y ≤ x := by
  simp only [evaluate] at h
  split_ifs at h
  · cases h
    exact ⟨h₀, le_rfl⟩
  · cases h
    exact ⟨h₀, le_rfl⟩
  · cases h
    exact ⟨Int.emod_nonneg x (by positivity), emod_le_of_nonneg h₀ (by positivity)⟩

theorem convert_bounds (x : ℤ) : t.min ≤ t.convert x ∧ t.convert x ≤ t.max := by
  refine forall_types (P := fun t => t.min ≤ t.convert x ∧ t.convert x ≤ t.max) t fun s => ?_
  cases s <;> refine ⟨?_, ?_, ?_, ?_⟩ <;>
    norm_num [convert, min, max, card, digits, Int.bmod] <;> omega

end IntType

end SourceLibs.MachineInt
