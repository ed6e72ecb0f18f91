import Mathlib.Data.Nat.Notation
import Mathlib.Logic.Function.Basic
import Mathlib.Tactic.Set

/-!
# Support — loops that overwrite an array in place

An array is a function of the position.  `writeUp` overwrites position after position from `i` on,
`writeDown` from `m - 1 - i` down; the value written may be computed from what the array holds.
Where it depends only on positions the loop has not overwritten yet, the loop computes every value
from the array it started on (`writeUp_eq`, `writeDown_eq`).
-/

namespace SourceLibs.InPlace
open Function

variable {α : Type*}

/-- `for(; n--; ++i) p[i] = g(p, i);`. -/
def writeUp (g : (ℕ → α) → ℕ → α) : ℕ → ℕ → (ℕ → α) → ℕ → α
  | 0, _, p     => p
  | n + 1, i, p => writeUp g n (i + 1) (update p i (g p i))

/-- `for(; n--; ++i) p[m - 1 - i] = g(p, i);`. -/
@[simp] def writeDown (g : (ℕ → α) → ℕ → α) (m : ℕ) : ℕ → ℕ → (ℕ → α) → ℕ → α
  | 0, _, p     => p
  | n + 1, i, p => writeDown g m n (i + 1) (update p (m - 1 - i) (g p i))

/-- **A loop upwards** whose values depend on positions not overwritten yet. -/
theorem writeUp_eq {g : (ℕ → α) → ℕ → α} (n : ℕ) : ∀ (i : ℕ) (p : ℕ → α),
    (∀ q k, i ≤ k → (∀ j, k ≤ j → q j = p j) → g q k = g p k) →
    ∀ j, writeUp g n i p j = if i ≤ j ∧ j < i + n then g p j else p j := by
  induction n with
  | zero =>
    intro i p _ j
    rw [writeUp, if_neg (by omega)]
  | succ n ih =>
    intro i p hg j
    set p' := update p i (g p i) with hp'
    have hfar : ∀ k, i + 1 ≤ k → p' k = p k := fun k hk => update_of_ne (by omega) _ _
    have hg' : ∀ q k, i + 1 ≤ k → (∀ j, k ≤ j → q j = p' j) → g q k = g p k := fun q k hk hq =>
      hg q k (by omega) fun j hj => (hq j hj).trans (hfar j (by omega))
    rw [writeUp, ih (i + 1) p' fun q k hk hq =>
      (hg' q k hk hq).trans (hg' p' k hk fun _ _ => rfl).symm]
    by_cases h : i + 1 ≤ j ∧ j < i + 1 + n
    · rw [if_pos h, if_pos (by omega)]
      exact hg' p' j h.1 fun _ _ => rfl
    · rw [if_neg h]
      by_cases hj : j = i
      · rw [hj, if_pos (by omega), hp', update_self]
      · rw [if_neg (by omega), hp', update_of_ne hj]

/-- **A loop downwards** whose values depend on positions not overwritten yet. -/
theorem writeDown_eq {g : (ℕ → α) → ℕ → α} {m : ℕ} (n : ℕ) : ∀ (i : ℕ) (p : ℕ → α), i + n ≤ m →
    (∀ q k, i ≤ k → k < m → (∀ j, j ≤ m - 1 - k → q j = p j) → g q k = g p k) →
    ∀ j, writeDown g m n i p j = if m ≤ j + (i + n) ∧ j + i < m then g p (m - 1 - j) else p j := by
  induction n with
  | zero =>
    intro i p _ _ j
    rw [writeDown, if_neg (by omega)]
  | succ n ih =>
    intro i p hle hg j
    set p' := update p (m - 1 - i) (g p i) with hp'
    have hfar : ∀ k, k + (i + 1) < m → p' k = p k := fun k hk =>
      update_of_ne (by omega) _ _
    have hg' : ∀ q k, i + 1 ≤ k → k < m → (∀ j, j ≤ m - 1 - k → q j = p' j) → g q k = g p k :=
      fun q k hk hk' hq => hg q k (by omega) hk' fun j hj => (hq j hj).trans (hfar j (by omega))
    rw [writeDown, ih (i + 1) p' (by omega) fun q k hk hk' hq =>
      (hg' q k hk hk' hq).trans (hg' p' k hk hk' fun _ _ => rfl).symm]
    by_cases h : m ≤ j + (i + 1 + n) ∧ j + (i + 1) < m
    · rw [if_pos h, if_pos (by omega)]
      exact hg' p' _ (by omega) (by omega) fun _ _ => rfl
    · rw [if_neg h]
      by_cases hj : j = m - 1 - i
      · subst hj
        rw [if_pos (by omega), hp', update_self]
        congr 1
        omega
      · rw [if_neg (by omega), hp', update_of_ne hj]

theorem writeDown_add (g : (ℕ → α) → ℕ → α) (m k n : ℕ) : ∀ (i : ℕ) (p : ℕ → α),
    writeDown g m (k + n) i p = writeDown g m n (i + k) (writeDown g m k i p) := by
  induction k with
  | zero =>
    intro i p
    rw [Nat.zero_add, writeDown, Nat.add_zero]
  | succ k ih =>
    intro i p
    rw [Nat.succ_add, writeDown, ih, writeDown, Nat.succ_add_eq_add_succ]

theorem writeDown_congr {g g' : (ℕ → α) → ℕ → α} {m n : ℕ} : ∀ {i : ℕ} (p : ℕ → α),
    (∀ q k, i ≤ k → k < i + n → g q k = g' q k) → writeDown g m n i p = writeDown g' m n i p := by
  induction n with
  | zero => exact fun _ _ => rfl
  | succ n ih =>
    intro i p h
    rw [writeDown, writeDown, h p i (Nat.le_refl i) (by omega)]
    exact ih _ fun q k hk hk' => h q k (by omega) (by omega)

end SourceLibs.InPlace
