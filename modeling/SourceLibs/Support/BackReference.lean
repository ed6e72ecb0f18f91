import Mathlib.Data.List.Basic

/-!
# Support — copies of what was written

A text is written from its beginning, and elements are copied from some places back, one at a time: a
copy may overlap what it writes.

* `copyBack_take`: a copy of elements that were compared goes on with the text.
-/

namespace SourceLibs.BackReference
open List

variable {α : Type*}

/-- `n` elements, each from `d` places back. -/
def copyBack (d : ℕ) : ℕ → List α → List α
  | 0, out     => out
  | n + 1, out => copyBack d n (out ++ out[out.length - d]?.toList)

theorem length_copyBack_le (d n : ℕ) : ∀ out : List α, (copyBack d n out).length ≤ out.length + n := by
  induction n with
  | zero => exact fun _ => Nat.le_refl _
  | succ n ih =>
    intro out
    have hone := ih (out ++ out[out.length - d]?.toList)
    have htoList : out[out.length - d]?.toList.length ≤ 1 := by
      cases out[out.length - d]? <;> simp
    rw [length_append] at hone
    rw [copyBack]
    omega

/-- **A copy** of elements that were compared. -/
theorem copyBack_take {l : List α} {d : ℕ} (hd : 1 ≤ d) (n : ℕ) : ∀ p, d ≤ p → p + n ≤ l.length →
    (∀ k < n, l[p - d + k]? = l[p + k]?) → copyBack d n (l.take p) = l.take (p + n) := by
  induction n with
  | zero => exact fun _ _ _ _ => rfl
  | succ n ih =>
    intro p hp hn h
    have hfirst : (l.take p)[(l.take p).length - d]? = l[p]? := by
      rw [length_take_of_le (by omega), getElem?_take_of_lt (by omega)]
      exact h 0 (Nat.succ_pos n)
    rw [copyBack, hfirst, ← take_add_one, ih (p + 1) (by omega) (by omega) fun k hk => ?_]
    · congr 1
      omega
    · have hk := h (k + 1) (Nat.succ_lt_succ hk)
      rwa [show p + 1 - d + k = p - d + (k + 1) by omega, show p + 1 + k = p + (k + 1) by omega]

end SourceLibs.BackReference
