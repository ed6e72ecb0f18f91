import Mathlib.Data.List.GetD
import Mathlib.Data.Nat.ModEq
import Mathlib.Tactic.Ring

/-!
# Support — ring cells

A list of `n` cells read as a ring.  A cell is named by its distance `i` from a base `b`: it is cell
`slot n b i`.  A cell holds a value or nothing.

* `slot_inj`: distances less than a turn apart name distinct cells.
* `slot_slot`: distances add.
* `view_set`: writing one cell.
* `view_slot`: moving the base.
-/

namespace SourceLibs.RingCells
open Nat

variable {n b i j : ℕ}

/-- The cell `i` after `b`. -/
def slot (n b i : ℕ) : ℕ := (b + i) % n

theorem slot_lt (hn : 0 < n) : slot n b i < n := mod_lt _ hn

theorem slot_of_lt (h : b + i < n) : slot n b i = b + i := mod_eq_of_lt h

theorem slot_of_ge (h : n ≤ b + i) (h' : b + i < n + n) : slot n b i = b + i - n := by
  rw [slot, mod_eq_sub_mod h, mod_eq_of_lt (by omega)]

theorem slot_zero (hb : b < n) : slot n b 0 = b := mod_eq_of_lt hb

theorem slot_base (hi : i < n) : slot n 0 i = i := by rw [slot_of_lt (by omega), Nat.zero_add]

theorem slot_cases (hb : b < n) (hi : i ≤ n) :
    b + i < n ∧ slot n b i = b + i ∨ n ≤ b + i ∧ slot n b i = b + i - n := by
  rcases Nat.lt_or_ge (b + i) n with h | h
  · exact .inl ⟨h, slot_of_lt h⟩
  · exact .inr ⟨h, slot_of_ge h (by omega)⟩

theorem slot_slot (n b i j : ℕ) : slot n (slot n b i) j = slot n b (i + j) := by
  rw [slot, slot, slot, mod_add_mod, Nat.add_assoc]

theorem slot_add_self (n b i : ℕ) : slot n b (i + n) = slot n b i := by
  rw [slot, slot, ← Nat.add_assoc, add_mod_right]

theorem slot_self (n b : ℕ) : slot n b n = slot n b 0 := by
  rw [← slot_add_self n b 0, Nat.zero_add]

theorem slot_eq_iff_of_le (hij : i ≤ j) (hj : j < i + n) : slot n b i = slot n b j ↔ i = j := by
  constructor
  · intro h
    have hmod : b + i ≡ b + j [MOD n] := h
    have hd : n ∣ j - i := by
      have := (modEq_iff_dvd' (by omega)).mp hmod
      rwa [Nat.add_sub_add_left] at this
    rcases Nat.eq_zero_or_pos (j - i) with h0 | hpos
    · omega
    · exact absurd (Nat.le_of_dvd hpos hd) (by omega)
  · rintro rfl
    rfl

theorem slot_inj (hi : i < n) (hj : j < n) : slot n b i = slot n b j ↔ i = j := by
  rcases Nat.le_total i j with h | h
  · exact slot_eq_iff_of_le h (by omega)
  · rw [eq_comm, slot_eq_iff_of_le h (by omega), eq_comm]

/-- Every cell has a distance below a turn. -/
theorem exists_slot (hb : b < n) {p : ℕ} (hp : p < n) : ∃ i < n, slot n b i = p := by
  rcases Nat.lt_or_ge p b with h | h
  · refine ⟨p + n - b, by omega, ?_⟩
    rw [slot, show b + (p + n - b) = p + n by omega, add_mod_right, mod_eq_of_lt hp]
  · refine ⟨p - b, by omega, ?_⟩
    rw [slot, Nat.add_sub_cancel' h, mod_eq_of_lt hp]

section View
variable {α : Type*} {s : List (Option α)}

/-- What the cell `i` after `b` holds. -/
def view (s : List (Option α)) (b i : ℕ) : Option α := s.getD (slot s.length b i) none

theorem view_slot (hs : s.length = n) (b j i : ℕ) : view s (slot n b j) i = view s b (j + i) := by
  subst hs
  rw [view, view, slot_slot]

theorem view_add_length (hs : s.length = n) (b i : ℕ) : view s b (i + n) = view s b i := by
  subst hs
  rw [view, view, slot_add_self]

/-- One cell written, seen from a distance below a turn. -/
theorem view_set (hs : s.length = n) (v : Option α) (b : ℕ) (hi : i < j + n) (hj : j < i + n) :
    view (s.set (slot n b j) v) b i = if i = j then v else view s b i := by
  subst hs
  have hlt : slot s.length b i < s.length := slot_lt (by omega)
  have hslot : slot s.length b j = slot s.length b i ↔ i = j := by
    rcases Nat.le_total i j with h | h
    · rw [eq_comm, slot_eq_iff_of_le h hj]
    · rw [slot_eq_iff_of_le h hi, eq_comm]
  rw [view, List.length_set, List.getD_eq_getElem _ _ (by rwa [List.length_set]),
    List.getElem_set, view, List.getD_eq_getElem _ _ hlt]
  simp only [hslot]

/-- One cell written, seen from the first. -/
theorem view_set_base (hs : s.length = n) (v : Option α) (hi : i < n) (hj : j < n) :
    view (s.set j v) 0 i = if i = j then v else view s 0 i := by
  have hv := view_set hs v 0 (i := i) (j := j) (by omega) (by omega)
  rwa [slot_base hj] at hv

/-- The cell at a distance, seen from the first. -/
theorem view_base_slot (hs : s.length = n) (hn : 0 < n) (b i : ℕ) :
    view s 0 (slot n b i) = view s b i := by
  subst hs
  rw [view, view, slot_base (slot_lt hn)]

end View

end SourceLibs.RingCells
