import Mathlib.Order.Lattice

/-!
# Support — strict weak orders

A comparison object answers whether its first argument is less.  `cmp a b = false` reads "`a` is
not less than `b`"; it is reflexive, transitive and total.

`maxElement` is the first largest element of a range of positions.
-/

namespace SourceLibs.Compare

variable {α : Type*}

/-- `cmp` is a strict weak order. -/
structure StrictWeak (cmp : α → α → Bool) : Prop where
  asymm : ∀ {a b}, cmp a b = true → cmp b a = false
  trans : ∀ {a b c}, cmp a b = false → cmp b c = false → cmp a c = false

/-- The order of a linear order. -/
theorem strictWeak_lt [LinearOrder α] : StrictWeak fun a b : α => decide (a < b) where
  asymm h := decide_eq_false (lt_asymm (of_decide_eq_true h))
  trans h h' := decide_eq_false (not_lt.mpr
    ((not_lt.mp (of_decide_eq_false h')).trans (not_lt.mp (of_decide_eq_false h))))

variable {cmp : α → α → Bool}

theorem StrictWeak.refl (h : StrictWeak cmp) (a : α) : cmp a a = false := by
  cases hc : cmp a a with
  | false => rfl
  | true => exact absurd (h.asymm hc) (by rw [hc]; decide)

/-- What is less than something not less than `c` is less than `c`, read from its negation. -/
theorem StrictWeak.trans_lt (h : StrictWeak cmp) {a b c : α} (hab : cmp b a = true)
    (hbc : cmp b c = false) : cmp a c = false := h.trans (h.asymm hab) hbc

/-- The loop of `std::max_element`: `n` positions from `i` on are still to be seen. -/
def maxElement (cmp : α → α → Bool) (key : ℕ → α) : ℕ → ℕ → ℕ → ℕ
  | 0, _, largest     => largest
  | n + 1, i, largest =>
    maxElement cmp key n (i + 1) (if cmp (key largest) (key i) then i else largest)

/-- **The first largest element** is a position of the range, and nothing there is larger. -/
theorem maxElement_spec (h : StrictWeak cmp) (key : ℕ → α) (n : ℕ) :
    ∀ i largest, (maxElement cmp key n i largest = largest ∨
        i ≤ maxElement cmp key n i largest ∧ maxElement cmp key n i largest < i + n) ∧
      cmp (key (maxElement cmp key n i largest)) (key largest) = false ∧
      ∀ j, i ≤ j → j < i + n → cmp (key (maxElement cmp key n i largest)) (key j) = false := by
  induction n with
  | zero =>
    intro i largest
    exact ⟨Or.inl rfl, h.refl _, fun j h₁ h₂ => absurd h₂ (by omega)⟩
  | succ n ih =>
    intro i largest
    rw [maxElement]
    by_cases hc : cmp (key largest) (key i) = true
    · rw [if_pos hc]
      obtain ⟨hpos, hle, hmax⟩ := ih (i + 1) i
      refine ⟨Or.inr ?_, h.trans hle (h.asymm hc), fun j h₁ h₂ => ?_⟩
      · rcases hpos with hpos | hpos <;> omega
      · rcases Nat.eq_or_lt_of_le h₁ with rfl | hlt
        · exact hle
        · exact hmax j hlt (by omega)
    · rw [if_neg hc]
      obtain ⟨hpos, hle, hmax⟩ := ih (i + 1) largest
      refine ⟨hpos.imp id fun hp => by omega, hle, fun j h₁ h₂ => ?_⟩
      rcases Nat.eq_or_lt_of_le h₁ with rfl | hlt
      · exact h.trans hle (Bool.not_eq_true _ ▸ hc)
      · exact hmax j hlt (by omega)

end SourceLibs.Compare
