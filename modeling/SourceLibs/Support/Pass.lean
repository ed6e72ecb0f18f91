import SourceLibs.Support.Radix
import Mathlib.Logic.Function.Basic

/-!
# Support — Pass

A pass over an array in place.  `pass g k i (f, c)` visits the `k` cells from `i` upwards; at
cell `j` it computes, from the carried value and what the cell holds, the cell's new content and
the next carried value.  The cell is read before it is written and no other cell is read, so an
operand that shares its storage with the array is seen as it was before the pass: aliasing is
settled here, once.

* `pass_eq`: a pass whose effect is known cell by cell.
* `pass_outside`: the cells off `[i, i + k)` keep their content.
* `pass_induct`: the invariant rule.
* `pass_value`: a step that preserves `digit + B · carry` adds up to a statement about
  positional values, whichever ring the carry is read in.
-/

namespace SourceLibs
open Function Radix

variable {σ γ : Type*} {g : γ → ℕ → σ → σ × γ}

/-- Visit cells `i, …, i + k - 1` in this order, rewriting each and carrying a value along. -/
def pass (g : γ → ℕ → σ → σ × γ) : ℕ → ℕ → (ℕ → σ) × γ → (ℕ → σ) × γ
  | 0, _, s => s
  | k + 1, i, s =>
    let out := g s.2 i (s.1 i)
    pass g k (i + 1) (update s.1 i out.1, out.2)

@[simp] theorem pass_zero (g : γ → ℕ → σ → σ × γ) (i : ℕ) (s : (ℕ → σ) × γ) :
    pass g 0 i s = s := rfl

theorem pass_succ (g : γ → ℕ → σ → σ × γ) (k i : ℕ) (f : ℕ → σ) (c : γ) :
    pass g (k + 1) i (f, c) =
      pass g k (i + 1) (update f i (g c i (f i)).1, (g c i (f i)).2) := rfl

theorem pass_outside (g : γ → ℕ → σ → σ × γ) :
    ∀ (k i : ℕ) (f : ℕ → σ) (c : γ) {j : ℕ}, (j < i ∨ i + k ≤ j) →
      (pass g k i (f, c)).1 j = f j
  | 0, _, _, _, _, _ => rfl
  | k + 1, i, f, c, j, h => by
    rw [pass_succ, pass_outside g k (i + 1) _ _ (by omega),
      update_of_ne (by omega)]

theorem pass_eq {K : ℕ → γ} {F : ℕ → σ} :
    ∀ {k i : ℕ} {f : ℕ → σ}, (∀ j, i ≤ j → j < i + k → g (K j) j (f j) = (F j, K (j + 1))) →
      pass g k i (f, K i) = (fun j => if i ≤ j ∧ j < i + k then F j else f j, K (i + k))
  | 0, i, f, _ => by
    refine Prod.ext (funext fun j => ?_) rfl
    exact (if_neg (by omega)).symm
  | k + 1, i, f, h => by
    have hne : ∀ j, i + 1 ≤ j → update f i (F i) j = f j := fun j hj =>
      update_of_ne (by omega) _ _
    rw [pass_succ, h i le_rfl (by omega), pass_eq (F := F) fun j h₁ h₂ => by
      rw [hne j h₁]
      exact h j (by omega) (by omega)]
    refine Prod.ext (funext fun j => ?_) (congrArg K (by omega))
    by_cases hj : j = i
    · subst hj
      simp
    · have hiff : (i + 1 ≤ j ∧ j < i + 1 + k) ↔ (i ≤ j ∧ j < i + (k + 1)) := by omega
      simp only [update_of_ne hj, hiff]

/-- A step that leaves the carried value alone rewrites each cell by itself. -/
theorem pass_map {h : ℕ → σ → σ} {c : γ} (hg : ∀ j x, g c j x = (h j x, c)) (k i : ℕ) (f : ℕ → σ) :
    pass g k i (f, c) = (fun j => if i ≤ j ∧ j < i + k then h j (f j) else f j, c) :=
  pass_eq (K := fun _ => c) (F := fun j => h j (f j)) fun j _ _ => hg j (f j)

/-- **The invariant rule.**  `P j f' c'` is to hold before cell `j` is visited, where `f'` still
agrees with the initial array from `j` on. -/
theorem pass_induct {g : γ → ℕ → σ → σ × γ} {P : ℕ → (ℕ → σ) → γ → Prop} {k i : ℕ}
    {f : ℕ → σ} {c : γ} (h₀ : P i f c)
    (hs : ∀ j f' c', i ≤ j → j < i + k → P j f' c' →
      P (j + 1) (update f' j (g c' j (f j)).1) (g c' j (f j)).2) :
    P (i + k) (pass g k i (f, c)).1 (pass g k i (f, c)).2 := by
  -- generalised to a current array that agrees with `f` from `i` on
  suffices h : ∀ (k i : ℕ) (f' : ℕ → σ) (c : γ), (∀ j, i ≤ j → f' j = f j) → P i f' c →
      (∀ j f' c', i ≤ j → j < i + k → P j f' c' →
        P (j + 1) (update f' j (g c' j (f j)).1) (g c' j (f j)).2) →
      P (i + k) (pass g k i (f', c)).1 (pass g k i (f', c)).2 from
    h k i f c (fun _ _ => rfl) h₀ hs
  clear h₀ hs
  intro k
  induction k with
  | zero => intro i f' c _ h _; exact h
  | succ k ih =>
    intro i f' c hf h₀ hs
    rw [pass_succ, ← Nat.add_assoc, Nat.add_right_comm]
    refine ih (i + 1) _ _ (fun j hj => ?_) ?_ fun j f' c' h₁ h₂ => hs j f' c' (by omega) (by omega)
    · rw [update_of_ne (by omega)]
      exact hf j (by omega)
    · rw [hf i le_rfl]
      exact hs i f' c le_rfl (by omega) h₀

/-- **A pass that preserves `digit + B · carry`**, in positional values.  `δ` reads a cell, `κ`
reads the carried value, `φ j x` is what the step adds at cell `j` holding `x`. -/
theorem pass_value {g : γ → ℕ → σ → σ × γ} {P : γ → Prop} {B : ℤ} {δ : σ → ℤ} {κ : γ → ℤ}
    {φ : ℕ → σ → ℤ} {k i : ℕ} {f : ℕ → σ} {c : γ} (hc : P c)
    (hs : ∀ c' j, i ≤ j → j < i + k → P c' → P (g c' j (f j)).2 ∧
      δ (g c' j (f j)).1 + B * κ (g c' j (f j)).2 = κ c' + φ j (f j)) :
    P (pass g k i (f, c)).2 ∧
      value B (fun j => δ ((pass g k i (f, c)).1 j)) (i + k) +
          κ (pass g k i (f, c)).2 * B ^ (i + k) =
        value B (fun j => δ (f j)) i + κ c * B ^ i +
          B ^ i * value B (fun t => φ (i + t) (f (i + t))) k := by
  have h := pass_induct (g := g) (k := k) (i := i) (f := f) (c := c)
    (P := fun j f' c' => i ≤ j ∧ P c' ∧ value B (fun l => δ (f' l)) j + κ c' * B ^ j =
      value B (fun l => δ (f l)) i + κ c * B ^ i +
        B ^ i * value B (fun t => φ (i + t) (f (i + t))) (j - i))
    ⟨le_rfl, hc, by simp⟩ ?_
  · rw [Nat.add_sub_cancel_left] at h
    exact h.2
  rintro j f' c' h₁ h₂ ⟨-, hp, hv⟩
  obtain ⟨hp', hd⟩ := hs c' j h₁ h₂ hp
  refine ⟨by omega, hp', ?_⟩
  obtain ⟨t, rfl⟩ := Nat.exists_eq_add_of_le h₁
  have hlow : value B (fun l => δ (update f' (i + t) (g c' (i + t) (f (i + t))).1 l)) (i + t) =
      value B (fun l => δ (f' l)) (i + t) :=
    value_congr B fun l hl => by rw [update_of_ne (by omega)]
  rw [Nat.add_sub_cancel_left] at hv
  rw [Nat.add_assoc i t 1, Nat.add_sub_cancel_left, ← Nat.add_assoc, value_succ, value_succ, hlow,
    update_self]
  calc value B (fun l => δ (f' l)) (i + t) + δ (g c' (i + t) (f (i + t))).1 * B ^ (i + t) +
        κ (g c' (i + t) (f (i + t))).2 * B ^ (i + t + 1)
      = value B (fun l => δ (f' l)) (i + t) +
          (δ (g c' (i + t) (f (i + t))).1 + B * κ (g c' (i + t) (f (i + t))).2) * B ^ (i + t) := by
        ring
    _ = value B (fun l => δ (f' l)) (i + t) + κ c' * B ^ (i + t) +
          φ (i + t) (f (i + t)) * B ^ (i + t) := by rw [hd]; ring
    _ = _ := by rw [hv]; ring

end SourceLibs
