import Mathlib.Tactic.TypeStar

/-!
# Support — Runs

A run is a fold whose step may fail.  An invariant of it may speak of the calls that are still to come,
so that what a call asks of the state it finds is part of the invariant.

* `foldlM_keeps`: the invariant rule; a run that keeps an invariant returns.
* `foldlM_simulates`: a run follows another one that returns.
-/

namespace SourceLibs.Runs

universe u v

variable {σ : Type u} {τ ι : Type*} {m : Type u → Type v} [Monad m] [LawfulMonad m]
  {f : σ → ι → m σ}

/-- **The invariant rule.** -/
theorem foldlM_keeps {I : σ → List ι → Prop}
    (hstep : ∀ s i l, I s (i :: l) → ∃ s', f s i = pure s' ∧ I s' l) {l : List ι} {s : σ}
    (h : I s l) : ∃ s', l.foldlM f s = pure s' ∧ I s' [] := by
  induction l generalizing s with
  | nil => exact ⟨s, rfl, h⟩
  | cons i l ih =>
    obtain ⟨s₁, hs₁, h₁⟩ := hstep s i l h
    obtain ⟨s', hs', h'⟩ := ih h₁
    exact ⟨s', by rw [List.foldlM_cons, hs₁, pure_bind, hs'], h'⟩

/-- **Simulation.**  `P` is what the rest of a run asks of the state it finds. -/
theorem foldlM_simulates {g : τ → ι → Option τ} {R : σ → τ → Prop} {P : σ → List ι → Prop}
    (hstep : ∀ s t i l t', R s t → P s (i :: l) → g t i = some t' →
      ∃ s', f s i = pure s' ∧ R s' t' ∧ P s' l) {l : List ι} {s : σ} {t t' : τ}
    (h : R s t) (hm : P s l) (ht : l.foldlM g t = some t') :
    ∃ s', l.foldlM f s = pure s' ∧ R s' t' := by
  have hkeep := foldlM_keeps (f := f) (l := l)
    (I := fun s l => ∃ t, R s t ∧ P s l ∧ l.foldlM g t = some t') ?_ ⟨t, h, hm, ht⟩
  · obtain ⟨s', hs', t₁, hR, -, ht₁⟩ := hkeep
    cases ht₁
    exact ⟨s', hs', hR⟩
  · rintro s i l ⟨t, hR, hm, ht⟩
    rw [List.foldlM_cons, Option.bind_eq_bind, Option.bind_eq_some_iff] at ht
    obtain ⟨t₁, ht₁, ht⟩ := ht
    obtain ⟨s', hs', hR', hm'⟩ := hstep s t i l t₁ hR hm ht₁
    exact ⟨s', hs', t₁, hR', hm', ht⟩

end SourceLibs.Runs
