import Mathlib.Data.List.Basic

/-!
# Support — borders of a list

A *border* of the first `q` elements of `P` is a shorter prefix of `P` they end with.  When `P` was
compared with `C` from `s` on and the first difference is at its element `q`, the longest border
says how far `P` may be moved: nearer starts are excluded, and at the new one the border is known
to agree.

* `Agree.isBorder`: two starts at which `P` agrees make a border.
* `not_agree_of_ne`: the starts that are passed over.
* `isBorder_succ`: the borders of one element more.
* `fits_iff_isBorder_reverse`: moves of the list against its own end, as borders of its reverse.
-/

namespace SourceLibs.Borders

variable {α : Type*} {P C : List α} {s q k b : ℕ}

/-- The first `n` elements of `P` stand in `C` from `s` on. -/
def Agree (P C : List α) (s n : ℕ) : Prop := ∀ t < n, C[s + t]? = P[t]?

/-- The first `k` elements of `P` are the last of its first `q`. -/
def IsBorder (P : List α) (q k : ℕ) : Prop := k < q ∧ Agree P P (q - k) k

/-- The longest border. -/
def IsLongest (P : List α) (q k : ℕ) : Prop := IsBorder P q k ∧ ∀ k', IsBorder P q k' → k' ≤ k

theorem agree_zero (P C : List α) (s : ℕ) : Agree P C s 0 := fun _ h => absurd h (Nat.not_lt_zero _)

theorem Agree.mono (h : Agree P C s q) (hk : k ≤ q) : Agree P C s k :=
  fun t ht => h t (Nat.lt_of_lt_of_le ht hk)

theorem Agree.succ (h : Agree P C s q) (he : C[s + q]? = P[q]?) : Agree P C s (q + 1) := by
  intro t ht
  rcases Nat.lt_succ_iff_lt_or_eq.mp ht with h' | rfl
  · exact h t h'
  · exact he

theorem agree_iff_occurs : Agree P C s P.length ↔ P <+: C.drop s := by
  rw [List.prefix_iff_getElem?]
  constructor
  · intro h t ht
    rw [List.getElem?_drop, h t ht]
    exact List.getElem?_eq_getElem ht
  · intro h t ht
    have := h t ht
    rw [List.getElem?_drop] at this
    rw [this]
    exact (List.getElem?_eq_getElem ht).symm

/-- An occurrence of a list that is not empty lies inside. -/
theorem le_of_agree (h : Agree P C s P.length) (hP : 0 < P.length) : s + P.length ≤ C.length := by
  have hlast := h (P.length - 1) (by omega)
  rw [List.getElem?_eq_getElem (l := P) (by omega)] at hlast
  have := (List.getElem?_eq_some_iff.mp hlast).1
  omega

/-- **Two starts** at which `P` agrees make a border. -/
theorem Agree.isBorder {d : ℕ} (h : Agree P C s q) (hd : 0 < d) (hdq : d ≤ q)
    (h' : Agree P C (s + d) (q - d)) : IsBorder P q (q - d) := by
  refine ⟨by omega, fun t ht => ?_⟩
  rw [show q - (q - d) + t = d + t by omega, ← h (d + t) (by omega), ← h' t ht, Nat.add_assoc]

theorem Agree.move (h : Agree P C s q) (hb : IsBorder P q b) : Agree P C (s + (q - b)) b := by
  intro t ht
  have hlt := hb.1
  rw [Nat.add_assoc, h (q - b + t) (by omega)]
  exact hb.2 t ht

/-- **The starts passed over**: after a difference at element `q`, none before the one the longest
border leads to is an occurrence. -/
theorem not_agree_of_ne (h : Agree P C s q) (hq : q < P.length) (hne : C[s + q]? ≠ P[q]?)
    (hb : ∀ k, IsBorder P q k → k ≤ b) {s' : ℕ} (hs : s ≤ s') (hs' : s' + b < s + q ∨ s' = s) :
    ¬ Agree P C s' P.length := by
  intro h'
  rcases Nat.eq_or_lt_of_le hs with rfl | hlt
  · exact hne (h' q hq)
  · have hborder := h.isBorder (d := s' - s) (by omega) (by omega)
      (by rw [Nat.add_sub_cancel' hs]; exact h'.mono (by omega))
    have := hb _ hborder
    omega

theorem isBorder_zero (P : List α) (hq : 0 < q) : IsBorder P q 0 := ⟨hq, agree_zero _ _ _⟩

/-- **The borders of one element more.** -/
theorem isBorder_succ : IsBorder P (q + 1) (k + 1) ↔ IsBorder P q k ∧ P[k]? = P[q]? := by
  constructor
  · rintro ⟨hlt, h⟩
    have e : q + 1 - (k + 1) = q - k := by omega
    rw [e] at h
    have hk := h k (Nat.lt_add_one k)
    rw [Nat.sub_add_cancel (by omega)] at hk
    exact ⟨⟨by omega, h.mono (Nat.le_add_right k 1)⟩, hk.symm⟩
  · rintro ⟨⟨hlt, h⟩, he⟩
    refine ⟨by omega, ?_⟩
    rw [show q + 1 - (k + 1) = q - k by omega]
    refine h.succ ?_
    rw [Nat.sub_add_cancel (by omega), he]

theorem IsBorder.trans {k' : ℕ} (h : IsBorder P q k) (h' : IsBorder P k k') : IsBorder P q k' := by
  obtain ⟨hlt, hm⟩ := h
  obtain ⟨hlt', hm'⟩ := h'
  refine ⟨by omega, fun t ht => ?_⟩
  have h₁ := hm (k - k' + t) (by omega)
  rw [show q - k + (k - k' + t) = q - k' + t by omega] at h₁
  rw [h₁]
  exact hm' t ht

theorem IsBorder.of_lt {k' : ℕ} (h : IsBorder P q k) (h' : IsBorder P q k') (hlt : k' < k) :
    IsBorder P k k' := by
  refine ⟨hlt, fun t ht => ?_⟩
  have h₁ := h.2 (k - k' + t) (by omega)
  rw [show q - k + (k - k' + t) = q - k' + t by have := h.1; omega, h'.2 t ht] at h₁
  exact h₁.symm

theorem isLongest_succ (h : IsBorder P q k) (he : P[k]? = P[q]?)
    (hmax : ∀ k', IsBorder P q k' → P[k']? = P[q]? → k' ≤ k) : IsLongest P (q + 1) (k + 1) := by
  refine ⟨isBorder_succ.mpr ⟨h, he⟩, fun k' hk' => ?_⟩
  cases k' with
  | zero => exact Nat.zero_le _
  | succ k' =>
    obtain ⟨h₁, h₂⟩ := isBorder_succ.mp hk'
    exact Nat.succ_le_succ (hmax k' h₁ h₂)

theorem isLongest_succ_zero (hnone : ∀ k', IsBorder P q k' → P[k']? ≠ P[q]?) :
    IsLongest P (q + 1) 0 := by
  refine ⟨isBorder_zero P (Nat.succ_pos q), fun k' hk' => ?_⟩
  cases k' with
  | zero => exact Nat.le_refl _
  | succ k' =>
    obtain ⟨h₁, h₂⟩ := isBorder_succ.mp hk'
    exact absurd h₂ (hnone k' h₁)

theorem IsLongest.unique (h : IsLongest P q k) (h' : IsLongest P q b) : k = b :=
  Nat.le_antisymm (h'.2 k h.1) (h.2 b h'.1)

/-! ### Moves -/

/-- Moved by `d`, the list agrees with the part of itself from `j` on. -/
def Fits (P : List α) (j d : ℕ) : Prop :=
  ∀ t, j ≤ t → d ≤ t → t < P.length → P[t - d]? = P[t]?

variable {j d : ℕ}

theorem IsBorder.fits (h : IsBorder P P.length b) (j : ℕ) : Fits P j (P.length - b) := by
  intro t _ hd ht
  have hlt := h.1
  have := h.2 (t - (P.length - b)) (by omega)
  rw [show P.length - b + (t - (P.length - b)) = t by omega] at this
  exact this.symm

theorem Fits.isBorder (h : Fits P j d) (hd : 0 < d) (hj : j ≤ d) (hle : d ≤ P.length) :
    IsBorder P P.length (P.length - d) := by
  refine ⟨by omega, fun t ht => ?_⟩
  have := h (d + t) (by omega) (by omega) (by omega)
  rw [show d + t - d = t by omega] at this
  rw [show P.length - (P.length - d) + t = d + t by omega, this]

/-- **A move up to `j` that fits** is a border of the reversed list. -/
theorem fits_iff_isBorder_reverse (hd : 0 < d) (hdj : d ≤ j) (hj : j ≤ P.length) :
    Fits P j d ↔ IsBorder P.reverse (P.length - j + d) (P.length - j) := by
  have hrev : ∀ t < P.length - j, P.reverse[t]? = P[P.length - 1 - t]? ∧
      P.reverse[d + t]? = P[P.length - 1 - t - d]? := by
    intro t ht
    rw [List.getElem?_reverse (by omega), List.getElem?_reverse (by omega)]
    exact ⟨rfl, by rw [show P.length - 1 - (d + t) = P.length - 1 - t - d by omega]⟩
  constructor
  · refine fun h => ⟨by omega, fun t ht => ?_⟩
    obtain ⟨h₀, h₁⟩ := hrev t ht
    rw [show P.length - j + d - (P.length - j) + t = d + t by omega, h₀, h₁]
    exact h (P.length - 1 - t) (by omega) (by omega) (by omega)
  · rintro ⟨-, h⟩ t hjt hdt ht
    obtain ⟨h₀, h₁⟩ := hrev (P.length - 1 - t) (by omega)
    have := h (P.length - 1 - t) (by omega)
    rw [show P.length - j + d - (P.length - j) + (P.length - 1 - t) = d + (P.length - 1 - t) by omega,
      h₀, h₁, show P.length - 1 - (P.length - 1 - t) = t by omega] at this
    exact this

/-- Among the moves up to `j` that fit, the least one is the distance to a *longest* border. -/
theorem le_of_longest_borders {m : ℕ} (hj : j ≤ P.length)
    (hlong : ∀ i < P.length, ∃ b, IsLongest P.reverse (i + 1) b)
    (hmin : ∀ i < P.length, ∀ b, IsLongest P.reverse (i + 1) b → j + b = P.length → m ≤ i + 1 - b)
    (hpos : 0 < d) (hdj : d ≤ j) (hb : IsBorder P.reverse (P.length - j + d) (P.length - j)) :
    m ≤ d := by
  induction d using Nat.strongRecOn with
  | ind d ih =>
    obtain ⟨b, hlongest⟩ := hlong (P.length - j + d - 1) (by omega)
    have hlongest' := hlongest
    rw [Nat.sub_add_cancel (by omega)] at hlongest
    have hle := hlongest.2 _ hb
    have hlt := hlongest.1.1
    rcases Nat.eq_or_lt_of_le hle with heq | hlt'
    · have := hmin (P.length - j + d - 1) (by omega) b hlongest' (by omega)
      omega
    · -- a shorter move leads to the longest border
      have hshort := hlongest.1.of_lt hb hlt'
      have := ih (b - (P.length - j)) (by omega) (by omega) (by omega)
        (by rwa [show P.length - j + (b - (P.length - j)) = b by omega])
      omega

end SourceLibs.Borders
