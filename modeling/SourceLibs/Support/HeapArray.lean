import SourceLibs.Support.Compare

/-!
# Support — order in a heap kept in an array

Position `i` has the children `i * D + 1, …, i * D + D`.  `Ordered` is the heap order of the keys
at positions below `n`.  `Hole` is the order with one position left out: the pairs that do not
touch it are in order, and so are its parent and its children across it.  A hole does not depend on
its own key, and moves with a swap along an edge of the tree.

* `Ordered.hole`, `Hole.ordered`: leaving a position out and putting it back.
* `Hole.swap_up`, `Hole.swap_down`: the hole moves to the parent, or to a largest child.
* `Ordered.root_max`: nothing is larger than the root.
-/

namespace SourceLibs.HeapArray
open Compare

variable {α : Type*} {cmp : α → α → Bool} {D n : ℕ} {key : ℕ → α} {i : ℕ}

/-- The position of the parent. -/
def parent (D i : ℕ) : ℕ := (i - 1) / D

theorem parent_lt {j : ℕ} (h : 0 < j) : parent D j < j :=
  lt_of_le_of_lt (Nat.div_le_self _ _) (by omega)

theorem parent_eq_iff (hD : 0 < D) {c : ℕ} (hc : 0 < c) :
    parent D c = i ↔ i * D + 1 ≤ c ∧ c < i * D + 1 + D := by
  rw [parent, Nat.div_eq_iff hD]
  omega

/-- The heap order. -/
def Ordered (cmp : α → α → Bool) (D n : ℕ) (key : ℕ → α) : Prop :=
  ∀ j, 0 < j → j < n → cmp (key (parent D j)) (key j) = false

/-- The heap order, position `i` left out. -/
structure Hole (cmp : α → α → Bool) (D n : ℕ) (key : ℕ → α) (i : ℕ) : Prop where
  off : ∀ j, 0 < j → j < n → j ≠ i → parent D j ≠ i → cmp (key (parent D j)) (key j) = false
  across : 0 < i → ∀ c, 0 < c → c < n → parent D c = i → cmp (key (parent D i)) (key c) = false

/-- The key at `i` is not less than those at its children. -/
def Over (cmp : α → α → Bool) (D n : ℕ) (key : ℕ → α) (i : ℕ) : Prop :=
  ∀ c, 0 < c → c < n → parent D c = i → cmp (key i) (key c) = false

/-- The key at the parent of `i` is not less than that at `i`. -/
def Under (cmp : α → α → Bool) (D : ℕ) (key : ℕ → α) (i : ℕ) : Prop :=
  0 < i → cmp (key (parent D i)) (key i) = false

theorem getD_swap {l : List α} {i j : ℕ} (d : α) (hi : i < l.length) (hj : j < l.length) (k : ℕ) :
    ((l.set i (l.getD j d)).set j (l.getD i d)).getD k d =
      if k = j then l.getD i d else if k = i then l.getD j d else l.getD k d := by
  rw [List.getD_eq_getElem?_getD, List.getElem?_set, List.getElem?_set]
  simp only [List.length_set]
  by_cases hkj : k = j
  · subst hkj
    simp [hj]
  · rw [if_neg (fun e => hkj e.symm), if_neg hkj]
    by_cases hki : k = i
    · subst hki
      simp [hi]
    · rw [if_neg (fun e => hki e.symm), if_neg hki, ← List.getD_eq_getElem?_getD]

/-- Two keys exchanged. -/
def swapKeys (key : ℕ → α) (i j : ℕ) : ℕ → α :=
  fun k => if k = i then key j else if k = j then key i else key k

theorem swapKeys_left (key : ℕ → α) (i j : ℕ) : swapKeys key i j i = key j := if_pos rfl

theorem swapKeys_right (key : ℕ → α) (i j : ℕ) : swapKeys key i j j = key i := by
  unfold swapKeys
  split
  · rename_i h
    rw [h]
  · exact if_pos rfl

theorem swapKeys_other {key : ℕ → α} {i j k : ℕ} (hi : k ≠ i) (hj : k ≠ j) :
    swapKeys key i j k = key k := by rw [swapKeys, if_neg hi, if_neg hj]

theorem Ordered.hole (hw : StrictWeak cmp) (h : Ordered cmp D n key) (hi : i < n) :
    Hole cmp D n key i where
  off := fun j h₀ hj _ _ => h j h₀ hj
  across := fun h₀ c hc hcn hp => by
    have hpc := h c hc hcn
    rw [hp] at hpc
    exact hw.trans (h i h₀ hi) hpc

theorem Hole.ordered (h : Hole cmp D n key i) (hover : Over cmp D n key i)
    (hunder : Under cmp D key i) : Ordered cmp D n key := by
  intro j h₀ hj
  by_cases hji : j = i
  · subst hji
    exact hunder h₀
  · by_cases hp : parent D j = i
    · rw [hp]
      exact hover j h₀ hj hp
    · exact h.off j h₀ hj hji hp

theorem Hole.congr (h : Hole cmp D n key i) {key' : ℕ → α} (he : ∀ k < n, k ≠ i → key' k = key k) :
    Hole cmp D n key' i where
  off := fun j h₀ hj hji hp => by
    rw [he j hj hji, he _ ((parent_lt h₀).trans hj) hp]
    exact h.off j h₀ hj hji hp
  across := fun h₀ c hc hcn hp => by
    have hlt : i < c := hp ▸ parent_lt hc
    rw [he c hcn (by omega), he _ ((parent_lt h₀).trans (hlt.trans hcn)) (parent_lt h₀).ne]
    exact h.across h₀ c hc hcn hp

theorem Hole.mono (h : Hole cmp D n key i) {m : ℕ} (hm : m ≤ n) : Hole cmp D m key i where
  off := fun j h₀ hj => h.off j h₀ (hj.trans_le hm)
  across := fun h₀ c hc hcm => h.across h₀ c hc (hcm.trans_le hm)

/-- **The hole moves up.** -/
theorem Hole.swap_up (hw : StrictWeak cmp) (h : Hole cmp D n key i) (h₀ : 0 < i) (hi : i < n) :
    Hole cmp D n (swapKeys key (parent D i) i) (parent D i) := by
  have hpi : parent D i < i := parent_lt h₀
  have hedge : 0 < parent D i → cmp (key (parent D (parent D i))) (key (parent D i)) = false :=
    fun hp => h.off _ hp (hpi.trans hi) hpi.ne ((parent_lt hp).trans hpi).ne
  refine ⟨fun j hj₀ hj hjp hpj => ?_, fun hp c hc hcn hcp => ?_⟩
  · have hji : j ≠ i := fun e => hpj (by rw [e])
    rw [swapKeys_other hjp hji]
    by_cases he : parent D j = i
    · rw [he, swapKeys_right]
      exact h.across h₀ j hj₀ hj he
    · rw [swapKeys_other hpj he]
      exact h.off j hj₀ hj hji he
  · have hpp := parent_lt (D := D) hp
    rw [swapKeys_other hpp.ne (hpp.trans hpi).ne]
    by_cases he : c = i
    · subst he
      rw [swapKeys_right]
      exact hedge hp
    · have hlt : parent D i < c := hcp ▸ parent_lt hc
      rw [swapKeys_other hlt.ne' he]
      have hpc := h.off c hc hcn he (by rw [hcp]; exact hpi.ne)
      rw [hcp] at hpc
      exact hw.trans (hedge hp) hpc

/-- A key larger than its parent's is not less than the keys below the position it moves to. -/
theorem Hole.over_up (hw : StrictWeak cmp) (h : Hole cmp D n key i) (h₀ : 0 < i)
    (hlt : cmp (key (parent D i)) (key i) = true) :
    Over cmp D n (swapKeys key (parent D i) i) (parent D i) := by
  have hpi : parent D i < i := parent_lt h₀
  intro c hc hcn hcp
  rw [swapKeys_left]
  by_cases he : c = i
  · subst he
    rw [swapKeys_right]
    exact hw.asymm hlt
  · have hpc : parent D i < c := hcp ▸ parent_lt hc
    rw [swapKeys_other hpc.ne' he]
    have hedge := h.off c hc hcn he (by rw [hcp]; exact hpi.ne)
    rw [hcp] at hedge
    exact hw.trans_lt hlt hedge

/-- A key larger than its parent's is not less than those below it. -/
theorem Hole.over_of_lt (hw : StrictWeak cmp) (h : Hole cmp D n key i) (h₀ : 0 < i)
    (hlt : cmp (key (parent D i)) (key i) = true) : Over cmp D n key i :=
  fun c hc hcn hp => hw.trans_lt hlt (h.across h₀ c hc hcn hp)

/-- **The hole moves down**, to a child no other child is larger than. -/
theorem Hole.swap_down (h : Hole cmp D n key i) {m : ℕ} (hm₀ : 0 < m) (hm : m < n)
    (hp : parent D m = i) (hmax : ∀ c, 0 < c → c < n → parent D c = i → cmp (key m) (key c) = false) :
    Hole cmp D n (swapKeys key m i) m := by
  have him : i < m := hp ▸ parent_lt hm₀
  refine ⟨fun j hj₀ hj hjm hpj => ?_, fun _ c hc hcn hcm => ?_⟩
  · by_cases hji : j = i
    · subst hji
      rw [swapKeys_right, swapKeys_other hpj (parent_lt hj₀).ne]
      exact h.across hj₀ m hm₀ hm hp
    · rw [swapKeys_other hjm hji]
      by_cases he : parent D j = i
      · rw [he, swapKeys_right]
        exact hmax j hj₀ hj he
      · rw [swapKeys_other hpj he]
        exact h.off j hj₀ hj hji he
  · have hmc : m < c := hcm ▸ parent_lt hc
    rw [hp, swapKeys_right, swapKeys_other hmc.ne' (him.trans hmc).ne']
    have hedge := h.off c hc hcn (him.trans hmc).ne' (by rw [hcm]; exact him.ne')
    rwa [hcm] at hedge

theorem Ordered.root_max (hw : StrictWeak cmp) (h : Ordered cmp D n key) :
    ∀ j < n, cmp (key 0) (key j) = false := by
  intro j
  induction j using Nat.strong_induction_on with
  | h j ih =>
    intro hj
    rcases Nat.eq_zero_or_pos j with rfl | h₀
    · exact hw.refl _
    · exact hw.trans (ih _ (parent_lt h₀) ((parent_lt h₀).trans hj)) (h j h₀ hj)

end SourceLibs.HeapArray
