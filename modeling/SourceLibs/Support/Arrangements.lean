import SourceLibs.Support.Compare
import Mathlib.Data.List.Forall2
import Mathlib.Data.List.Permutation
import Mathlib.Data.Set.Finite.List

/-!
# Support — arrangements in lexicographic order

Sequences under a strict weak order of their elements.  Two elements may tie, and so may two sequences.

* `Like.not_before`: elements that ascend come first among all arrangements.
* `Next.least`: the arrangement that follows.
* `Advances.restores`, `Advances.visits_all`: going back, and going on from the first to the last.
-/

namespace SourceLibs.Arrangements
open Compare List

variable {α : Type*} (cmp : α → α → Bool)

/-- Elements that do not descend. -/
def Ascending (x : List α) : Prop := x.Pairwise fun a b => cmp b a = false

/-- Elements that do not ascend. -/
def Descending (x : List α) : Prop := x.Pairwise fun a b => cmp a b = false

/-- The lexicographic order. -/
def Before : List α → List α → Prop
  | _, []          => False
  | [], _ :: _     => True
  | a :: x, b :: y => cmp a b = true ∨ cmp b a = false ∧ Before x y

/-- Sequences of elements that tie. -/
def Tied : List α → List α → Prop := Forall₂ fun a b => cmp a b = false ∧ cmp b a = false

/-- Sequences with as many elements less than any, and greater. -/
structure Like (x y : List α) : Prop where
  length_eq : x.length = y.length
  less : ∀ e, x.countP (cmp · e) = y.countP (cmp · e)
  greater : ∀ e, x.countP (cmp e ·) = y.countP (cmp e ·)

/-- The last element that is less than the one behind it gives way to the last that is greater, and what
is behind it is turned around. -/
inductive Next : List α → List α → Prop where
  | mk (pre s₁ s₂ : List α) {a c : α} (descending : Descending cmp (s₁ ++ c :: s₂)) (less : cmp a c = true)
      (rest : ∀ d ∈ s₂, cmp a d = false) :
      Next (pre ++ a :: (s₁ ++ c :: s₂)) (pre ++ c :: (s₁ ++ a :: s₂).reverse)

/-- A function that goes to the next arrangement, or turns the last one around. -/
def Advances (f : List α → Option (List α × Bool)) : Prop :=
  ∀ x, ∃ y, f x = some (y, true) ∧ Next cmp x y ∨ f x = some (y, false) ∧ Descending cmp x ∧ y = x.reverse

/-- The arrangements from one to the last. -/
inductive Visits (f : List α → Option (List α × Bool)) : List α → List (List α) → Prop where
  | last {x y : List α} (last : f x = some (y, false)) : Visits f x [x]
  | step {x y : List α} {ys : List (List α)} (next : f x = some (y, true)) (rest : Visits f y ys) :
    Visits f x (x :: ys)

variable {cmp} {a b e : α} {x y z : List α} {ys : List (List α)} {f g : List α → Option (List α × Bool)}

theorem strictWeak_flip (hw : StrictWeak cmp) : StrictWeak (flip cmp) :=
  ⟨hw.asymm, fun hab hbc => hw.trans hbc hab⟩

theorem ascending_reverse : Ascending cmp x.reverse ↔ Descending cmp x := pairwise_reverse

theorem before_flip : ∀ {x y : List α}, x.length = y.length → (Before (flip cmp) x y ↔ Before cmp y x)
  | [], [], _         => Iff.rfl
  | _ :: _, _ :: _, h => or_congr Iff.rfl (and_congr Iff.rfl (before_flip (Nat.succ.inj h)))

theorem Like.of_perm (h : x.Perm y) : Like cmp x y :=
    ⟨h.length_eq, fun _ => h.countP_eq _, fun _ => h.countP_eq _⟩

theorem Like.flip (h : Like cmp x y) : Like (flip cmp) x y := ⟨h.length_eq, h.greater, h.less⟩

theorem Like.trans (h : Like cmp x y) (h' : Like cmp y z) : Like cmp x z :=
  ⟨h.length_eq.trans h'.length_eq, fun e => (h.less e).trans (h'.less e),
    fun e => (h.greater e).trans (h'.greater e)⟩

section Order
variable (hw : StrictWeak cmp)
include hw

theorem less_congr (hab : cmp a b = false) (hba : cmp b a = false) (e : α) : cmp a e = cmp b e := by
  cases he : cmp b e with
  | false => exact hw.trans hab he
  | true =>
    by_contra hne
    rw [hw.trans hba (Bool.eq_false_of_not_eq_true hne)] at he
    cases he

theorem Like.tail (h : Like cmp (a :: x) (b :: y)) (hab : cmp a b = false) (hba : cmp b a = false) :
    Like cmp x y := by
  refine ⟨Nat.succ.inj h.length_eq, fun e => ?_, fun e => ?_⟩
  · have hcount := h.less e
    rw [countP_cons, countP_cons, less_congr hw hab hba e] at hcount
    exact Nat.add_right_cancel hcount
  · have hcount := h.greater e
    have he : cmp e a = cmp e b := less_congr (strictWeak_flip hw) hba hab e
    rw [countP_cons, countP_cons, he] at hcount
    exact Nat.add_right_cancel hcount

/-- **Elements that ascend** come first. -/
theorem Like.not_before : ∀ {z x : List α}, Like cmp z x → Ascending cmp x → ¬ Before cmp z x
  | [], [], _, _         => id
  | a :: z, b :: x, h, hx => by
    obtain ⟨hb, hx⟩ := pairwise_cons.mp hx
    have hnone : (b :: x).countP (cmp · b) = 0 := by
      rw [countP_eq_zero]
      intro d hd
      rcases mem_cons.mp hd with rfl | hd
      · simp [hw.refl d]
      · simp [hb d hd]
    rw [← h.less b, countP_eq_zero] at hnone
    have hab : cmp a b = false := Bool.eq_false_of_not_eq_true (hnone a mem_cons_self)
    rintro (hlt | ⟨hba, htail⟩)
    · rw [hab] at hlt
      cases hlt
    · exact Like.not_before (h.tail hw hab hba) hx htail

/-- **Elements that descend** come last. -/
theorem Like.not_after (h : Like cmp z x) (hx : Descending cmp x) : ¬ Before cmp x z := by
  rw [← before_flip h.length_eq]
  exact h.flip.not_before (strictWeak_flip hw) hx

omit hw in
theorem tied_of_not_before : ∀ {x y : List α}, x.length = y.length → ¬ Before cmp x y → ¬ Before cmp y x →
    Tied cmp x y
  | [], [], _, _, _         => .nil
  | a :: x, b :: y, h, hxy, hyx => by
    obtain ⟨hab, hxy⟩ := not_or.mp hxy
    obtain ⟨hba, hyx⟩ := not_or.mp hyx
    rw [Bool.not_eq_true] at hab hba
    exact .cons ⟨hab, hba⟩ (tied_of_not_before (Nat.succ.inj h) (fun hlt => hxy ⟨hba, hlt⟩)
      fun hlt => hyx ⟨hab, hlt⟩)

theorem Before.irrefl : ∀ {x : List α}, ¬ Before cmp x x
  | []    => id
  | a :: x => by
    rintro (h | ⟨-, h⟩)
    · rw [hw.refl a] at h
      cases h
    · exact Before.irrefl h

theorem Before.trans : ∀ {x y z : List α}, Before cmp x y → Before cmp y z → Before cmp x z
  | [], [], _, hxy, _               => hxy.elim
  | _ :: _, [], _, hxy, _           => hxy.elim
  | _, _ :: _, [], _, hyz           => hyz.elim
  | [], _ :: _, _ :: _, _, _        => trivial
  | a :: x, b :: y, c :: z, hxy, hyz => by
    have hless : cmp b a = false → cmp c b = false → cmp a b = true ∨ cmp b c = true → cmp a c = true := by
      intro hba hcb hor
      by_contra hac
      have hac : cmp a c = false := Bool.eq_false_of_not_eq_true hac
      rcases hor with hab | hbc
      · rw [hw.trans hac hcb] at hab
        cases hab
      · rw [hw.trans hba hac] at hbc
        cases hbc
    rcases hxy with hab | ⟨hba, hxy⟩
    · rcases hyz with hbc | ⟨hcb, -⟩
      · exact .inl (hless (hw.asymm hab) (hw.asymm hbc) (.inl hab))
      · exact .inl (hless (hw.asymm hab) hcb (.inl hab))
    · rcases hyz with hbc | ⟨hcb, hyz⟩
      · exact .inl (hless hba (hw.asymm hbc) (.inr hbc))
      · exact .inr ⟨hw.trans hcb hba, hxy.trans hyz⟩

theorem Before.not_tied (h : Before cmp x y) (hz : Tied cmp x z) : ¬ Tied cmp y z := by
  induction hz generalizing y with
  | nil =>
    rintro ⟨⟩
    exact h
  | cons hac hxz ih =>
    rintro (_ | ⟨hbc, hyz⟩)
    rcases h with hab | ⟨-, h⟩
    · rw [hw.trans hac.1 hbc.2] at hab
      cases hab
    · exact ih h hyz

/-! ### The arrangement that follows -/

omit hw in
theorem Next.perm (h : Next cmp x y) : y.Perm x := by
  obtain ⟨pre, s₁, s₂, -, -, -⟩ := h
  refine Perm.append_left pre ?_
  calc _ ~ _ :: (s₁ ++ _ :: s₂) := (reverse_perm _).cons _
    _ ~ _ :: _ :: (s₁ ++ s₂) := perm_middle.cons _
    _ ~ _ :: _ :: (s₁ ++ s₂) := .swap ..
    _ ~ _ := perm_middle.symm.cons _

theorem before_append (pre : List α) (h : Before cmp x y) : Before cmp (pre ++ x) (pre ++ y) := by
  induction pre with
  | nil => exact h
  | cons a pre ih => exact .inr ⟨hw.refl a, ih⟩

theorem Next.before (h : Next cmp x y) : Before cmp x y := by
  obtain ⟨pre, s₁, s₂, -, hless, -⟩ := h
  exact before_append hw pre (.inl hless)

theorem ascending_rest {s₁ s₂ : List α} {a c : α} (hdesc : Descending cmp (s₁ ++ c :: s₂))
    (hac : cmp a c = true) (hrest : ∀ d ∈ s₂, cmp a d = false) : Ascending cmp (s₁ ++ a :: s₂).reverse := by
  rw [ascending_reverse]
  obtain ⟨h₁, h₂, hcross⟩ := pairwise_append.mp hdesc
  refine pairwise_append.mpr ⟨h₁, pairwise_cons.mpr ⟨hrest, (pairwise_cons.mp h₂).2⟩, fun d hd b hb => ?_⟩
  rcases mem_cons.mp hb with rfl | hb
  · exact hw.trans (hcross d hd c mem_cons_self) (hw.asymm hac)
  · exact hcross d hd b (mem_cons_of_mem _ hb)

theorem Like.exists_less {c : α} (h : Like cmp (e :: z) x) (hec : cmp e c = true) :
    ∃ d ∈ x, cmp d c = true ∧ cmp d e = false := by
  by_contra hno
  push Not at hno
  have hle : x.countP (cmp · c) ≤ x.countP (cmp · e) := countP_mono_left fun d hd hdc =>
    Bool.eq_true_of_not_eq_false (hno d hd hdc)
  have hmono : z.countP (cmp · e) ≤ z.countP (cmp · c) := countP_mono_left fun d _ hde => by
    by_contra hdc
    rw [hw.trans (Bool.eq_false_of_not_eq_true hdc) (hw.asymm hec)] at hde
    cases hde
  rw [← h.less, ← h.less, countP_cons_of_pos (by exact hec), countP_cons_of_neg (by simp [hw.refl e])] at hle
  omega

/-- **No arrangement** is between one and the next. -/
theorem Next.least (h : Next cmp x y) : ∀ {z : List α}, Like cmp z x → Before cmp x z → ¬ Before cmp z y := by
  obtain ⟨pre, s₁, s₂, hdesc, hac, hrest⟩ := h
  rename_i a c
  induction pre with
  | cons p pre ih =>
    rintro (_ | ⟨e, z⟩) hlike
    · exact fun h => h.elim
    rintro (hpe | ⟨hep, hxz⟩) (hep' | ⟨hpe', hzy⟩)
    · rw [hw.asymm hpe] at hep'
      cases hep'
    · rw [hpe] at hpe'
      cases hpe'
    · rw [hep] at hep'
      cases hep'
    · exact ih (hlike.tail hw hep hpe') hxz hzy
  | nil =>
    rintro (_ | ⟨e, z⟩) hlike
    · exact fun h => h.elim
    have hperm := (Next.mk [] s₁ s₂ hdesc hac hrest).perm
    intro hxz hzy
    by_cases hae : cmp a e = true
    · -- No element is between the two that were exchanged.
      have hec : cmp e c = false := by
        by_contra hec
        obtain ⟨d, hd, hdc, hde⟩ := hlike.exists_less hw (Bool.eq_true_of_not_eq_false hec)
        have had : cmp a d = true := by
          by_contra had
          rw [hw.trans (Bool.eq_false_of_not_eq_true had) hde] at hae
          cases hae
        have hno : ∀ d ∈ a :: (s₁ ++ c :: s₂), cmp a d = false ∨ cmp d c = false := by
          obtain ⟨-, -, hcross⟩ := pairwise_append.mp hdesc
          intro d hd
          rcases mem_cons.mp hd with rfl | hd
          · exact .inl (hw.refl d)
          rcases mem_append.mp hd with hd | hd
          · exact .inr (hcross d hd c mem_cons_self)
          rcases mem_cons.mp hd with rfl | hd
          · exact .inr (hw.refl d)
          · exact .inl (hrest d hd)
        rcases hno d hd with h | h
        · rw [had] at h
          cases h
        · rw [hdc] at h
          cases h
      rcases hzy with hec' | ⟨hce, hzy⟩
      · rw [hec] at hec'
        cases hec'
      have hlike' : Like cmp (e :: z) (c :: (s₁ ++ a :: s₂).reverse) := hlike.trans (.of_perm hperm.symm)
      exact (hlike'.tail hw hec hce).not_before hw (ascending_rest hw hdesc hac hrest) hzy
    · obtain ⟨hea, hxz⟩ := hxz.resolve_left hae
      exact (hlike.tail hw hea (Bool.eq_false_of_not_eq_true hae)).not_after hw hdesc hxz

/-! ### All arrangements -/

omit hw in
theorem Advances.next (hf : Advances cmp f) (h : f x = some (y, true)) : Next cmp x y := by
  obtain ⟨y', ⟨h', hnext⟩ | ⟨h', -⟩⟩ := hf x
  · rw [h, Option.some.injEq, Prod.mk.injEq] at h'
    exact h'.1 ▸ hnext
  · rw [h] at h'
    cases h'

omit hw in
theorem Advances.last (hf : Advances cmp f) (h : f x = some (y, false)) :
    Descending cmp x ∧ y = x.reverse := by
  obtain ⟨y', ⟨h', -⟩ | ⟨h', hdesc, rfl⟩⟩ := hf x
  · rw [h] at h'
    cases h'
  · rw [h, Option.some.injEq, Prod.mk.injEq] at h'
    exact ⟨hdesc, h'.1⟩

/-- **Going back** restores an arrangement, up to ties. -/
theorem Advances.restores (hf : Advances cmp f) (hg : Advances (flip cmp) g) (h : f x = some (y, true)) :
    ∃ z, g y = some (z, true) ∧ Tied cmp z x := by
  have hnext := hf.next h
  have hxy := hnext.before hw
  obtain ⟨z, ⟨hz, hback⟩ | ⟨-, hasc, -⟩⟩ := hg y
  · have hlike : Like cmp z x := .of_perm (hback.perm.trans hnext.perm)
    have hyz := hback.before (strictWeak_flip hw)
    rw [before_flip hback.perm.length_eq.symm] at hyz
    have hlow := hback.least (strictWeak_flip hw) (.of_perm hnext.perm.symm)
    rw [before_flip hnext.perm.length_eq, before_flip hlike.length_eq.symm] at hlow
    exact ⟨z, hz, tied_of_not_before hlike.length_eq (hlow hxy)
      fun hxz => hnext.least hw hlike hxz hyz⟩
  · exact absurd hxy ((Like.of_perm hnext.perm.symm).not_before hw hasc)

omit hw in
theorem Visits.head (h : Visits f x ys) : ∃ ys', ys = x :: ys' := by
  cases h with
  | last => exact ⟨[], rfl⟩
  | step _ _ => exact ⟨_, rfl⟩

omit hw in
theorem Visits.perm (hf : Advances cmp f) (h : Visits f x ys) : y ∈ ys → y ~ x := by
  induction h with
  | last _ => exact fun hy => mem_singleton.mp hy ▸ .refl _
  | step hnext _ ih =>
    intro hy
    rcases mem_cons.mp hy with rfl | hy
    · exact .refl _
    · exact (ih hy).trans (hf.next hnext).perm

/-- **No arrangement is visited twice.** -/
theorem Visits.pairwise (hf : Advances cmp f) (h : Visits f x ys) : ys.Pairwise (Before cmp) := by
  induction h with
  | last _ => exact pairwise_singleton ..
  | step hnext hrest ih =>
    obtain ⟨ys', rfl⟩ := hrest.head
    have hxy := (hf.next hnext).before hw
    refine pairwise_cons.mpr ⟨fun z hz => ?_, ih⟩
    rcases mem_cons.mp hz with rfl | hz
    · exact hxy
    · exact hxy.trans hw ((pairwise_cons.mp ih).1 z hz)

/-- **Every arrangement** that does not come before is visited. -/
theorem Visits.covers (hf : Advances cmp f) (h : Visits f x ys) : ∀ {z : List α}, z.Perm x →
    ¬ Before cmp z x → ∃ y ∈ ys, Tied cmp y z := by
  induction h with
  | @last x y hlast =>
    intro z hz hzx
    exact ⟨x, mem_cons_self, tied_of_not_before hz.length_eq.symm
      ((Like.of_perm hz).not_after hw (hf.last hlast).1) hzx⟩
  | @step x y ys hnext _ ih =>
    intro z hz hzx
    have hnext := hf.next hnext
    by_cases hxz : Before cmp x z
    · obtain ⟨y, hy, htied⟩ := ih (hz.trans hnext.perm.symm) (hnext.least hw (Like.of_perm hz) hxz)
      exact ⟨y, mem_cons_of_mem _ hy, htied⟩
    · exact ⟨x, mem_cons_self, tied_of_not_before hz.length_eq.symm hxz hzx⟩

/-- **The last arrangement** is reached. -/
theorem Advances.exists_visits (hf : Advances cmp f) (x : List α) : ∃ ys, Visits f x ys := by
  have hfin : Finite { z : List α // z.Perm x } :=
    (x.permutations.finite_toSet.subset fun z hz => mem_permutations.mpr hz).to_subtype
  have htrans : IsTrans { z : List α // z.Perm x } fun u v => Before cmp v.1 u.1 :=
    ⟨fun u v w huv hvw => hvw.trans hw huv⟩
  have hirrefl : Std.Irrefl fun u v : { z : List α // z.Perm x } => Before cmp v.1 u.1 :=
    ⟨fun u => Before.irrefl hw⟩
  have hwf := Finite.wellFounded_of_trans_of_irrefl fun u v : { z : List α // z.Perm x } => Before cmp v.1 u.1
  have hall : ∀ u : { z : List α // z.Perm x }, ∃ ys, Visits f u.1 ys := fun u => by
    induction u using hwf.induction with
    | _ u ih =>
      obtain ⟨y, ⟨h, hnext⟩ | ⟨h, -⟩⟩ := hf u.1
      · obtain ⟨ys, hys⟩ := ih ⟨y, hnext.perm.trans u.2⟩ (hnext.before hw)
        exact ⟨_, .step h hys⟩
      · exact ⟨_, .last h⟩
  exact hall ⟨x, .refl x⟩

/-- **From elements that ascend** every arrangement is visited once. -/
theorem Advances.visits_all (hf : Advances cmp f) (hx : Ascending cmp x) : ∃ ys, Visits f x ys ∧
    ∀ z : List α, z.Perm x → ∃! k : ℕ, ∃ y, ys[k]? = some y ∧ Tied cmp y z := by
  obtain ⟨ys, hys⟩ := hf.exists_visits hw x
  refine ⟨ys, hys, fun z hz => ?_⟩
  obtain ⟨y, hy, htied⟩ := hys.covers hw hf hz ((Like.of_perm hz).not_before hw hx)
  obtain ⟨k, hk⟩ := mem_iff_getElem?.mp hy
  refine ⟨k, ⟨y, hk, htied⟩, ?_⟩
  rintro j ⟨y', hj, htied'⟩
  have hpair := pairwise_iff_getElem.mp (hys.pairwise hw hf)
  obtain ⟨hk', rfl⟩ := List.getElem?_eq_some_iff.mp hk
  obtain ⟨hj', rfl⟩ := List.getElem?_eq_some_iff.mp hj
  rcases lt_trichotomy j k with hlt | rfl | hlt
  · exact absurd htied ((hpair j k hj' hk' hlt).not_tied hw htied')
  · rfl
  · exact absurd htied' ((hpair k j hk' hj' hlt).not_tied hw htied)

end Order

end SourceLibs.Arrangements
