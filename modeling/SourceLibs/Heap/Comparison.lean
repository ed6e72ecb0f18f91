import SourceLibs.Support.Compare
import Mathlib.Data.Multiset.UnionInter

/-!
# Heap — comparison of heaps

`heap_comparison.hpp`: equality and order of two heaps with the same comparison object, each in two
versions, one that walks ordered iterators in step and one that pops copies.  A heap is anything
with the operations of a priority queue (`PriorityQueue`), whose laws are those the documentation
of the concept gives.  `none` is undefined behaviour: the top of an empty heap, or the value of an
iterator at the end.

Two heaps with equal values can list equivalent values in different orders, so the two versions see
sequences that agree up to equivalence (`equiv_of_nonincreasing`).

* `copyLoop_eq`, `equivalenceCopyLoop_eq`: popping copies compares the lists that popping yields.
* `compareCopyList_eq`, `compareIterationList_eq`: what either comparison returns.
-/

namespace SourceLibs.Comparison
open List Compare

variable {α : Type*}

/-- The operations of a heap that comparison uses. -/
structure PriorityQueue (cmp : α → α → Bool) (H : Type*) where
  /-- `constant_time_size`. -/
  constantTimeSize : Bool
  size : H → ℕ
  empty : H → Bool
  /-- `top()`, undefined on an empty heap. -/
  top : H → Option α
  pop : H → H
  /-- The values from `ordered_begin()` to `ordered_end()`. -/
  ordered : H → List α
  values : H → Multiset α
  size_eq : ∀ h, size h = (values h).card
  empty_eq : ∀ h, empty h = decide (size h = 0)
  top_of_empty : ∀ h, values h = 0 → top h = none
  top_max : ∀ h, values h ≠ 0 → ∃ v, top h = some v ∧ ∀ u ∈ values h, cmp v u = false
  pop_values : ∀ h v, top h = some v → values h = v ::ₘ values (pop h)
  ordered_values : ∀ h, (ordered h : Multiset α) = values h
  ordered_nonincreasing : ∀ h, (ordered h).Pairwise fun a b => cmp a b = false

section Model

variable {cmp : α → α → Bool} {H₁ H₂ : Type*} (P : PriorityQueue cmp H₁) (Q : PriorityQueue cmp H₂)

/-- `value_equality`: neither is less. -/
def valueEquality (cmp : α → α → Bool) (lval rval : α) : Bool := !cmp lval rval && !cmp rval lval

/-- The loop of `heap_equivalence_copy`; the size bounds the number of rounds. -/
def equivalenceCopyLoop : ℕ → H₁ → H₂ → Option Bool
  | 0, _, _ => none
  | fuel + 1, lhs, rhs =>
    match P.top lhs, Q.top rhs with
    | some lval, some rval =>
      if !valueEquality cmp lval rval then some false
      else
        let lhs := P.pop lhs
        let rhs := Q.pop rhs
        if P.empty lhs && Q.empty rhs then some true
        else if P.empty lhs then some false
        else if Q.empty rhs then some false
        else equivalenceCopyLoop fuel lhs rhs
    | _, _ => none

/-- The checks both versions of equality begin with. -/
def equivalenceStart (lhs : H₁) (rhs : H₂) (loop : Option Bool) : Option Bool :=
  if P.constantTimeSize && Q.constantTimeSize && P.size lhs != Q.size rhs then some false
  else if P.empty lhs && Q.empty rhs then some true
  else loop

/-- `heap_equality`, with copies. -/
def heapEquivalenceCopy (lhs : H₁) (rhs : H₂) : Option Bool :=
  equivalenceStart P Q lhs rhs (equivalenceCopyLoop P Q (P.size lhs) lhs rhs)

/-- The loop of `heap_equivalence_iteration`. -/
def equivalenceIterationLoop (cmp : α → α → Bool) : List α → List α → Option Bool
  | x :: xs, y :: ys =>
    if !valueEquality cmp x y then some false
    else if xs.isEmpty && ys.isEmpty then some true
    else if xs.isEmpty || ys.isEmpty then some false
    else equivalenceIterationLoop cmp xs ys
  | _, _ => none

/-- `heap_equality`, with ordered iterators. -/
def heapEquivalenceIteration (lhs : H₁) (rhs : H₂) : Option Bool :=
  equivalenceStart P Q lhs rhs (equivalenceIterationLoop cmp (P.ordered lhs) (Q.ordered rhs))

/-- The sizes decide first. -/
def compareStart (lhs : H₁) (rhs : H₂) (loop : Option Bool) : Option Bool :=
  if P.size lhs < Q.size rhs then some true
  else if Q.size rhs < P.size lhs then some false
  else loop

/-- The loop of `heap_compare_iteration`. -/
def compareIterationLoop (cmp : α → α → Bool) : List α → List α → Option Bool
  | x :: xs, y :: ys =>
    if cmp x y then some true
    else if cmp y x then some false
    else if xs.isEmpty && ys.isEmpty then some true
    else if xs.isEmpty || ys.isEmpty then some false
    else compareIterationLoop cmp xs ys
  | _, _ => none

/-- `heap_compare`, with ordered iterators. -/
def heapCompareIteration (lhs : H₁) (rhs : H₂) : Option Bool :=
  compareStart P Q lhs rhs (compareIterationLoop cmp (P.ordered lhs) (Q.ordered rhs))

/-- The loop of `heap_compare_copy`. -/
def compareCopyLoop : ℕ → H₁ → H₂ → Option Bool
  | 0, _, _ => none
  | fuel + 1, lhs, rhs =>
    match P.top lhs, Q.top rhs with
    | some lval, some rval =>
      if cmp lval rval then some true
      else if cmp rval lval then some false
      else
        let lhs := P.pop lhs
        let rhs := Q.pop rhs
        if P.empty lhs && Q.empty rhs then some false else compareCopyLoop fuel lhs rhs
    | _, _ => none

/-- `heap_compare`, with copies. -/
def heapCompareCopy (lhs : H₁) (rhs : H₂) : Option Bool :=
  compareStart P Q lhs rhs (compareCopyLoop P Q (P.size lhs) lhs rhs)

end Model

/-! ### Sequences -/

section Sequences

variable {cmp : α → α → Bool} {l r : List α}

/-- Lexicographic order of sequences of the same length. -/
def lexLess (cmp : α → α → Bool) : List α → List α → Bool
  | x :: xs, y :: ys => cmp x y || (!cmp y x && lexLess cmp xs ys)
  | _, _ => false

/-- Equivalence, value by value. -/
def equivalent (cmp : α → α → Bool) : List α → List α → Bool
  | [], [] => true
  | x :: xs, y :: ys => valueEquality cmp x y && equivalent cmp xs ys
  | _, _ => false

theorem valueEquality_iff {a b : α} :
    valueEquality cmp a b = true ↔ cmp a b = false ∧ cmp b a = false := by
  simp [valueEquality]

theorem equivalent_cases (h : equivalent cmp l r = true) :
    (l = [] ∧ r = []) ∨ ∃ x xs y ys, l = x :: xs ∧ r = y :: ys ∧ valueEquality cmp x y = true ∧
      equivalent cmp xs ys = true := by
  cases l with
  | nil =>
    cases r with
    | nil => exact Or.inl ⟨rfl, rfl⟩
    | cons y ys => cases h
  | cons x xs =>
    cases r with
    | nil => cases h
    | cons y ys =>
      rw [equivalent, Bool.and_eq_true] at h
      exact Or.inr ⟨x, xs, y, ys, rfl, rfl, h.1, h.2⟩

theorem equivalent_length (h : equivalent cmp l r = true) : l.length = r.length := by
  induction l generalizing r with
  | nil =>
    obtain ⟨-, rfl⟩ | ⟨x, xs, y, ys, hx, -⟩ := equivalent_cases h
    · rfl
    · cases hx
  | cons x xs ih =>
    obtain ⟨hl, -⟩ | ⟨x, xs, y, ys, hx, rfl, -, hs⟩ := equivalent_cases h
    · cases hl
    · cases hx
      rw [length_cons, length_cons, ih hs]

theorem equivalent_of_length_ne (h : l.length ≠ r.length) : equivalent cmp l r = false :=
  Bool.eq_false_iff.mpr fun he => h (equivalent_length he)

/-- A comparison does not tell equivalent values apart. -/
theorem cmp_congr (hw : StrictWeak cmp) {a a' b b' : α} (ha : valueEquality cmp a a' = true)
    (hb : valueEquality cmp b b' = true) : cmp a b = cmp a' b' := by
  rw [valueEquality_iff] at ha hb
  have key : ∀ {a a' b b' : α}, cmp a a' = false → cmp b' b = false → cmp a' b' = false →
      cmp a b = false := fun h₁ h₂ h₃ => hw.trans (hw.trans h₁ h₃) h₂
  cases h : cmp a' b' with
  | false => exact key ha.1 hb.2 h
  | true =>
    cases h' : cmp a b with
    | true => rfl
    | false => exact absurd (key ha.2 hb.1 h') (by rw [h]; decide)

/-- Sequences equivalent to the arguments compare as they do. -/
theorem lexLess_congr (hw : StrictWeak cmp) {l l' r r' : List α} (hl : equivalent cmp l l' = true)
    (hr : equivalent cmp r r' = true) : lexLess cmp l r = lexLess cmp l' r' := by
  induction l generalizing l' r r' with
  | nil =>
    obtain ⟨-, rfl⟩ | ⟨x, xs, y, ys, hx, -⟩ := equivalent_cases hl
    · cases r <;> cases r' <;> rfl
    · cases hx
  | cons x xs ih =>
    obtain ⟨hnil, -⟩ | ⟨x, xs, x', xs', he, rfl, hx, hxs⟩ := equivalent_cases hl
    · cases hnil
    · cases he
      obtain ⟨rfl, rfl⟩ | ⟨y, ys, y', ys', rfl, rfl, hy, hys⟩ := equivalent_cases hr
      · rfl
      · rw [lexLess, lexLess, cmp_congr hw hx hy, cmp_congr hw hy hx, ih hxs hys]

theorem equivalent_congr (hw : StrictWeak cmp) {l l' r r' : List α} (hl : equivalent cmp l l' = true)
    (hr : equivalent cmp r r' = true) : equivalent cmp l r = equivalent cmp l' r' := by
  induction l generalizing l' r r' with
  | nil =>
    obtain ⟨-, rfl⟩ | ⟨x, xs, y, ys, hx, -⟩ := equivalent_cases hl
    · obtain ⟨rfl, rfl⟩ | ⟨y, ys, y', ys', rfl, rfl, -⟩ := equivalent_cases hr <;> rfl
    · cases hx
  | cons x xs ih =>
    obtain ⟨hnil, -⟩ | ⟨x, xs, x', xs', he, rfl, hx, hxs⟩ := equivalent_cases hl
    · cases hnil
    · cases he
      obtain ⟨rfl, rfl⟩ | ⟨y, ys, y', ys', rfl, rfl, hy, hys⟩ := equivalent_cases hr
      · rfl
      · rw [equivalent, equivalent, valueEquality, valueEquality, cmp_congr hw hx hy,
          cmp_congr hw hy hx, ih hxs hys]

/-- How many values of a non-increasing sequence are not less than `x`. -/
theorem lt_countP_iff (hw : StrictWeak cmp) (x : α) {l : List α}
    (h : l.Pairwise fun a b => cmp a b = false) {i : ℕ} (hi : i < l.length) :
    i < l.countP (fun a => !cmp a x) ↔ cmp l[i] x = false := by
  induction l generalizing i with
  | nil => exact absurd hi (Nat.not_lt_zero i)
  | cons a l ih =>
    rw [pairwise_cons] at h
    rw [countP_cons]
    cases i with
    | zero =>
      cases ha : cmp a x with
      | false => simp [ha]
      | true =>
        have hz : l.countP (fun a => !cmp a x) = 0 := by
          rw [countP_eq_zero]
          intro b hb
          have : cmp b x = true := by
            cases hbx : cmp b x with
            | true => rfl
            | false => exact absurd (hw.trans (h.1 b hb) hbx) (by rw [ha]; decide)
          simp [this]
        simp [ha, hz]
    | succ i =>
      have hi' : i < l.length := by simpa using hi
      have := ih h.2 hi'
      cases ha : cmp a x with
      | false => simpa using this
      | true =>
        have hlater : cmp l[i] x = true := by
          cases hbx : cmp l[i] x with
          | true => rfl
          | false =>
            exact absurd (hw.trans (h.1 _ (getElem_mem hi')) hbx) (by rw [ha]; decide)
        rw [hlater] at this
        simp [hlater] at this ⊢
        omega

/-- Two sequences of the same length, position by position. -/
theorem equivalent_of_getElem (hlen : l.length = r.length)
    (h : ∀ i (hl : i < l.length) (hr : i < r.length), valueEquality cmp l[i] r[i] = true) :
    equivalent cmp l r = true := by
  induction l generalizing r with
  | nil =>
    cases r with
    | nil => rfl
    | cons y ys => cases hlen
  | cons x xs ih =>
    cases r with
    | nil => cases hlen
    | cons y ys =>
      rw [equivalent, Bool.and_eq_true]
      refine ⟨h 0 (Nat.succ_pos _) (Nat.succ_pos _), ih (by simpa using hlen) fun i hl hr => ?_⟩
      exact h (i + 1) (Nat.succ_lt_succ hl) (Nat.succ_lt_succ hr)

/-- **The non-increasing sequence** of given values is unique up to equivalence. -/
theorem equivalent_of_nonincreasing (hw : StrictWeak cmp) (hp : l.Perm r)
    (hl : l.Pairwise fun a b => cmp a b = false) (hr : r.Pairwise fun a b => cmp a b = false) :
    equivalent cmp l r = true := by
  refine equivalent_of_getElem hp.length_eq fun i h₁ h₂ => valueEquality_iff.mpr ⟨?_, ?_⟩
  · rw [← lt_countP_iff hw r[i] hl h₁, hp.countP_eq, lt_countP_iff hw r[i] hr h₂]
    exact hw.refl _
  · rw [← lt_countP_iff hw l[i] hr h₂, ← hp.countP_eq, lt_countP_iff hw l[i] hl h₁]
    exact hw.refl _

end Sequences

/-! ### The loops, as functions of the sequences -/

section Loops

variable {cmp : α → α → Bool}

/-- `heap_compare_copy` on what popping yields. -/
def compareCopyList (cmp : α → α → Bool) : List α → List α → Option Bool
  | x :: xs, y :: ys =>
    if cmp x y then some true
    else if cmp y x then some false
    else if xs.isEmpty && ys.isEmpty then some false
    else compareCopyList cmp xs ys
  | _, _ => none

/-- **The copying comparison** of sequences that are not empty. -/
theorem compareCopyList_eq {l r : List α} (hlen : l.length = r.length) (hne : l ≠ []) :
    compareCopyList cmp l r = some (lexLess cmp l r) := by
  induction l generalizing r with
  | nil => exact absurd rfl hne
  | cons x xs ih =>
    cases r with
    | nil => cases hlen
    | cons y ys =>
      have hlen : xs.length = ys.length := by simpa using hlen
      rw [compareCopyList, lexLess]
      cases hxy : cmp x y with
      | true => rfl
      | false =>
        cases hyx : cmp y x with
        | true => rfl
        | false =>
          cases xs with
          | nil =>
            obtain rfl : ys = [] := length_eq_zero_iff.mp hlen.symm
            rfl
          | cons x' xs => simpa using ih hlen (by simp)

/-- **The iterating comparison** of sequences that are not empty: `true` also when they are
equivalent. -/
theorem compareIterationLoop_eq {l r : List α} (hlen : l.length = r.length) (hne : l ≠ []) :
    compareIterationLoop cmp l r = some (lexLess cmp l r || equivalent cmp l r) := by
  induction l generalizing r with
  | nil => exact absurd rfl hne
  | cons x xs ih =>
    cases r with
    | nil => cases hlen
    | cons y ys =>
      have hlen : xs.length = ys.length := by simpa using hlen
      rw [compareIterationLoop, lexLess, equivalent, valueEquality]
      cases hxy : cmp x y with
      | true => rfl
      | false =>
        cases hyx : cmp y x with
        | true => rfl
        | false =>
          cases xs with
          | nil =>
            obtain rfl : ys = [] := length_eq_zero_iff.mp hlen.symm
            rfl
          | cons x' xs =>
            cases ys with
            | nil => cases hlen
            | cons y' ys => simpa using ih hlen (by simp)

/-- **The iterating equality** of sequences that are not empty. -/
theorem equivalenceIterationLoop_eq {l r : List α} (hl : l ≠ []) (hr : r ≠ []) :
    equivalenceIterationLoop cmp l r = some (equivalent cmp l r) := by
  induction l generalizing r with
  | nil => exact absurd rfl hl
  | cons x xs ih =>
    cases r with
    | nil => exact absurd rfl hr
    | cons y ys =>
      rw [equivalenceIterationLoop, equivalent]
      cases hxy : valueEquality cmp x y with
      | false => rfl
      | true =>
        cases xs with
        | nil => cases ys <;> rfl
        | cons x' xs =>
          cases ys with
          | nil => rfl
          | cons y' ys => simpa using ih (by simp) (by simp)

/-- A sequence is not less than an equivalent one, and two of the same length neither of which is
less are equivalent. -/
theorem lexLess_trichotomy (hw : StrictWeak cmp) {l r : List α} (hlen : l.length = r.length) :
    (!lexLess cmp l r && !lexLess cmp r l) = equivalent cmp l r := by
  induction l generalizing r with
  | nil =>
    obtain rfl : r = [] := length_eq_zero_iff.mp hlen.symm
    rfl
  | cons x xs ih =>
    cases r with
    | nil => cases hlen
    | cons y ys =>
      rw [lexLess, lexLess, equivalent, valueEquality, ← ih (by simpa using hlen)]
      cases hxy : cmp x y with
      | true => simp [hw.asymm hxy]
      | false => cases hyx : cmp y x <;> simp

end Loops

/-! ### Popping a copy -/

namespace PriorityQueue

variable {cmp : α → α → Bool} {H H₁ H₂ : Type*}

/-- What popping yields, for a heap of size `n`. -/
def drain (P : PriorityQueue cmp H) : ℕ → H → List α
  | 0, _ => []
  | n + 1, h =>
    match P.top h with
    | some v => v :: P.drain n (P.pop h)
    | none => []

variable (P : PriorityQueue cmp H₁) (Q : PriorityQueue cmp H₂)

theorem top_of_size {n : ℕ} {h : H₁} (hn : P.size h = n + 1) :
    ∃ v, P.top h = some v ∧ P.size (P.pop h) = n ∧ P.values h = v ::ₘ P.values (P.pop h) ∧
      ∀ u ∈ P.values h, cmp v u = false := by
  have hne : P.values h ≠ 0 := by
    intro h₀
    rw [P.size_eq, h₀] at hn
    cases hn
  obtain ⟨v, hv, hmax⟩ := P.top_max h hne
  have hpop := P.pop_values h v hv
  refine ⟨v, hv, ?_, hpop, hmax⟩
  rw [P.size_eq, hpop, Multiset.card_cons, ← P.size_eq] at hn
  omega

theorem drain_spec (n : ℕ) {h : H₁} (hn : P.size h = n) :
    (P.drain n h : Multiset α) = P.values h ∧
      (P.drain n h).Pairwise fun a b => cmp a b = false := by
  induction n generalizing h with
  | zero =>
    rw [P.size_eq, Multiset.card_eq_zero] at hn
    exact ⟨hn.symm, List.Pairwise.nil⟩
  | succ n ih =>
    obtain ⟨v, hv, hsize, hpop, hmax⟩ := P.top_of_size hn
    obtain ⟨hvals, hsorted⟩ := ih hsize
    rw [drain, hv]
    refine ⟨by rw [hpop, ← hvals]; rfl, pairwise_cons.mpr ⟨fun u hu => hmax u ?_, hsorted⟩⟩
    rw [hpop, ← hvals]
    exact Multiset.mem_cons_of_mem hu

theorem drain_equivalent (hw : StrictWeak cmp) (h : H₁) :
    equivalent cmp (P.drain (P.size h) h) (P.ordered h) = true := by
  obtain ⟨hvals, hsorted⟩ := P.drain_spec (P.size h) (h := h) rfl
  refine equivalent_of_nonincreasing hw ?_ hsorted (P.ordered_nonincreasing h)
  rw [← Multiset.coe_eq_coe, hvals, P.ordered_values]

theorem length_ordered (h : H₁) : (P.ordered h).length = P.size h := by
  rw [← Multiset.coe_card, P.ordered_values, P.size_eq]

theorem isEmpty_drain {n : ℕ} {h : H₁} (hn : P.size h = n) : (P.drain n h).isEmpty = P.empty h := by
  rw [P.empty_eq, hn]
  cases n with
  | zero => rfl
  | succ n =>
    obtain ⟨v, hv, -⟩ := P.top_of_size hn
    rw [drain, hv]
    rfl

theorem top_of_size_zero {h : H₁} (hn : P.size h = 0) : P.top h = none :=
  P.top_of_empty h (Multiset.card_eq_zero.mp (by rw [← P.size_eq, hn]))

/-- **The copying comparison** of heaps of the same size. -/
theorem compareCopyLoop_eq (n : ℕ) {a : H₁} {b : H₂} (ha : P.size a = n) (hb : Q.size b = n) :
    compareCopyLoop P Q n a b = compareCopyList cmp (P.drain n a) (Q.drain n b) := by
  induction n generalizing a b with
  | zero => rfl
  | succ n ih =>
    obtain ⟨v, hv, hsv, -, -⟩ := P.top_of_size ha
    obtain ⟨u, hu, hsu, -, -⟩ := Q.top_of_size hb
    rw [compareCopyLoop, drain, drain, hv, hu]
    simp only
    rw [compareCopyList, ih hsv hsu, P.isEmpty_drain hsv, Q.isEmpty_drain hsu]

/-- **The copying equality.** -/
theorem equivalenceCopyLoop_eq (n : ℕ) {m : ℕ} {a : H₁} {b : H₂} (ha : P.size a = n)
    (hb : Q.size b = m) :
    equivalenceCopyLoop P Q n a b = equivalenceIterationLoop cmp (P.drain n a) (Q.drain m b) := by
  induction n generalizing m a b with
  | zero => rfl
  | succ n ih =>
    obtain ⟨v, hv, hsv, -, -⟩ := P.top_of_size ha
    cases m with
    | zero =>
      rw [equivalenceCopyLoop, hv, Q.top_of_size_zero hb,
        show P.drain (n + 1) a = v :: P.drain n (P.pop a) by rw [drain, hv]]
      rfl
    | succ m =>
      obtain ⟨u, hu, hsu, -, -⟩ := Q.top_of_size hb
      rw [equivalenceCopyLoop, drain, drain, hv, hu]
      simp only
      rw [equivalenceIterationLoop, ih hsv hsu, P.isEmpty_drain hsv, Q.isEmpty_drain hsu]
      cases P.empty (P.pop a) <;> cases Q.empty (Q.pop b) <;> rfl

end PriorityQueue

/-! ### The comparisons -/

section Results

variable {cmp : α → α → Bool} {H₁ H₂ : Type*} (P : PriorityQueue cmp H₁) (Q : PriorityQueue cmp H₂)

/-- The order meant: fewer elements, or as many and a smaller non-increasing sequence. -/
def less (a : H₁) (b : H₂) : Bool :=
  decide (P.size a < Q.size b) ||
    (decide (P.size a = Q.size b) && lexLess cmp (P.ordered a) (Q.ordered b))

/-- Both comparisons, and both equalities, answer what the order meant says. -/
structure Consistent (a : H₁) (b : H₂) : Prop where
  iteration : heapCompareIteration P Q a b = some (less P Q a b)
  copy : heapCompareCopy P Q a b = some (less P Q a b)
  iteration_symm : heapCompareIteration Q P b a = some (less Q P b a)
  copy_symm : heapCompareCopy Q P b a = some (less Q P b a)
  equality_iteration :
    heapEquivalenceIteration P Q a b = some (!less P Q a b && !less Q P b a)
  equality_copy : heapEquivalenceCopy P Q a b = some (!less P Q a b && !less Q P b a)

variable {P Q} (hw : StrictWeak cmp) {a : H₁} {b : H₂}

include hw in
theorem heapCompareCopy_eq (h : P.size a ≠ 0 ∨ Q.size b ≠ 0) :
    heapCompareCopy P Q a b = some (less P Q a b) := by
  rw [heapCompareCopy, compareStart, less]
  rcases Nat.lt_trichotomy (P.size a) (Q.size b) with hlt | heq | hgt
  · simp [hlt]
  · have hlist := (P.compareCopyLoop_eq Q (P.size a) rfl heq.symm).trans
      (compareCopyList_eq (by
        rw [equivalent_length (P.drain_equivalent hw a), P.length_ordered, heq,
          equivalent_length (Q.drain_equivalent hw b), Q.length_ordered]) (fun hnil => by
        have := congrArg isEmpty hnil
        rw [P.isEmpty_drain rfl, P.empty_eq] at this
        have : P.size a = 0 := by simpa using this
        omega))
    rw [hlist, heq, lexLess_congr hw (heq ▸ P.drain_equivalent hw a) (Q.drain_equivalent hw b)]
    simp
  · simp [hgt, Nat.not_lt.mpr hgt.le, hgt.ne']

theorem heapCompareIteration_eq (h : P.size a ≠ 0 ∨ Q.size b ≠ 0) :
    heapCompareIteration P Q a b =
      some (less P Q a b || equivalent cmp (P.ordered a) (Q.ordered b)) := by
  have hP := P.length_ordered a
  have hQ := Q.length_ordered b
  rw [heapCompareIteration, compareStart, less]
  rcases Nat.lt_trichotomy (P.size a) (Q.size b) with hlt | heq | hgt
  · simp [hlt]
  · rw [compareIterationLoop_eq (by omega) (fun hnil => by rw [hnil, length_nil] at hP; omega),
      heq]
    simp
  · have hne : equivalent cmp (P.ordered a) (Q.ordered b) = false :=
      equivalent_of_length_ne (by omega)
    simp [hgt, Nat.not_lt.mpr hgt.le, hgt.ne', hne]

include hw in
theorem less_trichotomy :
    (!less P Q a b && !less Q P b a) = equivalent cmp (P.ordered a) (Q.ordered b) := by
  have hP := P.length_ordered a
  have hQ := Q.length_ordered b
  rw [less, less]
  by_cases heq : P.size a = Q.size b
  · rw [← lexLess_trichotomy hw (by omega)]
    simp [heq]
  · have hne : equivalent cmp (P.ordered a) (Q.ordered b) = false :=
      equivalent_of_length_ne (by omega)
    rw [hne]
    rcases Nat.lt_or_gt_of_ne heq with hlt | hgt
    · simp [hlt]
    · simp [hgt]

/-- Equality is defined unless exactly one heap is empty and the sizes were not compared. -/
theorem equivalenceStart_eq {loop : Option Bool}
    (hloop : P.size a ≠ 0 → Q.size b ≠ 0 →
      loop = some (equivalent cmp (P.ordered a) (Q.ordered b)))
    (hone : (P.size a = 0 ↔ Q.size b ≠ 0) → loop = none) :
    equivalenceStart P Q a b loop = some (equivalent cmp (P.ordered a) (Q.ordered b)) ↔
      ((P.constantTimeSize && Q.constantTimeSize) = true ∨ P.empty a = Q.empty b) := by
  have hP := P.length_ordered a
  have hQ := Q.length_ordered b
  have hnot : P.size a ≠ Q.size b → equivalent cmp (P.ordered a) (Q.ordered b) = false :=
    fun hne => equivalent_of_length_ne (by omega)
  rw [equivalenceStart, P.empty_eq, Q.empty_eq]
  by_cases hc : (P.constantTimeSize && Q.constantTimeSize) = true
  · rw [hc, Bool.true_and]
    by_cases hsize : P.size a = Q.size b
    · rw [if_neg (by simp [hsize])]
      by_cases h₀ : Q.size b = 0
      · have hl : P.ordered a = [] := length_eq_zero_iff.mp (by omega)
        have hr : Q.ordered b = [] := length_eq_zero_iff.mp (by omega)
        simp [hsize, h₀, hl, hr, equivalent]
      · simp [hsize, h₀, hloop (by omega) h₀]
    · simp [hsize, hnot hsize]
  · rw [Bool.not_eq_true] at hc
    rw [hc, Bool.false_and, if_neg (by decide)]
    by_cases ha : P.size a = 0
    · by_cases hb : Q.size b = 0
      · have hl : P.ordered a = [] := length_eq_zero_iff.mp (by omega)
        have hr : Q.ordered b = [] := length_eq_zero_iff.mp (by omega)
        simp [ha, hb, hl, hr, equivalent]
      · simp [ha, hb, hone ⟨fun _ => hb, fun _ => ha⟩]
    · by_cases hb : Q.size b = 0
      · simp [ha, hb, hone ⟨fun h => absurd h ha, fun h => absurd hb h⟩]
      · simp [ha, hb, hloop ha hb]

theorem heapEquivalenceIteration_eq :
    heapEquivalenceIteration P Q a b = some (equivalent cmp (P.ordered a) (Q.ordered b)) ↔
      ((P.constantTimeSize && Q.constantTimeSize) = true ∨ P.empty a = Q.empty b) := by
  have hP := P.length_ordered a
  have hQ := Q.length_ordered b
  refine equivalenceStart_eq (fun ha hb => ?_) fun hone => ?_
  · exact equivalenceIterationLoop_eq (fun h => ha (by rw [← hP, h]; rfl))
      (fun h => hb (by rw [← hQ, h]; rfl))
  · by_cases ha : P.size a = 0
    · rw [length_eq_zero_iff.mp (hP.trans ha)]
      rfl
    · obtain hb : Q.size b = 0 := not_not.mp fun h => ha (hone.mpr h)
      rw [length_eq_zero_iff.mp (hQ.trans hb)]
      cases P.ordered a <;> rfl

include hw in
theorem heapEquivalenceCopy_eq :
    heapEquivalenceCopy P Q a b = some (equivalent cmp (P.ordered a) (Q.ordered b)) ↔
      ((P.constantTimeSize && Q.constantTimeSize) = true ∨ P.empty a = Q.empty b) := by
  have hP := P.drain_equivalent hw a
  have hQ := Q.drain_equivalent hw b
  have hloop := P.equivalenceCopyLoop_eq Q (P.size a) (a := a) (b := b) rfl rfl
  have hPlen := (equivalent_length hP).trans (P.length_ordered a)
  have hQlen := (equivalent_length hQ).trans (Q.length_ordered b)
  refine equivalenceStart_eq (fun ha hb => ?_) fun hone => ?_
  · rw [hloop, equivalenceIterationLoop_eq (fun h => ha (by rw [← hPlen, h]; rfl))
      (fun h => hb (by rw [← hQlen, h]; rfl)), equivalent_congr hw hP hQ]
  · by_cases ha : P.size a = 0
    · rw [hloop, length_eq_zero_iff.mp (hPlen.trans ha)]
      rfl
    · obtain hb : Q.size b = 0 := not_not.mp fun h => ha (hone.mpr h)
      rw [hloop, length_eq_zero_iff.mp (hQlen.trans hb)]
      cases P.drain (P.size a) a <;> rfl

end Results

/-! ### A heap kept as a sorted list -/

/-- Natural numbers by `<`. -/
def natLess (a b : ℕ) : Bool := decide (a < b)

theorem natLess_strictWeak : StrictWeak natLess := strictWeak_lt

/-- Non-increasing lists of numbers as heaps. -/
def sortedList : PriorityQueue natLess { l : List ℕ // l.Pairwise fun a b => natLess a b = false } where
  constantTimeSize := true
  size := fun h => h.1.length
  empty := fun h => h.1.isEmpty
  top := fun h => h.1.head?
  pop := fun h => ⟨h.1.tail, h.2.tail⟩
  ordered := fun h => h.1
  values := fun h => (h.1 : Multiset ℕ)
  size_eq := fun _ => rfl
  empty_eq := fun ⟨l, _⟩ => by cases l <;> rfl
  top_of_empty := fun ⟨l, _⟩ h => by
    rw [Multiset.coe_eq_zero] at h
    subst h
    rfl
  top_max := fun ⟨l, hl⟩ h => by
    cases l with
    | nil => exact absurd rfl h
    | cons v l =>
      refine ⟨v, rfl, fun u hu => ?_⟩
      rcases List.mem_cons.mp hu with rfl | hu
      · exact natLess_strictWeak.refl u
      · exact List.rel_of_pairwise_cons hl hu
  pop_values := fun ⟨l, _⟩ v h => by
    cases l with
    | nil => cases h
    | cons u l =>
      cases h
      rfl
  ordered_values := fun _ => rfl
  ordered_nonincreasing := fun h => h.2

end SourceLibs.Comparison
