import SourceLibs.CircularBuffer.Repr

/-!
# CircularBuffer — erasure

`erase` closes the gap from the end, `rerase` from the start.  Both leave as many elements as before,
moved from or not, and then destroy those at one end.

* `Repr.rewrite`: the list after a loop that moved elements.
* `Repr.destroyLastTo`, `Repr.destroyFirstTo`: the loops that destroy.
* `Repr.erase`, `Repr.eraseRange`, `Repr.rerase`, `Repr.reraseRange`.
* `Repr.eraseBeginItems`, `Repr.eraseEndItems`, `Repr.destroyContent`: element by element, with the
  pointers the constant-time versions compute.
-/

namespace SourceLibs.CircularBuffer
open List Nat

open RingCells

variable {α : Type} {T : ValueType α} {cb : CircularBuffer α} {l : List α}

/-- The elements written over, none destroyed and none made. -/
theorem Repr.rewrite (h : cb.Repr T l) {buff : List (Option α)} (hlen : buff.length = cb.capacity)
    (hlive : ∀ i < l.length, (view buff cb.first i).isSome)
    (hrest : ∀ i, l.length ≤ i → i < cb.capacity →
      view buff cb.first i = view cb.buff cb.first i) :
    ∃ l', Repr T { cb with buff := buff } l' ∧ l'.length = l.length ∧
      ∀ i < l.length, l'[i]? = view buff cb.first i := by
  let l' := ofFn fun i : Fin l.length => (view buff cb.first i).get (hlive i i.isLt)
  have hl' : l'.length = l.length := length_ofFn
  have hget : ∀ i < l.length, l'[i]? = view buff cb.first i := fun i hi => by
    rw [List.getElem?_ofFn, dif_pos hi, Option.some_get]
  refine ⟨l', ⟨⟨?_, ?_, ?_⟩, ?_, fun i hi hsc => ?_⟩, hl', hget⟩
  · rw [capacity, hlen]
    exact h.size_le
  · rw [capacity, hlen]
    exact h.first_lt
  · rw [capacity, hlen]
    exact h.last_eq
  · rw [hl']
    exact h.size_eq
  · rw [hl'] at hsc
    by_cases hil : i < l.length
    · exact (hget i hil).symm
    · have hic : i < cb.capacity := hlen ▸ hi
      rw [List.getElem?_eq_none (by omega)]
      show view buff cb.first i = none
      rw [hrest i (by omega) hic, h.cells i hic hsc, List.getElem?_eq_none (by omega)]

theorem Repr.destroyLastTo (h : cb.Repr T l) {c : ℕ} (hc : 0 < c) (hcl : c ≤ l.length) {fuel : ℕ}
    (hfuel : c ≤ fuel) :
    ∃ cb', destroyLastTo T (some (slot cb.capacity cb.first (l.length - c))) fuel cb = .ok cb' ∧
      cb'.capacity = cb.capacity ∧ cb'.first = cb.first ∧ cb'.Repr T (l.take (l.length - c)) := by
  induction c generalizing cb l fuel with
  | zero => omega
  | succ c ih =>
    obtain ⟨fuel, rfl⟩ := exists_eq_add_one_of_ne_zero (by omega : fuel ≠ 0)
    obtain ⟨cb₁, hcb₁, hcap, hfirst, hr⟩ := h.destroyLast (by omega)
    obtain ⟨hle, hsize⟩ := h.sizes
    have hlast : cb₁.last = slot cb.capacity cb.first (l.length - 1) := by
      rw [hr.last_eq, hcap, hfirst, hr.size_eq, length_dropLast]
    rw [CircularBuffer.destroyLastTo, hcb₁, ok_bind, hlast]
    rcases Nat.eq_zero_or_pos c with rfl | hc0
    · rw [if_neg (not_not.mpr rfl)]
      exact ⟨cb₁, rfl, hcap, hfirst, by rwa [← dropLast_eq_take]⟩
    · have hne : some (slot cb.capacity cb.first (l.length - 1)) ≠
          some (slot cb.capacity cb.first (l.length - (c + 1))) := fun hc => by
        have := (slot_eq_iff_of_le (by omega) (by omega)).mp (Option.some.inj hc).symm
        omega
      rw [if_pos hne]
      obtain ⟨cb', hcb', hcap', hfirst', hr'⟩ := ih hr hc0 (by rw [length_dropLast]; omega)
        (by omega : c ≤ fuel)
      rw [length_dropLast, hcap, hfirst, show l.length - 1 - c = l.length - (c + 1) by omega]
        at hcb'
      refine ⟨cb', hcb', hcap'.trans hcap, hfirst'.trans hfirst, ?_⟩
      rwa [length_dropLast, dropLast_eq_take, take_take,
        show min (l.length - 1 - c) (l.length - 1) = l.length - (c + 1) by omega] at hr'

theorem Repr.destroyFirstTo (h : cb.Repr T l) {c : ℕ} (hc : 0 < c) (hcl : c ≤ l.length) {fuel : ℕ}
    (hfuel : c ≤ fuel) :
    ∃ cb', destroyFirstTo T (slot cb.capacity cb.first c) fuel cb = .ok cb' ∧
      cb'.capacity = cb.capacity ∧ cb'.first = slot cb.capacity cb.first c ∧
      cb'.last = cb.last ∧ cb'.Repr T (l.drop c) := by
  induction c generalizing cb l fuel with
  | zero => omega
  | succ c ih =>
    obtain ⟨fuel, rfl⟩ := exists_eq_add_one_of_ne_zero (by omega : fuel ≠ 0)
    obtain ⟨cb₁, hcb₁, hcap, hlast, hfirst, hr⟩ := h.destroyFirst (by omega)
    obtain ⟨hle, hsize⟩ := h.sizes
    rw [CircularBuffer.destroyFirstTo, hcb₁, ok_bind, hfirst]
    rcases Nat.eq_zero_or_pos c with rfl | hc0
    · rw [if_neg (not_not.mpr rfl)]
      exact ⟨cb₁, rfl, hcap, hfirst, hlast, by rwa [drop_one]⟩
    · have hne : slot cb.capacity cb.first 1 ≠ slot cb.capacity cb.first (c + 1) := fun hc => by
        have := (slot_eq_iff_of_le (by omega) (by omega)).mp hc
        omega
      have hstop : slot cb₁.capacity cb₁.first c = slot cb.capacity cb.first (c + 1) := by
        rw [hcap, hfirst, slot_slot, Nat.add_comm]
      rw [if_pos hne]
      obtain ⟨cb', hcb', hcap', hfirst', hlast', hr'⟩ := ih hr hc0
        (by rw [length_tail]; omega) (by omega : c ≤ fuel)
      rw [hstop] at hcb' hfirst'
      refine ⟨cb', hcb', hcap'.trans hcap, hfirst', hlast'.trans hlast, ?_⟩
      rwa [drop_tail] at hr'

/-! ### Closing the gap -/

theorem Repr.moveDown (h : cb.Repr T l) {i d m fuel : ℕ} (hd : 0 < d) (hm : i + d + m = l.length)
    (hfuel : m < fuel) :
    ∃ s, forward T T.moved (fun _ _ => false) cb.last fuel false cb.buff
          (slot cb.capacity cb.first (i + d)) (slot cb.capacity cb.first i) =
        .ok (s, slot cb.capacity cb.first (i + m)) ∧ s.length = cb.capacity ∧
      ∃ l', Repr T { cb with buff := s } l' ∧ l'.length = l.length ∧
        l'.take (i + m) = l.take i ++ l.drop (i + d) := by
  obtain ⟨hle, hsize⟩ := h.sizes
  have hx : ∀ j < l.length, view cb.buff cb.first j = l[j]? := fun j hj => by
    rw [h.view_eq hj, List.getElem?_eq_getElem hj]
  have v : α := l[i]
  obtain ⟨s, hs, hlen, hview⟩ := forward_spec (T := T) (b := cb.first) (s := cb.buff) T.moved
    (fun _ _ => false) hd (fun j => l.getD j v) m i false fuel cb.length_buff (by omega) hfuel
    (fun j h₁ h₂ => by rw [h.view_eq (by omega), getD_eq_getElem _ _ (by omega)])
    (.inr fun j h₁ h₂ => by
      rw [eq_comm, Option.isNone_eq_false_iff]
      exact h.view_isSome (by omega))
  rw [hm, ← hsize, ← h.last_eq] at hs
  -- the cells before the gap, a turn later
  have hlow : ∀ j < i, view s cb.first j = view cb.buff cb.first j := fun j hj => by
    rw [← view_add_length hlen, hview _ (by omega) (by omega), if_neg (by omega), if_neg (by omega),
      view_add_length cb.length_buff]
  have hhigh : ∀ j, i ≤ j → j < i + m → view s cb.first j = l[j + d]? := fun j h₁ h₂ => by
    rw [hview j h₁ (by omega), if_pos h₂, getD_eq_getElem _ _ (by omega),
      List.getElem?_eq_getElem (by omega)]
  obtain ⟨l', hr, hl', hget⟩ := h.rewrite hlen
    (fun j hj => by
      rcases Nat.lt_or_ge j i with hji | hij
      · rw [hlow j hji]
        exact h.view_isSome hj
      · rw [hview j hij (by omega)]
        split
        · rfl
        · split
          · rw [h.view_eq hj]
            rfl
          · exact h.view_isSome hj)
    (fun j h₁ h₂ => by rw [hview j (by omega) (by omega), if_neg (by omega), if_neg (by omega)])
  refine ⟨s, hs, hlen, l', hr, hl', ext_getElem? fun j => ?_⟩
  rw [List.getElem?_append, length_take, Nat.min_eq_left (by omega), List.getElem?_drop]
  by_cases hj : j < i + m
  · rw [List.getElem?_take_of_lt hj, hget j (by omega)]
    by_cases hji : j < i
    · rw [if_pos hji, hlow j hji, hx j (by omega), List.getElem?_take_of_lt hji]
    · rw [if_neg hji, hhigh j (by omega) hj]
      congr 1
      omega
  · rw [List.getElem?_eq_none (by rw [length_take]; omega), if_neg (by omega),
      List.getElem?_eq_none (by omega)]

theorem Repr.moveUp (h : cb.Repr T l) {i e fuel : ℕ} (hi : i + (e + 1) ≤ l.length)
    (hfuel : i < fuel) :
    ∃ s, backward T T.moved (fun _ _ => false) cb.first fuel false cb.buff
          (slot cb.capacity cb.first i) (slot cb.capacity cb.first (e + i)) =
        .ok (s, slot cb.capacity cb.first e) ∧ s.length = cb.capacity ∧
      ∃ l', Repr T { cb with buff := s } l' ∧ l'.length = l.length ∧
        l'.drop (e + 1) = l.take i ++ l.drop (i + (e + 1)) := by
  obtain ⟨hle, hsize⟩ := h.sizes
  have hpos : 0 < cb.capacity := by omega
  have hx : ∀ j < l.length, view cb.buff cb.first j = l[j]? := fun j hj => by
    rw [h.view_eq hj, List.getElem?_eq_getElem hj]
  have v : α := l[i]
  obtain ⟨s, hs, hlen, hview⟩ := backward_spec (T := T) (b := cb.first) (s := cb.buff) T.moved
    (fun _ _ => false) (fun j => l.getD j v) 0 e i false fuel cb.length_buff (by omega) hfuel
    (fun j h₁ h₂ => by rw [h.view_eq (by omega), getD_eq_getElem _ _ (by omega)])
    (.inr fun j h₁ h₂ => by
      rw [eq_comm, Option.isNone_eq_false_iff]
      exact h.view_isSome (by omega))
  rw [slot_zero (h.first_lt_of_pos hpos), Nat.zero_add, Nat.zero_add] at hs
  obtain ⟨l', hr, hl', hget⟩ := h.rewrite hlen
    (fun j hj => by
      rw [hview j (by omega) (by omega)]
      split
      · rfl
      · split
        · rw [h.view_eq hj]
          rfl
        · exact h.view_isSome hj)
    (fun j h₁ h₂ => by rw [hview j (by omega) (by omega), if_neg (by omega), if_neg (by omega)])
  refine ⟨s, hs, hlen, l', hr, hl', ext_getElem? fun j => ?_⟩
  rw [List.getElem?_append, length_take, Nat.min_eq_left (by omega), List.getElem?_drop,
    List.getElem?_drop]
  by_cases hj : e + 1 + j < l.length
  · rw [hget _ hj, hview _ (by omega) (by omega)]
    by_cases hji : j < i
    · rw [if_pos (by omega), if_pos hji, Nat.add_sub_cancel_left, getD_eq_getElem _ _ (by omega),
        List.getElem?_take_of_lt hji, List.getElem?_eq_getElem (by omega)]
    · rw [if_neg (by omega), if_neg (by omega), if_neg hji, hx _ hj]
      congr 1
      omega
  · rw [List.getElem?_eq_none (by omega), if_neg (by omega), List.getElem?_eq_none (by omega)]

/-! ### One element -/

/-- **`erase`** of one element. -/
theorem Repr.erase (h : cb.Repr T l) {k : ℕ} (hk : k < l.length) :
    ∃ cb' it, cb.erase T (cb.iterAt k) = .ok (cb', it) ∧ cb'.capacity = cb.capacity ∧
      cb'.Repr T (l.eraseIdx k) := by
  obtain ⟨hle, hsize⟩ := h.sizes
  obtain ⟨s, hs, hlen, l', hr, hl', htake⟩ := h.moveDown (i := k) (m := l.length - (k + 1))
    Nat.one_pos (by omega) (show _ < cb.capacity + 1 by omega)
  obtain ⟨cb', hcb', hcap, -, hr'⟩ := hr.destroyLast (by omega)
  rw [iterAt_of_lt (by omega), CircularBuffer.erase]
  dsimp only
  rw [increment_slot (by omega), hs]
  simp only [ok_bind]
  rw [hcb']
  refine ⟨cb', _, rfl, hcap.trans hlen, ?_⟩
  rwa [dropLast_eq_take, hl', show l.length - 1 = k + (l.length - (k + 1)) by omega, htake,
    ← eraseIdx_eq_take_drop_succ] at hr'

/-- **`rerase`** of one element. -/
theorem Repr.rerase (h : cb.Repr T l) {k : ℕ} (hk : k < l.length) :
    ∃ cb' it, cb.rerase T (cb.iterAt k) = .ok (cb', it) ∧ cb'.capacity = cb.capacity ∧
      cb'.Repr T (l.eraseIdx k) := by
  obtain ⟨hle, hsize⟩ := h.sizes
  obtain ⟨s, hs, hlen, l', hr, hl', hdrop⟩ := h.moveUp (i := k) (e := 0)
    (by omega) (show k < cb.capacity + 1 by omega)
  obtain ⟨cb', hcb', hcap, -, -, hr'⟩ := hr.destroyFirst (by omega)
  rw [Nat.zero_add] at hs
  rw [iterAt_of_lt (by omega), CircularBuffer.rerase]
  dsimp only
  rw [hs]
  simp only [ok_bind]
  rw [hcb']
  refine ⟨cb', _, rfl, hcap.trans hlen, ?_⟩
  rwa [← drop_one, hdrop, ← eraseIdx_eq_take_drop_succ] at hr'

/-! ### Ranges -/

theorem bind_eq_ok_iff {β γ : Type} {x : Except Fault β} {f : β → Except Fault γ} {r : γ} :
    (x >>= f) = .ok r ↔ ∃ y, x = .ok y ∧ f y = .ok r := by
  constructor
  · intro h
    cases x with
    | error e => cases h
    | ok y => exact ⟨y, rfl, h⟩
  · rintro ⟨y, rfl, hy⟩
    exact hy

theorem length_of_take {leave : α → α} {s s' : List (Option α)} {p : ℕ} {v : α}
    (h : take leave s p = .ok (v, s')) : s'.length = s.length := by
  obtain ⟨u, -, hu⟩ := bind_eq_ok_iff.mp h
  cases hu
  exact length_set ..

theorem length_of_replace {s s' : List (Option α)} {p : ℕ} {v : α}
    (h : replace T s p v = .ok s') : s'.length = s.length := by
  unfold replace at h
  split at h
  · cases h
  · split at h
    · cases h
      exact length_set ..
    · cases h
  · cases h
    exact length_set ..

/-- The loop of `erase(first, last)` is the forward loop; an iterator that reaches `m_last` is
`end()`. -/
theorem Layout.eraseLoop_of_forward (h : cb.Layout) {i j m fuel : ℕ} (hij : i < j)
    (hj : j + m = cb.size) {s : List (Option α)} (hs : s.length = cb.capacity) {c : Bool}
    {r : List (Option α) × ℕ}
    (hr : forward T T.moved (fun _ _ => false) cb.last fuel c s (slot cb.capacity cb.first j)
      (slot cb.capacity cb.first i) = .ok r) :
    eraseLoop T cb fuel s (cb.iterAt i) (cb.iterAt j) = .ok (r.1, cb.iterAt (i + m)) := by
  have hle := h.size_le
  induction m generalizing i j fuel s c with
  | zero =>
    have hlast : slot cb.capacity cb.first j = cb.last := by rw [h.last_eq, ← hj, Nat.add_zero]
    obtain ⟨fuel, rfl⟩ := exists_eq_add_one_of_ne_zero
      (show fuel ≠ 0 by rintro rfl; cases hr)
    rw [forward, if_pos hlast] at hr
    cases hr
    rw [show j = cb.size by omega, iterAt_size, eraseLoop]
    rfl
  | succ m ih =>
    have hne : ¬ slot cb.capacity cb.first j = cb.last := fun hc => by
      have := (h.slot_eq_last_iff (by omega) (by omega)).mp hc
      omega
    obtain ⟨fuel, rfl⟩ := exists_eq_add_one_of_ne_zero
      (show fuel ≠ 0 by rintro rfl; cases hr)
    rw [forward, if_neg hne, bind_eq_ok_iff] at hr
    obtain ⟨⟨v, s₁⟩, htake, hr⟩ := hr
    obtain ⟨s₂, hw, hr⟩ := bind_eq_ok_iff.mp hr
    have hw : replace T s₁ (slot cb.capacity cb.first i) v = .ok s₂ := hw
    have hs₂ : s₂.length = cb.capacity := by
      rw [length_of_replace hw, length_of_take htake, hs]
    rw [hs₂, increment_slot (by omega), increment_slot (by omega)] at hr
    have hnext := ih (by omega) (by omega) hs₂ hr
    rw [show i + (m + 1) = i + 1 + m by omega, ← hnext, iterAt_of_lt (by omega : i < cb.size),
      iterAt_of_lt (by omega : j < cb.size), eraseLoop, htake]
    simp only [ok_bind]
    rw [hw, ok_bind, h.next_iterAt (by omega), h.next_iterAt (by omega)]
    rfl

/-- **`erase`** of a range. -/
theorem Repr.eraseRange (h : cb.Repr T l) {i j : ℕ} (hij : i ≤ j) (hj : j ≤ l.length) :
    ∃ cb' it, cb.eraseRange T (cb.iterAt i) (cb.iterAt j) = .ok (cb', it) ∧
      cb'.capacity = cb.capacity ∧ cb'.first = cb.first ∧ cb'.Repr T (l.take i ++ l.drop j) := by
  obtain ⟨hle, hsize⟩ := h.sizes
  have hassert : cb.linearizePointer (cb.iterAt i) ≤ cb.linearizePointer (cb.iterAt j) := by
    rwa [h.linearizePointer_iterAt (by omega), h.linearizePointer_iterAt (by omega)]
  rw [CircularBuffer.eraseRange, cbAssert, if_pos hassert, ok_bind]
  rcases Nat.eq_or_lt_of_le hij with rfl | hlt
  · rw [if_pos rfl]
    exact ⟨cb, _, rfl, rfl, rfl, by rwa [take_append_drop]⟩
  · rw [if_neg fun hc => absurd ((h.iterAt_inj (by omega) (by omega)).mp hc) (by omega)]
    obtain ⟨s, hs, hlen, l', hr, hl', htake⟩ := h.moveDown (i := i) (d := j - i)
      (m := l.length - j) (by omega) (by omega) (show _ < cb.capacity + 1 by omega)
    rw [Nat.add_sub_cancel' hij] at hs htake
    have hloop := h.eraseLoop_of_forward (m := l.length - j) hlt (by omega) cb.length_buff hs
    obtain ⟨cb', hcb', hcap, hfirst, hr'⟩ := hr.destroyLastTo (c := j - i) (by omega) (by omega)
      (show j - i ≤ cb.capacity + 1 by omega)
    have hc : capacity { cb with buff := s } = cb.capacity := hlen
    rw [hl', show l.length - (j - i) = i + (l.length - j) by omega, hc] at hcb'
    rw [hloop]
    simp only [ok_bind]
    rw [iterAt_of_lt (show i + (l.length - j) < cb.size by omega), hcb']
    refine ⟨cb', _, rfl, hcap.trans hlen, hfirst, ?_⟩
    rwa [hl', show l.length - (j - i) = i + (l.length - j) by omega, htake] at hr'

theorem reraseLoop_of_backward {stop fuel src n p d : ℕ} {s s' : List (Option α)}
    (hs : s.length = n) (hp : p < n) {c : Bool}
    (hr : backward T T.moved (fun _ _ => false) stop fuel c s src (decrement n p) = .ok (s', d)) :
    reraseLoop T stop fuel s src p = .ok (s', increment n d) := by
  induction fuel generalizing s src p c with
  | zero => cases hr
  | succ fuel ih =>
    rw [backward] at hr
    rw [reraseLoop]
    by_cases hstop : src = stop
    · rw [if_pos hstop] at hr ⊢
      obtain ⟨rfl, rfl⟩ := Prod.mk.inj (Except.ok.inj hr)
      rw [increment_decrement hp]
    · rw [if_neg hstop] at hr ⊢
      obtain ⟨⟨v, s₁⟩, htake, hr⟩ := bind_eq_ok_iff.mp hr
      obtain ⟨s₂, hw, hr⟩ := bind_eq_ok_iff.mp hr
      have hw : replace T s₁ (decrement n p) v = .ok s₂ := hw
      have hs₂ : s₂.length = n := by rw [length_of_replace hw, length_of_take htake, hs]
      rw [hs₂] at hr
      dsimp only
      rw [htake]
      simp only [ok_bind]
      rw [hs, hw, ok_bind]
      rw [hs] at hr
      exact ih hs₂ (decrement_lt hp) hr

/-- **`rerase`** of a range. -/
theorem Repr.reraseRange (h : cb.Repr T l) {i j : ℕ} (hij : i ≤ j) (hj : j ≤ l.length) :
    ∃ cb' it, cb.reraseRange T (cb.iterAt i) (cb.iterAt j) = .ok (cb', it) ∧
      cb'.capacity = cb.capacity ∧ cb'.last = cb.last ∧
      cb'.first = slot cb.capacity cb.first (j - i) ∧ cb'.Repr T (l.take i ++ l.drop j) := by
  obtain ⟨hle, hsize⟩ := h.sizes
  have hassert : cb.linearizePointer (cb.iterAt i) ≤ cb.linearizePointer (cb.iterAt j) := by
    rwa [h.linearizePointer_iterAt (by omega), h.linearizePointer_iterAt (by omega)]
  unfold CircularBuffer.reraseRange
  rw [cbAssert, if_pos hassert, ok_bind]
  rcases Nat.eq_or_lt_of_le hij with rfl | hlt
  · rw [if_pos rfl]
    have hfirst : cb.first = slot cb.capacity cb.first (i - i) := by
      rw [Nat.sub_self, h.slot_first_zero]
    exact ⟨cb, _, rfl, rfl, rfl, hfirst, by rwa [take_append_drop]⟩
  · obtain ⟨e, he⟩ := exists_eq_add_one_of_ne_zero (show j - i ≠ 0 by omega)
    have hpos : 0 < cb.capacity := by omega
    rw [if_neg fun hc => absurd ((h.iterAt_inj (by omega) (by omega)).mp hc) (by omega)]
    obtain ⟨s, hs, hlen, l', hr, hl', hdrop⟩ := h.moveUp (i := i) (e := e) (by omega)
      (show i < cb.capacity + 1 by omega)
    have hdest : slot cb.capacity cb.first (e + i) =
        decrement cb.capacity (slot cb.capacity cb.first j) := by
      rw [show j = e + i + 1 by omega, decrement_slot hpos]
    rw [hdest] at hs
    have hloop := reraseLoop_of_backward cb.length_buff (slot_lt hpos) hs
    rw [increment_slot hpos] at hloop
    obtain ⟨cb', hcb', hcap, hfirst, hlast, hr'⟩ := hr.destroyFirstTo (c := e + 1) (by omega)
      (by omega) (show e + 1 ≤ cb.capacity + 1 by omega)
    have hc : capacity { cb with buff := s } = cb.capacity := hlen
    rw [hc] at hcb' hfirst
    have hl : l'.drop (e + 1) = l.take i ++ l.drop j := by
      rw [hdrop, show i + (e + 1) = j by omega]
    rw [hl] at hr'
    rw [iterAt_of_lt (by omega : i < cb.size), h.mapPointer_iterAt (by omega)]
    dsimp only
    rw [hloop]
    simp only [ok_bind]
    rw [hcb']
    simp only [ok_bind]
    rw [he]
    split
    · exact ⟨cb', _, rfl, hcap.trans hlen, hlast, hfirst, hr'⟩
    · exact ⟨cb', _, rfl, hcap.trans hlen, hlast, hfirst, hr'⟩

/-! ### At the ends -/

theorem Repr.eraseBeginItems (h : cb.Repr T l) {n : ℕ} (hn : n ≤ l.length) :
    ∃ cb', cb.eraseBeginItems T n = .ok cb' ∧ cb'.capacity = cb.capacity ∧ cb'.last = cb.last ∧
      cb'.first = slot cb.capacity cb.first n ∧ cb'.Repr T (l.drop n) := by
  have hsize := h.size_eq
  obtain ⟨cb', it, hcb', hcap, hlast, hfirst, hr⟩ := h.reraseRange (Nat.zero_le n) hn
  refine ⟨cb', ?_, hcap, hlast, hfirst, by simpa using hr⟩
  rw [CircularBuffer.eraseBeginItems, h.plus_begin (by omega), ok_bind, h.begin_eq, hcb']
  rfl

theorem Repr.eraseEndItems (h : cb.Repr T l) {n : ℕ} (hn : n ≤ l.length) :
    ∃ cb', cb.eraseEndItems T n = .ok cb' ∧ cb'.capacity = cb.capacity ∧ cb'.first = cb.first ∧
      cb'.Repr T (l.take (l.length - n)) := by
  have hsize := h.size_eq
  obtain ⟨cb', it, hcb', hcap, hfirst, hr⟩ := h.eraseRange (sub_le l.length n) le_rfl
  refine ⟨cb', ?_, hcap, hfirst, by simpa using hr⟩
  rw [CircularBuffer.eraseEndItems, h.minus_end (by omega), ok_bind, hsize]
  rw [← hsize, iterAt_size, hsize] at hcb'
  rw [hcb']
  rfl

theorem Repr.eraseBeginScalar (h : cb.Repr T l) (hT : T.scalar = true) {n : ℕ} (hn : n ≤ l.length) :
    (cb.eraseBeginScalar n).Repr T (l.drop n) := by
  obtain ⟨hle, hsize⟩ := h.sizes
  have hfirst : (cb.eraseBeginScalar n).first = slot cb.capacity cb.first n :=
    h.add_first (by omega)
  refine ⟨⟨?_, ?_, ?_⟩, ?_, fun i hi hsc => ?_⟩
  · exact (sub_le _ _).trans hle
  · rw [hfirst]
    rcases Nat.eq_zero_or_pos cb.capacity with h0 | hpos
    · refine .inr ⟨h0, ?_⟩
      rw [h0, show n = 0 by omega, h.first_lt.resolve_left (by omega) |>.2]
      rfl
    · exact .inl (slot_lt hpos)
  · rw [hfirst]
    show cb.last = slot cb.capacity _ (cb.size - n)
    rw [slot_slot, Nat.add_sub_cancel' (by omega), h.last_eq]
  · rw [length_drop, ← hsize]
    rfl
  · have hil := hsc hT
    rw [length_drop] at hil
    rw [hfirst, List.getElem?_drop]
    show view cb.buff _ i = _
    rw [view_slot cb.length_buff, h.cells _ (by omega) fun _ => by omega]

theorem Repr.eraseBegin (h : cb.Repr T l) {n : ℕ} (hn : n ≤ l.length) :
    ∃ cb', cb.eraseBegin T n = .ok cb' ∧ cb'.capacity = cb.capacity ∧ cb'.Repr T (l.drop n) := by
  have hsize := h.size_eq
  rw [CircularBuffer.eraseBegin, cbAssert, if_pos (by omega), ok_bind]
  cases hT : T.scalar with
  | true => exact ⟨_, rfl, rfl, h.eraseBeginScalar hT hn⟩
  | false =>
    obtain ⟨cb', hcb', hcap, -, -, hr⟩ := h.eraseBeginItems hn
    exact ⟨cb', hcb', hcap, hr⟩

theorem Repr.eraseEndScalar (h : cb.Repr T l) (hT : T.scalar = true) {n : ℕ} (hn : n ≤ l.length) :
    (cb.eraseEndScalar n).Repr T (l.take (l.length - n)) := by
  obtain ⟨hle, hsize⟩ := h.sizes
  refine ⟨⟨?_, h.first_lt, ?_⟩, ?_, fun i hi hsc => ?_⟩
  · exact (sub_le _ _).trans hle
  · exact h.sub_last (by omega)
  · rw [length_take, Nat.min_eq_left (sub_le _ _), ← hsize]
    rfl
  · have hil := hsc hT
    rw [length_take] at hil
    rw [List.getElem?_take_of_lt (by omega)]
    exact h.cells i hi fun _ => by omega

theorem Repr.eraseEnd (h : cb.Repr T l) {n : ℕ} (hn : n ≤ l.length) :
    ∃ cb', cb.eraseEnd T n = .ok cb' ∧ cb'.capacity = cb.capacity ∧
      cb'.Repr T (l.take (l.length - n)) := by
  have hsize := h.size_eq
  rw [CircularBuffer.eraseEnd, cbAssert, if_pos (by omega), ok_bind]
  cases hT : T.scalar with
  | true => exact ⟨_, rfl, rfl, h.eraseEndScalar hT hn⟩
  | false =>
    obtain ⟨cb', hcb', hcap, -, hr⟩ := h.eraseEndItems hn
    exact ⟨cb', hcb', hcap, hr⟩

theorem destroyContentLoop_spec (cb : CircularBuffer α) {k : ℕ}
    (h : Repr T { cb with size := l.length } l) (hk : k ≤ l.length) :
    ∃ cb', destroyContentLoop T k cb = .ok cb' ∧ cb'.capacity = cb.capacity ∧
      cb'.first = slot cb.capacity cb.first k ∧ cb'.last = cb.last ∧ cb'.size = cb.size ∧
      Repr T { cb' with size := (l.drop k).length } (l.drop k) := by
  induction k generalizing cb l with
  | zero => exact ⟨cb, rfl, rfl, h.slot_first_zero.symm, rfl, rfl, h⟩
  | succ k ih =>
    obtain ⟨cb₁, hcb₁, hcap, -, hfirst, hr⟩ := h.destroyFirst (by omega)
    obtain ⟨buff, hbuff, he⟩ := bind_eq_ok_iff.mp hcb₁
    cases he
    have hr₁ : Repr T { cb with buff := buff, first := increment cb.capacity cb.first,
                                size := l.tail.length } l.tail := by
      rw [length_tail]
      exact hr
    have hk' : k ≤ l.tail.length := by rw [length_tail]; omega
    obtain ⟨cb', hcb', hcap', hfirst', hlast', hsize', hr'⟩ := ih
      { cb with buff := buff, first := increment cb.capacity cb.first } hr₁ hk'
    refine ⟨cb', ?_, hcap'.trans hcap, ?_, hlast', hsize', ?_⟩
    · rw [CircularBuffer.destroyContentLoop, hbuff, ok_bind]
      exact hcb'
    · have hcap : buff.length = cb.capacity := hcap
      have hfirst : increment cb.capacity cb.first = slot cb.capacity cb.first 1 := hfirst
      rw [hfirst']
      show slot buff.length (increment cb.capacity cb.first) k = _
      rw [hcap, hfirst, slot_slot, Nat.add_comm]
    · rwa [drop_tail] at hr'

theorem Repr.destroyContentItems (h : cb.Repr T l) :
    ∃ cb', cb.destroyContentItems T = .ok cb' ∧ cb'.capacity = cb.capacity ∧
      cb'.first = slot cb.capacity cb.first cb.size ∧ cb'.last = cb.last ∧ cb'.size = cb.size ∧
      Repr T { cb' with size := 0 } [] := by
  have hsize := h.size_eq
  have h₁ : Repr T { cb with size := l.length } l := by rwa [← hsize]
  obtain ⟨cb', hcb', hcap, hfirst, hlast, hsize', hr⟩ := destroyContentLoop_spec cb h₁ le_rfl
  rw [← hsize] at hcb' hfirst
  rw [drop_length] at hr
  exact ⟨cb', hcb', hcap, hfirst, hlast, hsize', hr⟩

theorem Repr.destroyContentScalar (h : cb.Repr T l) (hT : T.scalar = true) :
    Repr T { cb.destroyContentScalar with size := 0 } [] := by
  have hsize := h.size_eq
  have hr := h.eraseBeginScalar hT (le_refl l.length)
  rw [drop_length] at hr
  have he : ({ cb.destroyContentScalar with size := 0 } : CircularBuffer α) =
      cb.eraseBeginScalar l.length := by
    rw [← hsize, CircularBuffer.destroyContentScalar, CircularBuffer.eraseBeginScalar, Nat.sub_self]
  rwa [he]

theorem Repr.destroyContent (h : cb.Repr T l) :
    ∃ cb', cb.destroyContent T = .ok cb' ∧ cb'.capacity = cb.capacity ∧
      Repr T { cb' with size := 0 } [] := by
  rw [CircularBuffer.destroyContent]
  cases hT : T.scalar with
  | true => exact ⟨_, rfl, rfl, h.destroyContentScalar hT⟩
  | false =>
    obtain ⟨cb', hcb', hcap, -, -, -, hr⟩ := h.destroyContentItems
    exact ⟨cb', hcb', hcap, hr⟩

theorem Repr.clear (h : cb.Repr T l) :
    ∃ cb', cb.clear T = .ok cb' ∧ cb'.capacity = cb.capacity ∧ cb'.Repr T [] := by
  obtain ⟨cb', hcb', hcap, hr⟩ := h.destroyContent
  rw [CircularBuffer.clear, hcb']
  exact ⟨_, rfl, hcap, hr⟩

end SourceLibs.CircularBuffer
