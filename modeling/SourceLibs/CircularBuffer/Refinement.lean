import Mathlib.Data.List.Rotate
import SourceLibs.CircularBuffer.Erase
import SourceLibs.CircularBuffer.Insert
import SourceLibs.Support.Runs

/-!
# CircularBuffer — refinement

The operations that rotate the buffer or give it other cells, and then all of them: `Op` collects the
operations, `Op.apply` runs the code, and `Op.spec` says what is done to the capacity and the list,
`none` where an assertion of the operation does not hold.

An item may also be an element of the buffer itself, passed by reference.  `insert` and `rinsert` read
it after they have made room, and `resize` and `rresize` after they have given up a storage that is too
small; `RefCall.Intact` says when the element is still there then.

* `Repr.rotate`, `Repr.setCapacity`, `Repr.rsetCapacity`, `Repr.resize`, `Repr.rresize`.
* `Op.apply_refines`: one operation; `RefCall.apply_iff`: one call, whose item may be an element.
* `circularBuffer_refines`: the elements read from `begin()`, the pointers, and the operations on
  scalars against those element by element.
-/

namespace SourceLibs.CircularBuffer
open List Nat Option

open RingCells

variable {α : Type} {T : ValueType α} {cb : CircularBuffer α} {l : List α}

/-! ### Rotation -/

/-- An element moved from stays an element. -/
theorem Repr.take (h : cb.Repr T l) {i : ℕ} (hi : i < l.length) :
    ∃ buff, take T.moved cb.buff (slot cb.capacity cb.first i) = .ok (l[i], buff) ∧
      buff.length = cb.capacity ∧ Repr T { cb with buff := buff } (l.set i (T.moved l[i])) := by
  obtain ⟨hle, hsize⟩ := h.sizes
  have hpos : 0 < cb.capacity := by omega
  have hf := h.first_lt_of_pos hpos
  have hlen : (cb.buff.set (slot cb.capacity cb.first i) (some (T.moved l[i]))).length =
    cb.capacity := length_set ..
  refine ⟨_, take_slot T.moved cb.length_buff hpos (h.view_eq hi), hlen, Repr.of_view (o := 0) hf
    hlen h.slot_first_zero.symm ?_ ?_ ?_ fun j hj hsc => ?_⟩
  · rw [length_set, Nat.zero_add, ← hsize, ← h.last_eq]
  · rw [length_set, ← hsize]
  · rw [length_set]
    omega
  · rw [length_set] at hsc
    rw [Nat.zero_add, view_set cb.length_buff _ _ (by omega) (by omega), List.getElem?_set,
      h.cells j hj hsc]
    by_cases he : j = i
    · rw [if_pos he, if_pos he.symm, if_pos hi]
    · rw [if_neg he, if_neg (Ne.symm he)]

theorem Repr.empty_eq_false (h : cb.Repr T l) (hne : 0 < l.length) : cb.empty = false :=
  Bool.eq_false_iff.mpr fun hc => by
    have := empty_iff.mp hc
    have := h.size_eq
    omega

theorem Repr.rotateFront (h : cb.Repr T l) (hroom : l.length < cb.capacity) {k : ℕ}
    (hk : k ≤ l.length) :
    ∃ cb', rotateFront T k cb = .ok cb' ∧ cb'.capacity = cb.capacity ∧
      cb'.Repr T (l.rotate k) := by
  induction k generalizing cb l with
  | zero => exact ⟨cb, rfl, rfl, by rwa [rotate_zero]⟩
  | succ k ih =>
    cases l with
    | nil => simp at hk
    | cons a l =>
      have hlen : (l ++ [a]).length = (a :: l).length := by simp
      obtain ⟨buff, htake, hbuff, hr⟩ := h.take (i := 0) (succ_pos _)
      rw [h.slot_first_zero] at htake
      obtain ⟨cb₁, hcb₁, hcap₁, hr₁⟩ := hr.pushBack a
      have hkeep : keepLast (capacity { cb with buff := buff })
          ((a :: l).set 0 (T.moved a) ++ [a]) = T.moved a :: (l ++ [a]) :=
        keepLast_of_le (by simpa [capacity, hbuff] using succ_le_of_lt hroom)
      rw [show (a :: l)[0] = a from rfl, hkeep] at hr₁
      obtain ⟨cb₂, hcb₂, hcap₂, hr₂⟩ := hr₁.popFront (succ_pos _)
      have hcap : cb₂.capacity = cb.capacity := (hcap₂.trans hcap₁).trans hbuff
      obtain ⟨cb', hcb', hcap', hr'⟩ := ih (l := l ++ [a]) hr₂ (by rw [hlen, hcap]; exact hroom)
        (by rw [hlen]; omega)
      refine ⟨cb', ?_, hcap'.trans hcap, by rwa [rotate_cons_succ]⟩
      rw [CircularBuffer.rotateFront, cbAssert, if_pos (h.empty_eq_false (succ_pos _)),
        ok_bind, htake]
      simp only [ok_bind]
      rw [show (a :: l)[0] = a from rfl, hcb₁, ok_bind, hcb₂, ok_bind, hcb']

theorem Repr.rotateBack (h : cb.Repr T l) (hroom : l.length < cb.capacity) {m : ℕ}
    (hm : m ≤ l.length) :
    ∃ cb', rotateBack T m cb = .ok cb' ∧ cb'.capacity = cb.capacity ∧
      cb'.Repr T (l.rotate (l.length - m)) := by
  induction m generalizing cb l with
  | zero => exact ⟨cb, rfl, rfl, by rwa [Nat.sub_zero, rotate_length]⟩
  | succ m ih =>
    obtain ⟨l, a, rfl⟩ : ∃ l' a, l = l' ++ [a] :=
      ⟨_, _, (dropLast_append_getLast (ne_nil_of_length_pos (by omega))).symm⟩
    have hlen : (l ++ [a]).length = l.length + 1 := by simp
    have hsize := h.size_eq
    have hback : (if cb.last = 0 then cb.capacity else cb.last) - 1 =
        slot cb.capacity cb.first l.length := by
      have hd := decrement_slot (b := cb.first) (i := l.length) (show 0 < cb.capacity by omega)
      rw [← hlen, ← hsize, ← h.last_eq] at hd
      exact hd
    obtain ⟨buff, htake, hbuff, hr⟩ := h.take (i := l.length) (by omega)
    obtain ⟨cb₁, hcb₁, hcap₁, hr₁⟩ := hr.pushFront a
    have hkeep : (a :: (l ++ [a]).set l.length (T.moved a)).take (capacity { cb with buff := buff }) =
        a :: l ++ [T.moved a] := by
      rw [capacity, hbuff, take_of_length_le (by simpa using succ_le_of_lt hroom)]
      simp
    have hget : (l ++ [a])[l.length] = a := by simp
    rw [hget] at htake hr₁
    rw [hkeep] at hr₁
    obtain ⟨cb₂, hcb₂, hcap₂, hr₂⟩ := hr₁.popBack (by simp)
    rw [dropLast_concat] at hr₂
    have hcap : cb₂.capacity = cb.capacity := (hcap₂.trans hcap₁).trans hbuff
    obtain ⟨cb', hcb', hcap', hr'⟩ := ih (l := a :: l) hr₂ (by rw [hcap]; simpa using hroom)
      (by rw [length_cons]; omega)
    refine ⟨cb', ?_, hcap'.trans hcap, ?_⟩
    · rw [CircularBuffer.rotateBack, cbAssert, if_pos (h.empty_eq_false (by omega)), ok_bind, hback,
        htake]
      simp only [ok_bind]
      rw [hcb₁, ok_bind, hcb₂, ok_bind, hcb']
    · have hrot : (a :: l).rotate 1 = l ++ [a] := by simp
      rw [hlen] at hm
      rwa [hlen, ← hrot, rotate_rotate, show 1 + (l.length + 1 - (m + 1)) =
        (a :: l).length - m by rw [length_cons]; omega]

theorem Repr.rotate (h : cb.Repr T l) {k : ℕ} (hk : k < l.length) :
    ∃ cb', cb.rotate T (cb.iterAt k) = .ok cb' ∧ cb'.capacity = cb.capacity ∧
      cb'.Repr T (l.rotate k) := by
  obtain ⟨hle, hsize⟩ := h.sizes
  have hpos : 0 < cb.capacity := by omega
  have hm : cb.diff none (cb.iterAt k) = ((l.length - k : ℕ) : ℤ) := by
    rw [← iterAt_size, h.diff_iterAt le_rfl (by omega)]
    omega
  have hn : cb.diff (cb.iterAt k) cb.begin = (k : ℤ) := by
    rw [h.begin_eq, h.diff_iterAt (by omega) (by omega)]
    omega
  rw [iterAt_of_lt (by omega)] at hm hn ⊢
  rw [CircularBuffer.rotate]
  by_cases hfull : cb.capacity = cb.size
  · rw [if_pos (full_iff.mpr hfull)]
    refine ⟨_, rfl, rfl, Repr.of_view (o := k) (h.first_lt_of_pos hpos) rfl rfl ?_ ?_ ?_
      fun i hi _ => ?_⟩
    · rw [length_rotate, ← hsize, ← hfull, slot_add_self]
    · rw [length_rotate, ← hsize]
    · rw [length_rotate]
      omega
    · rw [List.getElem?_rotate (by omega)]
      show view cb.buff cb.first (k + i) = _
      by_cases hlt : k + i < cb.capacity
      · rw [h.cells _ hlt fun _ => by omega, Nat.add_comm i, mod_eq_of_lt (by omega)]
      · rw [show k + i = k + i - cb.capacity + cb.capacity by omega, view_add_length cb.length_buff,
          h.cells _ (by omega) fun _ => by omega, mod_eq_sub_mod (by omega),
          mod_eq_of_lt (by omega)]
        congr 1
        omega
  · rw [if_neg (mt full_iff.mp hfull)]
    dsimp only
    rw [hm, hn]
    split
    · obtain ⟨cb', hcb', hcap, hr⟩ := h.rotateBack (by omega) (sub_le l.length k)
      rw [Nat.sub_sub_self hk.le] at hr
      exact ⟨cb', hcb', hcap, hr⟩
    · exact h.rotateFront (by omega) hk.le

/-! ### Capacity -/

/-- New cells, `xs` constructed in the first ones. -/
def filled (xs : List α) (r : ℕ) : List (Option α) := xs.map some ++ List.replicate r none

theorem length_filled (xs : List α) (r : ℕ) : (filled xs r).length = xs.length + r := by
  simp [filled]

theorem construct_filled (T : ValueType α) (xs : List α) (r : ℕ) (v : α) :
    construct T (filled xs (r + 1)) xs.length v = .ok (filled (xs ++ [v]) r) := by
  have hget : (filled xs (r + 1))[xs.length]? = some none := by simp [filled]
  rw [construct, hget]
  simp [filled, List.replicate_succ]

theorem Repr.uninitializedMove (h : cb.Repr T l) {i m r fuel : ℕ} {s : List (Option α)}
    {l' : List α} (hlen : s.length = cb.capacity) (hs : Repr T { cb with buff := s } l')
    (him : i + m ≤ l.length) (hm : m ≤ r) (hfuel : m < fuel) (xs : List α) :
    ∃ s' l'', uninitializedMove T cb (cb.iterAt (i + m)) fuel s (filled xs r) (cb.iterAt i)
        xs.length = .ok (s', filled (xs ++ (l'.drop i).take m) (r - m), xs.length + m) ∧
      Repr T { cb with buff := s' } l'' := by
  have hsize := h.size_eq
  induction m generalizing i r fuel s l' xs with
  | zero =>
    obtain ⟨fuel, rfl⟩ := exists_eq_add_one_of_ne_zero (by omega : fuel ≠ 0)
    refine ⟨s, l', ?_, hs⟩
    unfold CircularBuffer.uninitializedMove
    rw [Nat.add_zero, if_pos rfl, take_zero, append_nil]
    rfl
  | succ m ih =>
    obtain ⟨fuel, rfl⟩ := exists_eq_add_one_of_ne_zero (by omega : fuel ≠ 0)
    obtain ⟨r, rfl⟩ := exists_eq_add_one_of_ne_zero (by omega : r ≠ 0)
    have hl' : l'.length = l.length := by rw [← hsize, ← hs.size_eq]
    obtain ⟨s₁, htake, hlen₁, hs₁⟩ := hs.take (i := i) (by omega)
    have hcap : capacity { cb with buff := s } = cb.capacity := hlen
    rw [hcap] at htake hlen₁
    obtain ⟨s', l'', hrun, hr⟩ := ih (i := i + 1) (r := r) hlen₁ hs₁ (by omega)
      (by omega) (show m < fuel by omega) (xs ++ [l'[i]])
    refine ⟨s', l'', ?_, hr⟩
    have hdrop : (l'.set i (T.moved l'[i])).drop (i + 1) = l'.drop (i + 1) :=
      drop_set_of_lt (Nat.lt_succ_self i)
    have htake' : (l'.drop i).take (m + 1) = l'[i] :: (l'.drop (i + 1)).take m := by
      rw [drop_eq_getElem_cons (by omega), take_succ_cons]
    rw [hdrop, show i + 1 + m = i + (m + 1) by omega, List.append_assoc, singleton_append,
      ← htake', length_append, length_singleton] at hrun
    have hne : ¬ cb.iterAt i = cb.iterAt (i + (m + 1)) := fun hc =>
      absurd ((h.iterAt_inj (by omega) (by omega)).mp hc) (by omega)
    unfold CircularBuffer.uninitializedMove
    rw [if_neg hne, iterAt_of_lt (by omega : i < cb.size)]
    dsimp only
    rw [htake]
    simp only [ok_bind]
    rw [construct_filled, ok_bind, h.next_iterAt (by omega), ok_bind, hrun]
    simp [Nat.add_assoc, Nat.add_comm 1 m]

theorem Repr.reset (h : cb.Repr T l) (xs : List α) (r : ℕ) :
    ∃ cb', cb.reset T (filled xs r) xs.length (xs.length + r) = .ok cb' ∧
      cb'.capacity = xs.length + r ∧ cb'.Repr T xs := by
  obtain ⟨cb₁, hcb₁, -, -⟩ := h.destroyContent
  rw [CircularBuffer.reset, hcb₁, ok_bind]
  refine ⟨_, rfl, length_filled xs r, ?_⟩
  rcases Nat.eq_zero_or_pos (xs.length + r) with h0 | hpos
  · have hxs : xs = [] := eq_nil_of_length_eq_zero (by omega)
    have hr : r = 0 := by omega
    subst hxs hr
    exact repr_ofCapacity T 0
  · refine Repr.of_view (o := 0) hpos (length_filled xs r) (slot_zero hpos).symm ?_ rfl
      (Nat.le_add_right _ _) fun i hi _ => ?_
    · rw [Nat.zero_add]
      show (if xs.length = xs.length + r then 0 else xs.length) = _
      split
      · rename_i he
        rw [← he, slot_self, slot_zero (by omega)]
      · rw [slot_of_lt (by omega), Nat.zero_add]
    · rw [Nat.zero_add, view, length_filled, slot_of_lt (by omega), Nat.zero_add, filled,
        getD_eq_getElem?_getD, List.getElem?_append, length_map]
      split
      · rename_i hlt
        rw [List.getElem?_map, List.getElem?_eq_getElem hlt]
        rfl
      · rename_i hge
        rw [List.getElem?_eq_none (l := xs) (by omega), List.getElem?_replicate,
          if_pos (by omega)]
        rfl

/-- **`set_capacity`** keeps the first elements. -/
theorem Repr.setCapacity (h : cb.Repr T l) (c : ℕ) :
    ∃ cb', cb.setCapacity T c = .ok cb' ∧ cb'.capacity = c ∧ cb'.Repr T (l.take c) := by
  obtain ⟨hle, hsize⟩ := h.sizes
  rw [CircularBuffer.setCapacity]
  split
  · rename_i hc
    exact ⟨cb, rfl, hc.symm, by rwa [take_of_length_le (by omega)]⟩
  · obtain ⟨s, l', hmove, hr⟩ := h.uninitializedMove (i := 0) (m := min c cb.size) (r := c)
      cb.length_buff h (by omega) (by omega) (show _ < cb.capacity + 1 by omega) []
    obtain ⟨cb', hcb', hcap, hr'⟩ := hr.reset (l.take (min c cb.size)) (c - min c cb.size)
    have hlen : (l.take (min c cb.size)).length = min c cb.size := by
      rw [length_take]
      omega
    rw [hlen, Nat.add_sub_cancel' (by omega)] at hcb' hcap
    refine ⟨cb', ?_, hcap, ?_⟩
    · rw [h.plus_begin (by omega), ok_bind, h.begin_eq]
      rw [Nat.zero_add, nil_append, drop_zero, length_nil, Nat.zero_add] at hmove
      have hmove : CircularBuffer.uninitializedMove T cb (cb.iterAt (min c cb.size))
          (cb.capacity + 1) cb.buff (List.replicate c none) (cb.iterAt 0) 0 = _ := hmove
      rw [hmove]
      exact hcb'
    · rwa [hsize, ← take_take, take_length] at hr'

/-- **`rset_capacity`** keeps the last elements. -/
theorem Repr.rsetCapacity (h : cb.Repr T l) (c : ℕ) :
    ∃ cb', cb.rsetCapacity T c = .ok cb' ∧ cb'.capacity = c ∧ cb'.Repr T (keepLast c l) := by
  obtain ⟨hle, hsize⟩ := h.sizes
  rw [CircularBuffer.rsetCapacity]
  split
  · rename_i hc
    exact ⟨cb, rfl, hc.symm, by rwa [keepLast_of_le (by omega)]⟩
  · obtain ⟨s, l', hmove, hr⟩ := h.uninitializedMove (i := cb.size - min c cb.size)
      (m := min c cb.size) (r := c) cb.length_buff h (by omega) (by omega)
      (show _ < cb.capacity + 1 by omega) []
    have hxs : (l.drop (cb.size - min c cb.size)).take (min c cb.size) = keepLast c l := by
      rw [take_of_length_le (by rw [length_drop]; omega), keepLast,
        show cb.size - min c cb.size = l.length - c by omega]
    have hlen : (keepLast c l).length = min c cb.size := by
      rw [length_keepLast]
      omega
    obtain ⟨cb', hcb', hcap, hr'⟩ := hr.reset (keepLast c l) (c - min c cb.size)
    rw [hlen, Nat.add_sub_cancel' (by omega)] at hcb' hcap
    refine ⟨cb', ?_, hcap, hr'⟩
    rw [h.minus_end (by omega), ok_bind]
    rw [Nat.sub_add_cancel (by omega), iterAt_size, nil_append, hxs, length_nil,
      Nat.zero_add] at hmove
    have hmove : CircularBuffer.uninitializedMove T cb none (cb.capacity + 1) cb.buff
        (List.replicate c none) (cb.iterAt (cb.size - min c cb.size)) 0 = _ := hmove
    rw [hmove]
    exact hcb'

theorem Repr.growCapacity (h : cb.Repr T l) {n : ℕ} (hn : l.length < n) :
    ∃ cb', cb.growCapacity T n = .ok cb' ∧ cb'.capacity = max cb.capacity n ∧ cb'.Repr T l := by
  rw [CircularBuffer.growCapacity]
  split
  · obtain ⟨cb', hcb', hcap, hr⟩ := h.setCapacity n
    refine ⟨cb', hcb', by omega, ?_⟩
    rwa [take_of_length_le hn.le] at hr
  · exact ⟨cb, rfl, by omega, h⟩

/-- **`resize`** fills or cuts at the end. -/
theorem Repr.resize (h : cb.Repr T l) (n : ℕ) (v : α) :
    ∃ cb', cb.resize T n (.value v) = .ok cb' ∧ cb'.capacity = max cb.capacity n ∧
      cb'.Repr T (l.take n ++ List.replicate (n - l.length) v) := by
  obtain ⟨hle, hsize⟩ := h.sizes
  rw [CircularBuffer.resize]
  split
  · obtain ⟨cb₁, hcb₁, hcap₁, hr₁⟩ := h.growCapacity (n := n) (by omega)
    have hsize₁ := hr₁.size_eq
    obtain ⟨cb', hcb', hcap, hr⟩ := hr₁.insertFill_end (n - l.length) v
    refine ⟨cb', ?_, hcap.trans hcap₁, ?_⟩
    · rw [hcb₁, ok_bind, hsize₁, grownItem, hcb']
    · rw [Nat.min_eq_left (by omega), keepLast_of_le (by simp; omega)] at hr
      rwa [take_of_length_le (by omega)]
  · obtain ⟨cb', it, hcb', hcap, -, hr⟩ := h.eraseRange (i := n) (by omega) le_rfl
    refine ⟨cb', ?_, by omega, ?_⟩
    · rw [h.minus_end (by omega), ok_bind, show cb.size - (cb.size - n) = n by omega]
      rw [← hsize, iterAt_size] at hcb'
      rw [hcb']
      rfl
    · rwa [drop_length, show n - l.length = 0 by omega] at *

/-- **`rresize`** fills or cuts at the start. -/
theorem Repr.rresize (h : cb.Repr T l) (n : ℕ) (v : α) :
    ∃ cb', cb.rresize T n (.value v) = .ok cb' ∧ cb'.capacity = max cb.capacity n ∧
      cb'.Repr T (List.replicate (n - l.length) v ++ keepLast n l) := by
  obtain ⟨hle, hsize⟩ := h.sizes
  rw [CircularBuffer.rresize]
  split
  · obtain ⟨cb₁, hcb₁, hcap₁, hr₁⟩ := h.growCapacity (n := n) (by omega)
    have hsize₁ := hr₁.size_eq
    obtain ⟨cb', hcb', hcap, hr⟩ := hr₁.rinsertFill_begin (n - l.length) v
    refine ⟨cb', ?_, hcap.trans hcap₁, ?_⟩
    · rw [hcb₁, ok_bind, hsize₁, grownItem, hcb']
    · rw [Nat.min_eq_left (by omega), take_of_length_le (by simp; omega)] at hr
      rwa [keepLast_of_le (by omega)]
  · obtain ⟨cb', it, hcb', hcap, -, -, hr⟩ := h.reraseRange (Nat.zero_le (l.length - n))
      (sub_le l.length n)
    refine ⟨cb', ?_, by omega, ?_⟩
    · rw [h.minus_end (by omega), ok_bind, hsize, h.begin_eq, hcb']
      rfl
    · rwa [show n - l.length = 0 by omega]

/-! ### Operations -/

/-- The operations; a position is an index from `begin()`. -/
inductive Op (α : Type) where
  | pushBack (item : α)
  | pushFront (item : α)
  | popBack
  | popFront
  | insert (pos : ℕ) (item : α)
  | rinsert (pos : ℕ) (item : α)
  | erase (pos : ℕ)
  | eraseRange (first last : ℕ)
  | rerase (pos : ℕ)
  | reraseRange (first last : ℕ)
  | rotate (newBegin : ℕ)
  | resize (newSize : ℕ) (item : α)
  | rresize (newSize : ℕ) (item : α)
  | setCapacity (newCapacity : ℕ)
  | rsetCapacity (newCapacity : ℕ)
  | eraseBegin (n : ℕ)
  | eraseEnd (n : ℕ)
  | clear

/-- The code of an operation, at the iterators `begin() + pos`. -/
def Op.apply (T : ValueType α) (cb : CircularBuffer α) : Op α → Except Fault (CircularBuffer α)
  | pushBack item => cb.pushBack T item
  | pushFront item => cb.pushFront T item
  | popBack => cb.popBack T
  | popFront => cb.popFront T
  | insert pos item => do
    let it ← cb.plus cb.begin pos
    let (cb, _) ← cb.insert T it (.value item)
    .ok cb
  | rinsert pos item => do
    let it ← cb.plus cb.begin pos
    let (cb, _) ← cb.rinsert T it (.value item)
    .ok cb
  | erase pos => do
    let it ← cb.plus cb.begin pos
    let (cb, _) ← cb.erase T it
    .ok cb
  | eraseRange first last => do
    let it ← cb.plus cb.begin first
    let it' ← cb.plus cb.begin last
    let (cb, _) ← cb.eraseRange T it it'
    .ok cb
  | rerase pos => do
    let it ← cb.plus cb.begin pos
    let (cb, _) ← cb.rerase T it
    .ok cb
  | reraseRange first last => do
    let it ← cb.plus cb.begin first
    let it' ← cb.plus cb.begin last
    let (cb, _) ← cb.reraseRange T it it'
    .ok cb
  | rotate newBegin => do
    let it ← cb.plus cb.begin newBegin
    cb.rotate T it
  | resize newSize item => cb.resize T newSize (.value item)
  | rresize newSize item => cb.rresize T newSize (.value item)
  | setCapacity c => cb.setCapacity T c
  | rsetCapacity c => cb.rsetCapacity T c
  | eraseBegin n => cb.eraseBegin T n
  | eraseEnd n => cb.eraseEnd T n
  | clear => cb.clear T

/-- What an operation is for: the capacity and the elements after it. -/
def Op.spec (st : ℕ × List α) (op : Op α) : Option (ℕ × List α) :=
  let (c, l) := st
  match op with
  | pushBack item => some (c, keepLast c (l ++ [item]))
  | pushFront item => some (c, (item :: l).take c)
  | popBack => if 0 < l.length then some (c, l.dropLast) else none
  | popFront => if 0 < l.length then some (c, l.tail) else none
  | insert pos item =>
    if pos ≤ l.length then some (c, keepLast c (splice pos [item] l)) else none
  | rinsert pos item =>
    if pos ≤ l.length then some (c, (splice pos [item] l).take c) else none
  | erase pos => if pos < l.length then some (c, l.eraseIdx pos) else none
  | eraseRange first last =>
    if first ≤ last ∧ last ≤ l.length then some (c, l.take first ++ l.drop last) else none
  | rerase pos => if pos < l.length then some (c, l.eraseIdx pos) else none
  | reraseRange first last =>
    if first ≤ last ∧ last ≤ l.length then some (c, l.take first ++ l.drop last) else none
  | rotate newBegin => if newBegin < l.length then some (c, l.rotate newBegin) else none
  | resize newSize item =>
    some (max c newSize, l.take newSize ++ List.replicate (newSize - l.length) item)
  | rresize newSize item =>
    some (max c newSize, List.replicate (newSize - l.length) item ++ keepLast newSize l)
  | setCapacity c' => some (c', l.take c')
  | rsetCapacity c' => some (c', keepLast c' l)
  | eraseBegin n => if n ≤ l.length then some (c, l.drop n) else none
  | eraseEnd n => if n ≤ l.length then some (c, l.take (l.length - n)) else none
  | clear => some (c, [])

/-- **One operation** whose assertions hold returns and does to the list what it is for. -/
theorem Op.apply_refines (h : cb.Repr T l) (op : Op α) {st : ℕ × List α}
    (hs : op.spec (cb.capacity, l) = some st) :
    ∃ cb', op.apply T cb = .ok cb' ∧ cb'.capacity = st.1 ∧ cb'.Repr T st.2 := by
  have hsize := h.size_eq
  -- an operation at a position
  have hpos : ∀ {pos : ℕ}, pos ≤ l.length → cb.plus cb.begin pos = .ok (cb.iterAt pos) :=
    fun hle => h.plus_begin (by omega)
  cases op with
  | pushBack v =>
    cases hs
    exact h.pushBack v
  | pushFront v =>
    cases hs
    exact h.pushFront v
  | popBack =>
    obtain ⟨hne, he⟩ := ite_none_right_eq_some.mp hs
    cases he
    exact h.popBack hne
  | popFront =>
    obtain ⟨hne, he⟩ := ite_none_right_eq_some.mp hs
    cases he
    exact h.popFront hne
  | insert pos v =>
    obtain ⟨hle, he⟩ := ite_none_right_eq_some.mp hs
    cases he
    obtain ⟨cb', it, hcb', hcap, hr⟩ := h.insert hle (Item.finds_value cb l _ v)
    refine ⟨cb', ?_, hcap, hr⟩
    rw [apply, hpos hle, ok_bind, hcb']
    rfl
  | rinsert pos v =>
    obtain ⟨hle, he⟩ := ite_none_right_eq_some.mp hs
    cases he
    obtain ⟨cb', it, hcb', hcap, hr⟩ := h.rinsert hle (Item.finds_value cb l _ v)
    refine ⟨cb', ?_, hcap, hr⟩
    rw [apply, hpos hle, ok_bind, hcb']
    rfl
  | erase pos =>
    obtain ⟨hlt, he⟩ := ite_none_right_eq_some.mp hs
    cases he
    obtain ⟨cb', it, hcb', hcap, hr⟩ := h.erase hlt
    refine ⟨cb', ?_, hcap, hr⟩
    rw [apply, hpos hlt.le, ok_bind, hcb']
    rfl
  | eraseRange i j =>
    obtain ⟨⟨hij, hj⟩, he⟩ := ite_none_right_eq_some.mp hs
    cases he
    obtain ⟨cb', it, hcb', hcap, -, hr⟩ := h.eraseRange hij hj
    refine ⟨cb', ?_, hcap, hr⟩
    rw [apply, hpos (hij.trans hj), ok_bind, hpos hj, ok_bind, hcb']
    rfl
  | rerase pos =>
    obtain ⟨hlt, he⟩ := ite_none_right_eq_some.mp hs
    cases he
    obtain ⟨cb', it, hcb', hcap, hr⟩ := h.rerase hlt
    refine ⟨cb', ?_, hcap, hr⟩
    rw [apply, hpos hlt.le, ok_bind, hcb']
    rfl
  | reraseRange i j =>
    obtain ⟨⟨hij, hj⟩, he⟩ := ite_none_right_eq_some.mp hs
    cases he
    obtain ⟨cb', it, hcb', hcap, -, -, hr⟩ := h.reraseRange hij hj
    refine ⟨cb', ?_, hcap, hr⟩
    rw [apply, hpos (hij.trans hj), ok_bind, hpos hj, ok_bind, hcb']
    rfl
  | rotate k =>
    obtain ⟨hlt, he⟩ := ite_none_right_eq_some.mp hs
    cases he
    obtain ⟨cb', hcb', hcap, hr⟩ := h.rotate hlt
    refine ⟨cb', ?_, hcap, hr⟩
    rw [apply, hpos hlt.le, ok_bind, hcb']
  | resize n v =>
    cases hs
    exact h.resize n v
  | rresize n v =>
    cases hs
    exact h.rresize n v
  | setCapacity c =>
    cases hs
    exact h.setCapacity c
  | rsetCapacity c =>
    cases hs
    exact h.rsetCapacity c
  | eraseBegin n =>
    obtain ⟨hle, he⟩ := ite_none_right_eq_some.mp hs
    cases he
    exact h.eraseBegin hle
  | eraseEnd n =>
    obtain ⟨hle, he⟩ := ite_none_right_eq_some.mp hs
    cases he
    exact h.eraseEnd hle
  | clear =>
    cases hs
    exact h.clear

/-! ### Reading -/

theorem Repr.elementsFrom (h : cb.Repr T l) {i m fuel : ℕ} (him : i + m = l.length)
    (hfuel : m ≤ fuel) : cb.elementsFrom fuel (cb.iterAt i) = .ok (l.drop i) := by
  obtain ⟨hle, hsize⟩ := h.sizes
  induction m generalizing i fuel with
  | zero =>
    rw [show i = cb.size by omega, iterAt_size, hsize, drop_length]
    cases fuel <;> rfl
  | succ m ih =>
    obtain ⟨fuel, rfl⟩ := exists_eq_add_one_of_ne_zero (by omega : fuel ≠ 0)
    have hdrop : l.drop i = l[i] :: l.drop (i + 1) := drop_eq_getElem_cons (by omega)
    rw [iterAt_of_lt (by omega), CircularBuffer.elementsFrom,
      read_slot cb.length_buff (by omega) (h.view_eq (by omega)), ok_bind,
      h.next_iterAt (by omega), ok_bind, ih (by omega) (by omega), ok_bind, hdrop]

/-- **The elements** read from `begin()`. -/
theorem Repr.elements (h : cb.Repr T l) : cb.elements = .ok l := by
  obtain ⟨hle, hsize⟩ := h.sizes
  rw [CircularBuffer.elements, h.begin_eq, h.elementsFrom (m := l.length) (by omega) (by omega)]
  rfl

/-! ### Items that are elements -/

/-- The operations that take an item. -/
inductive ItemOp where
  | pushBack
  | pushFront
  | insert (pos : ℕ)
  | rinsert (pos : ℕ)
  | resize (newSize : ℕ)
  | rresize (newSize : ℕ)

/-- The operation with an item of its own. -/
def ItemOp.op (item : α) : ItemOp → Op α
  | pushBack => .pushBack item
  | pushFront => .pushFront item
  | insert pos => .insert pos item
  | rinsert pos => .rinsert pos item
  | resize newSize => .resize newSize item
  | rresize newSize => .rresize newSize item

/-- The call on the buffer. -/
def ItemOp.apply (T : ValueType α) (cb : CircularBuffer α) (item : Item α) :
    ItemOp → Except Fault (CircularBuffer α)
  | pushBack => do
    let v ← item.get cb.buff
    cb.pushBack T v
  | pushFront => do
    let v ← item.get cb.buff
    cb.pushFront T v
  | insert pos => do
    let it ← cb.plus cb.begin pos
    let (cb, _) ← cb.insert T it item
    .ok cb
  | rinsert pos => do
    let it ← cb.plus cb.begin pos
    let (cb, _) ← cb.rinsert T it item
    .ok cb
  | resize newSize => cb.resize T newSize item
  | rresize newSize => cb.rresize T newSize item

/-- An operation, with an item of its own or with the element `cb[i]` as its item. -/
inductive RefCall (α : Type) where
  | op (op : Op α)
  | element (i : ℕ) (o : ItemOp)

/-- The call on the buffer. -/
def RefCall.apply (T : ValueType α) (cb : CircularBuffer α) :
    RefCall α → Except Fault (CircularBuffer α)
  | op o => o.apply T cb
  | element i o => do
    cbAssert (i < cb.size)
    o.apply T cb (.cell (add cb.capacity cb.first i))

/-- What a call is for: the element is the one there before the call. -/
def RefCall.spec (st : ℕ × List α) : RefCall α → Option (ℕ × List α)
  | op o => o.spec st
  | element i o => do
    let v ← st.2[i]?
    (o.op v).spec st

/-- The element given as an item is still there when it is read. -/
def RefCall.Intact (T : ValueType α) (st : ℕ × List α) : RefCall α → Prop
  | element i (.insert pos) => insertFinds T st.1 st.2 pos i = st.2[i]?
  | element i (.rinsert pos) => rinsertFinds T st.1 st.2 pos i = st.2[i]?
  | element _ (.resize newSize) => newSize ≤ st.1
  | element _ (.rresize newSize) => newSize ≤ st.1
  | _ => True

theorem insertFinds_isSome (T : ValueType α) (c : ℕ) {k i : ℕ} (hi : i < l.length) :
    ∃ u, insertFinds T c l k i = some u := by
  unfold insertFinds
  split
  · exact ⟨_, getElem?_eq_getElem hi⟩
  split
  · exact ⟨_, getElem?_eq_getElem (by omega)⟩
  split
  · exact ⟨_, getElem?_eq_getElem hi⟩
  split
  · exact ⟨_, by rw [getElem?_eq_getElem (by omega), map_some]⟩
  · exact ⟨_, getElem?_eq_getElem (by omega)⟩

theorem rinsertFinds_isSome (T : ValueType α) (c : ℕ) {k i : ℕ} (hk : k ≤ l.length)
    (hi : i < l.length) : ∃ u, rinsertFinds T c l k i = some u := by
  unfold rinsertFinds
  split
  · exact ⟨_, getElem?_eq_getElem hi⟩
  split
  · exact ⟨_, getElem?_eq_getElem (by omega)⟩
  split
  · exact ⟨_, getElem?_eq_getElem hi⟩
  split
  · exact ⟨_, by rw [getElem?_eq_getElem hi, map_some]⟩
  · exact ⟨_, getElem?_eq_getElem (by omega)⟩

/-- An insertion that keeps what it inserts tells which element that was. -/
theorem keepLast_splice_inj {c k : ℕ} {u v : α} (hk : k ≤ l.length) (hle : l.length ≤ c)
    (hroom : ¬ (l.length = c ∧ k = 0))
    (h : keepLast c (splice k [u] l) = keepLast c (splice k [v] l)) : u = v := by
  have hget := congrArg (·[k - (l.length + 1 - c)]?) h
  simp only [getElem?_keepLast, length_splice, length_singleton, getElem?_splice _ hk] at hget
  have hidx : l.length + 1 - c + (k - (l.length + 1 - c)) = k := by omega
  rw [hidx, if_neg (by omega), if_pos (by omega), Nat.sub_self] at hget
  simpa using hget

theorem take_splice_inj {c k : ℕ} {u v : α} (hk : k ≤ l.length) (hroom : k < c)
    (h : (splice k [u] l).take c = (splice k [v] l).take c) : u = v := by
  have hget := congrArg (·[k]?) h
  simp only [getElem?_take_of_lt hroom, getElem?_splice _ hk, length_singleton] at hget
  rw [if_neg (by omega), if_pos (by omega), Nat.sub_self] at hget
  simpa using hget

/-- Nothing that is left of a freed storage can be read. -/
theorem Repr.resize_freed (h : cb.Repr T l) {n p : ℕ} (hn : cb.capacity < n) :
    ∀ cb', cb.resize T n (.cell p) ≠ .ok cb' := by
  have hle := h.size_le
  obtain ⟨cb₁, hcb₁, hcap₁, hr₁⟩ := h.growCapacity (n := n) (by have := h.size_eq; omega)
  have hsize := h.size_eq
  have hsize₁ := hr₁.size_eq
  have hcount := cb₁.constructCount_eq (n - cb₁.size)
  have hcopy : ((cb₁.capacity : ℤ) - cb₁.diff none none).toNat = cb₁.capacity := by
    rw [diff, sub_self, sub_zero, Int.toNat_natCast]
  intro cb' hcb'
  obtain ⟨k, hk⟩ := exists_eq_add_one_of_ne_zero (n := cb₁.constructCount (n - cb₁.size)) (by omega)
  rw [CircularBuffer.resize, if_pos (by omega), grownItem, if_pos hn, hcb₁, ok_bind, insertFill,
    hcopy, if_neg (by omega), if_neg (by omega), if_neg (by omega), insertN, insertNCells] at hcb'
  simp only [hk, fill, Item.get] at hcb'
  cases hcb'

theorem Repr.rresize_freed (h : cb.Repr T l) {n p : ℕ} (hn : cb.capacity < n) :
    ∀ cb', cb.rresize T n (.cell p) ≠ .ok cb' := by
  have hle := h.size_le
  obtain ⟨cb₁, hcb₁, hcap₁, hr₁⟩ := h.growCapacity (n := n) (by have := h.size_eq; omega)
  have hsize := h.size_eq
  have hsize₁ := hr₁.size_eq
  have hcount := cb₁.constructCount_eq (n - cb₁.size)
  have hcopy : ((cb₁.capacity : ℤ) - cb₁.diff cb₁.begin cb₁.begin).toNat = cb₁.capacity := by
    rw [diff, sub_self, sub_zero, Int.toNat_natCast]
  intro cb' hcb'
  obtain ⟨k, hk⟩ := exists_eq_add_one_of_ne_zero (n := cb₁.constructCount (n - cb₁.size)) (by omega)
  have hrest : n - cb₁.size - (k + 1) = 0 := by omega
  rw [CircularBuffer.rresize, if_pos (by omega), grownItem, if_pos hn, hcb₁, ok_bind, rinsertFill,
    rinsertN, hcopy, if_neg (by omega), if_neg (by omega)] at hcb'
  simp only [if_neg (by omega : ¬ cb₁.capacity < n - cb₁.size), rinsertNCells, hk, hrest, fill,
    Item.get, if_true, ok_bind] at hcb'
  cases hcb'

theorem Repr.resize_cell (h : cb.Repr T l) {n i : ℕ} (hn : n ≤ cb.capacity) (hi : i < l.length) :
    cb.resize T n (.cell (slot cb.capacity cb.first i)) = cb.resize T n (.value l[i]) := by
  have hsize := h.size_eq
  unfold CircularBuffer.resize CircularBuffer.growCapacity grownItem
  simp only [if_neg (by omega : ¬ cb.capacity < n), ok_bind]
  split
  · exact h.insertFill_end_cell (by omega) hi
  · rfl

theorem Repr.rresize_cell (h : cb.Repr T l) {n i : ℕ} (hn : n ≤ cb.capacity) (hi : i < l.length) :
    cb.rresize T n (.cell (slot cb.capacity cb.first i)) = cb.rresize T n (.value l[i]) := by
  have hsize := h.size_eq
  unfold CircularBuffer.rresize CircularBuffer.growCapacity grownItem
  simp only [if_neg (by omega : ¬ cb.capacity < n), ok_bind]
  split
  · exact h.rinsertFill_begin_cell (by omega) hi
  · rfl

/-- The cell that `cb[i]` refers to. -/
theorem Repr.element_apply (h : cb.Repr T l) {i : ℕ} (hi : i < l.length) (o : ItemOp) :
    (RefCall.element i o).apply T cb = o.apply T cb (.cell (slot cb.capacity cb.first i)) := by
  obtain ⟨hle, hsize⟩ := h.sizes
  rw [RefCall.apply, cbAssert, if_pos (by omega), ok_bind, h.add_first (by omega)]

/-- An insertion of an element puts in what it finds. -/
theorem Repr.insert_element (h : cb.Repr T l) {k i : ℕ} (hk : k ≤ l.length) (hi : i < l.length) :
    ∃ u cb', insertFinds T cb.capacity l k i = some u ∧
      (RefCall.element i (.insert k)).apply T cb = .ok cb' ∧ cb'.capacity = cb.capacity ∧
      cb'.Repr T (keepLast cb.capacity (splice k [u] l)) := by
  have hsize := h.size_eq
  obtain ⟨u, hu⟩ := insertFinds_isSome T cb.capacity hi (k := k)
  obtain ⟨cb', it, hcb', hcap, hr⟩ := h.insert hk (h.finds_cell hi hu)
  refine ⟨u, cb', hu, ?_, hcap, hr⟩
  rw [h.element_apply hi, ItemOp.apply, h.plus_begin (by omega), ok_bind, hcb']
  rfl

theorem Repr.rinsert_element (h : cb.Repr T l) {k i : ℕ} (hk : k ≤ l.length) (hi : i < l.length) :
    ∃ u cb', rinsertFinds T cb.capacity l k i = some u ∧
      (RefCall.element i (.rinsert k)).apply T cb = .ok cb' ∧ cb'.capacity = cb.capacity ∧
      cb'.Repr T ((splice k [u] l).take cb.capacity) := by
  have hsize := h.size_eq
  obtain ⟨u, hu⟩ := rinsertFinds_isSome T cb.capacity hk hi
  obtain ⟨cb', it, hcb', hcap, hr⟩ := h.rinsert hk (h.finds_cell hi hu)
  refine ⟨u, cb', hu, ?_, hcap, hr⟩
  rw [h.element_apply hi, ItemOp.apply, h.plus_begin (by omega), ok_bind, hcb']
  rfl

/-- **One call** that finds its element intact does to the list what it is for. -/
theorem RefCall.apply_refines (h : cb.Repr T l) (call : RefCall α) {st : ℕ × List α}
    (hs : call.spec (cb.capacity, l) = some st) (hi : call.Intact T (cb.capacity, l)) :
    ∃ cb', call.apply T cb = .ok cb' ∧ cb'.capacity = st.1 ∧ cb'.Repr T st.2 := by
  cases call with
  | op o => exact o.apply_refines h hs
  | element i o =>
    obtain ⟨v, hv, hs⟩ := bind_eq_some_iff.mp hs
    obtain ⟨hil, rfl⟩ := List.getElem?_eq_some_iff.mp hv
    have hread := read_slot (b := cb.first) cb.length_buff
      (Nat.lt_of_lt_of_le (Nat.zero_lt_of_lt hil) (h.size_eq ▸ h.size_le)) (h.view_eq hil)
    -- an operation that has the same effect with a copy of the element
    have hcopy : o.apply T cb (.cell (slot cb.capacity cb.first i)) = (o.op l[i]).apply T cb →
        ∃ cb', (RefCall.element i o).apply T cb = .ok cb' ∧ cb'.capacity = st.1 ∧ cb'.Repr T st.2 :=
      fun he => by
        rw [h.element_apply hil, he]
        exact (o.op l[i]).apply_refines h hs
    cases o with
    | pushBack => exact hcopy (by rw [ItemOp.apply, Item.get, hread, ok_bind]; rfl)
    | pushFront => exact hcopy (by rw [ItemOp.apply, Item.get, hread, ok_bind]; rfl)
    | insert k =>
      obtain ⟨hk, he⟩ := ite_none_right_eq_some.mp hs
      cases he
      obtain ⟨u, cb', hu, hcb', hcap, hr⟩ := h.insert_element hk hil
      obtain rfl : u = l[i] := some_injective _ (hu.symm.trans (hi.trans hv))
      exact ⟨cb', hcb', hcap, hr⟩
    | rinsert k =>
      obtain ⟨hk, he⟩ := ite_none_right_eq_some.mp hs
      cases he
      obtain ⟨u, cb', hu, hcb', hcap, hr⟩ := h.rinsert_element hk hil
      obtain rfl : u = l[i] := some_injective _ (hu.symm.trans (hi.trans hv))
      exact ⟨cb', hcb', hcap, hr⟩
    | resize n => exact hcopy (h.resize_cell hi hil)
    | rresize n => exact hcopy (h.rresize_cell hi hil)

/-- **Only those**: any other call is undefined, or leaves another list. -/
theorem RefCall.apply_iff (h : cb.Repr T l) (call : RefCall α) {st : ℕ × List α}
    (hs : call.spec (cb.capacity, l) = some st) :
    (∃ cb', call.apply T cb = .ok cb' ∧ cb'.capacity = st.1 ∧ cb'.elements = .ok st.2) ↔
      call.Intact T (cb.capacity, l) := by
  obtain ⟨hle, hsize⟩ := h.sizes
  constructor
  · rintro ⟨cb', hcb', -, helems⟩
    cases call with
    | op o => trivial
    | element i o =>
      obtain ⟨v, hv, hs⟩ := bind_eq_some_iff.mp hs
      obtain ⟨hil, rfl⟩ := List.getElem?_eq_some_iff.mp hv
      cases o with
      | pushBack => trivial
      | pushFront => trivial
      | insert k =>
        obtain ⟨hk, he⟩ := ite_none_right_eq_some.mp hs
        cases he
        obtain ⟨u, cb₁, hu, hcb₁, -, hr⟩ := h.insert_element hk hil
        by_cases hstay : l.length = cb.capacity ∧ k = 0
        · exact if_pos (.inr hstay)
        · rw [hcb₁, Except.ok.injEq] at hcb'
          rw [← hcb', hr.elements, Except.ok.injEq] at helems
          exact hu.trans (hv.trans (by rw [keepLast_splice_inj hk (by omega) hstay helems])).symm
      | rinsert k =>
        obtain ⟨hk, he⟩ := ite_none_right_eq_some.mp hs
        cases he
        obtain ⟨u, cb₁, hu, hcb₁, -, hr⟩ := h.rinsert_element hk hil
        by_cases hstay : l.length = cb.capacity ∧ k = l.length
        · exact if_pos (.inr hstay)
        · rw [hcb₁, Except.ok.injEq] at hcb'
          rw [← hcb', hr.elements, Except.ok.injEq] at helems
          exact hu.trans (hv.trans (by rw [take_splice_inj hk (by omega) helems])).symm
      | resize n =>
        rw [h.element_apply hil] at hcb'
        exact Nat.le_of_not_lt fun hn => h.resize_freed hn cb' hcb'
      | rresize n =>
        rw [h.element_apply hil] at hcb'
        exact Nat.le_of_not_lt fun hn => h.rresize_freed hn cb' hcb'
  · intro hi
    obtain ⟨cb', hcb', hcap, hr⟩ := call.apply_refines h hs hi
    exact ⟨cb', hcb', hcap, hr.elements⟩

/-! ### Runs -/

/-- A sequence of calls. -/
def runRefCalls (T : ValueType α) (cb : CircularBuffer α) (calls : List (RefCall α)) :
    Except Fault (CircularBuffer α) :=
  calls.foldlM (RefCall.apply T) cb

/-- What the sequence is for. -/
def specRefCalls (st : ℕ × List α) (calls : List (RefCall α)) : Option (ℕ × List α) :=
  calls.foldlM RefCall.spec st

/-- Every call of a sequence finds its element intact. -/
def IntactAll (T : ValueType α) : ℕ × List α → List (RefCall α) → Prop
  | _, [] => True
  | st, call :: rest => call.Intact T st ∧
    match call.spec st with
    | none => True
    | some st' => IntactAll T st' rest

/-- **Every sequence** of calls whose assertions hold and that find their elements intact. -/
theorem runRefCalls_refines (h : cb.Repr T l) (calls : List (RefCall α)) {st : ℕ × List α}
    (hs : specRefCalls (cb.capacity, l) calls = some st) (hi : IntactAll T (cb.capacity, l) calls) :
    ∃ cb', cb.runRefCalls T calls = .ok cb' ∧ cb'.capacity = st.1 ∧ cb'.Repr T st.2 := by
  refine Runs.foldlM_simulates (f := RefCall.apply T)
    (R := fun cb st => cb.capacity = st.1 ∧ cb.Repr T st.2)
    (P := fun cb calls => ∀ l, cb.Repr T l → IntactAll T (cb.capacity, l) calls) ?_ ⟨rfl, h⟩ ?_ hs
  · rintro cb ⟨c, l⟩ call rest st' ⟨rfl, h⟩ hi hs
    obtain ⟨hfirst, hrest⟩ := hi l h
    obtain ⟨cb', hcb', hcap, hr⟩ := call.apply_refines h hs hfirst
    refine ⟨cb', hcb', ⟨hcap, hr⟩, fun l' h' => ?_⟩
    obtain rfl : l' = st'.2 := Except.ok.inj (h'.elements.symm.trans hr.elements)
    rw [hs] at hrest
    rwa [hcap]
  · intro l' h'
    obtain rfl : l' = l := Except.ok.inj (h'.elements.symm.trans h.elements)
    exact hi

/-! ### The pointers alone -/

/-- The same pointers, and the same elements read. -/
def Agrees (cb cb' : CircularBuffer α) : Prop :=
  cb.capacity = cb'.capacity ∧ cb.first = cb'.first ∧ cb.last = cb'.last ∧ cb.size = cb'.size ∧
    cb.elements = cb'.elements

/-- Reading does not ask what is past the elements. -/
theorem Repr.toScalar (h : cb.Repr T l) : cb.Repr ⟨true, T.moved⟩ l :=
  ⟨h.toLayout, h.size_eq, fun i hi hsc => h.cells i hi fun _ => hsc rfl⟩

theorem Repr.eraseBegin_agrees (h : cb.Repr T l) {n : ℕ} (hn : n ≤ cb.size) :
    ∃ cb', cb.eraseBeginItems T n = .ok cb' ∧ (cb.eraseBeginScalar n).Agrees cb' := by
  have hsize := h.size_eq
  have hle := h.size_le
  obtain ⟨cb', hcb', hcap, hlast, hfirst, hr⟩ := h.eraseBeginItems (hsize ▸ hn)
  have hs := h.toScalar.eraseBeginScalar rfl (hsize ▸ hn)
  refine ⟨cb', hcb', hcap.symm, ?_, hlast.symm, hs.size_eq.trans hr.size_eq.symm, ?_⟩
  · rw [hfirst]
    exact h.add_first (hn.trans hle)
  · rw [hs.elements, hr.elements]

theorem Repr.eraseEnd_agrees (h : cb.Repr T l) {n : ℕ} (hn : n ≤ cb.size) :
    ∃ cb', cb.eraseEndItems T n = .ok cb' ∧ (cb.eraseEndScalar n).Agrees cb' := by
  have hsize := h.size_eq
  obtain ⟨cb', hcb', hcap, hfirst, hr⟩ := h.eraseEndItems (hsize ▸ hn)
  have hs := h.toScalar.eraseEndScalar rfl (hsize ▸ hn)
  have hsizes := hs.size_eq.trans hr.size_eq.symm
  refine ⟨cb', hcb', hcap.symm, hfirst.symm, ?_, hsizes, ?_⟩
  · rw [hr.last_eq, hs.last_eq, hsizes, hcap, hfirst]
    rfl
  · rw [hs.elements, hr.elements]

theorem Repr.clear_agrees (h : cb.Repr T l) :
    ∃ cb', cb.destroyContentItems T = .ok cb' ∧
      ({ cb.destroyContentScalar with size := 0 } : CircularBuffer α).Agrees
        { cb' with size := 0 } := by
  obtain ⟨cb', hcb', hcap, hfirst, hlast, -, hr⟩ := h.destroyContentItems
  have hs := h.toScalar.destroyContentScalar rfl
  refine ⟨cb', hcb', hcap.symm, ?_, hlast.symm, rfl, ?_⟩
  · show add cb.capacity cb.first cb.size = cb'.first
    rw [hfirst, h.add_first h.size_le]
  · rw [hs.elements, hr.elements]

/-! ### Every reachable buffer -/

/-- **A bounded list.**  Whatever calls are made on a new buffer, with their assertions met and the
elements they are given as items intact when they are read, they return and leave the list they are
for; the pointers stay inside the storage, `size()` apart; and the operations that only move pointers
agree with those that go from element to element.  A further call does what it is for exactly where its
element is intact. -/
theorem circularBuffer_refines (T : ValueType α) (bufferCapacity : ℕ) (calls : List (RefCall α))
    {c : ℕ} {l : List α} (hs : specRefCalls (bufferCapacity, []) calls = some (c, l))
    (hi : IntactAll T (bufferCapacity, []) calls) :
    ∃ cb, (ofCapacity bufferCapacity).runRefCalls T calls = .ok cb ∧ cb.elements = .ok l ∧
      cb.capacity = c ∧ cb.size = l.length ∧ cb.size ≤ cb.capacity ∧
      (cb.first < cb.capacity ∧ cb.last < cb.capacity ∨
        cb.capacity = 0 ∧ cb.first = 0 ∧ cb.last = 0) ∧
      cb.last = (cb.first + cb.size) % cb.capacity ∧
      (∀ n ≤ cb.size, ∃ cb', cb.eraseBeginItems T n = .ok cb' ∧
        (cb.eraseBeginScalar n).Agrees cb') ∧
      (∀ n ≤ cb.size, ∃ cb', cb.eraseEndItems T n = .ok cb' ∧
        (cb.eraseEndScalar n).Agrees cb') ∧
      (∃ cb', cb.destroyContentItems T = .ok cb' ∧
        ({ cb.destroyContentScalar with size := 0 } : CircularBuffer α).Agrees
          { cb' with size := 0 }) ∧
      ∀ (call : RefCall α) st, call.spec (c, l) = some st →
        ((∃ cb', call.apply T cb = .ok cb' ∧ cb'.capacity = st.1 ∧ cb'.elements = .ok st.2) ↔
          call.Intact T (c, l)) := by
  have h₀ : (ofCapacity bufferCapacity : CircularBuffer α).capacity = bufferCapacity :=
    length_replicate
  rw [← h₀] at hs hi
  obtain ⟨cb, hcb, hcap, hr⟩ := runRefCalls_refines (repr_ofCapacity T bufferCapacity) calls hs hi
  obtain rfl : cb.capacity = c := hcap
  refine ⟨cb, hcb, hr.elements, rfl, hr.size_eq, hr.size_le, ?_, hr.last_eq,
    fun n hn => hr.eraseBegin_agrees hn, fun n hn => hr.eraseEnd_agrees hn, hr.clear_agrees,
    fun call st hs => call.apply_iff hr hs⟩
  rcases hr.first_lt with hf | ⟨h0, hf⟩
  · refine .inl ⟨hf, ?_⟩
    rw [hr.last_eq]
    exact slot_lt (by omega)
  · have hle := hr.size_le
    refine .inr ⟨h0, hf, ?_⟩
    rw [hr.last_eq, hf, show cb.size = 0 by omega, h0]
    rfl

/-- A buffer that has wrapped, takes a copy of its first element at the end, and shrinks. -/
theorem circularBuffer_refines_wrapped :
    ∃ cb, (ofCapacity 3 : CircularBuffer ℕ).runRefCalls ⟨false, id⟩
        [.op (.pushBack 1), .op (.pushBack 2), .op (.pushBack 3), .op (.pushBack 4),
          .op (.insert 1 5), .op (.rotate 2), .element 0 (.insert 3), .op (.rsetCapacity 2)] =
          .ok cb ∧ cb.elements = .ok [3, 4] :=
  have ⟨cb, h, he, _⟩ := circularBuffer_refines (⟨false, id⟩ : ValueType ℕ) 3
    [.op (.pushBack 1), .op (.pushBack 2), .op (.pushBack 3), .op (.pushBack 4),
      .op (.insert 1 5), .op (.rotate 2), .element 0 (.insert 3), .op (.rsetCapacity 2)]
    (c := 2) (l := [3, 4]) (by decide) ⟨trivial, trivial, trivial, trivial, trivial, trivial, rfl,
      trivial, trivial⟩
  ⟨cb, h, he⟩

/-- The second of three elements inserted before the first: its cell holds the first by then. -/
theorem insert_finds_moved :
    specRefCalls (4, []) [.op (.pushBack 1), .op (.pushBack 2), .op (.pushBack 3),
        .element 1 (.insert 0)] = some (4, [2, 1, 2, 3]) ∧
      ∃ cb, (ofCapacity 4 : CircularBuffer ℕ).runRefCalls ⟨false, id⟩
          [.op (.pushBack 1), .op (.pushBack 2), .op (.pushBack 3), .element 1 (.insert 0)] =
            .ok cb ∧ cb.elements = .ok [1, 1, 2, 3] :=
  ⟨by decide, _, rfl, by decide⟩

end SourceLibs.CircularBuffer
