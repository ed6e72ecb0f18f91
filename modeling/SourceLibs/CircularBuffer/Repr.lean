import SourceLibs.CircularBuffer.Buffer

/-!
# CircularBuffer — the list it holds

A `circular_buffer` is a list that is never longer than its capacity.  `Repr` says which list: the
elements are the cells from `m_first` on, and, where elements have a destructor, every other cell is
raw.

* `iterAt`: the iterator at an index, and what the iterator operations do to the index.
* `Repr.of_view`: the list from the cells, seen from any base.
* `Repr.pushBack`, `Repr.pushFront`, `Repr.popBack`, `Repr.popFront`.
-/

namespace SourceLibs.CircularBuffer
open List

open RingCells

variable {α : Type} {T : ValueType α} {cb : CircularBuffer α} {l : List α}

/-! ### Layout -/

/-- The pointers: `m_last` is `size()` after `m_first`. -/
structure Layout (cb : CircularBuffer α) : Prop where
  size_le : cb.size ≤ cb.capacity
  first_lt : cb.first < cb.capacity ∨ cb.capacity = 0 ∧ cb.first = 0
  last_eq : cb.last = slot cb.capacity cb.first cb.size

/-- The buffer holds `l`.  Past the elements the cells are raw, or unknown for scalars. -/
structure Repr (T : ValueType α) (cb : CircularBuffer α) (l : List α) : Prop
    extends Layout cb where
  size_eq : cb.size = l.length
  cells : ∀ i < cb.capacity, (T.scalar = true → i < l.length) → view cb.buff cb.first i = l[i]?

theorem Repr.sizes {T : ValueType α} {l : List α} (h : Repr T cb l) :
    cb.size ≤ cb.capacity ∧ cb.size = l.length :=
  ⟨h.size_le, h.size_eq⟩

theorem Layout.first_lt_of_pos (h : cb.Layout) (hpos : 0 < cb.capacity) :
    cb.first < cb.capacity := by
  rcases h.first_lt with hlt | ⟨h0, -⟩
  · exact hlt
  · omega

theorem Layout.slot_first_zero (h : cb.Layout) : slot cb.capacity cb.first 0 = cb.first := by
  rcases h.first_lt with hf | ⟨h0, hf⟩
  · exact slot_zero hf
  · rw [h0, hf]
    rfl

theorem Repr.of_view {n b o : ℕ} (hb : b < n) (hlen : cb.buff.length = n)
    (hfirst : cb.first = slot n b o) (hlast : cb.last = slot n b (o + l.length))
    (hsize : cb.size = l.length) (hle : l.length ≤ n)
    (hcells : ∀ i < n, (T.scalar = true → i < l.length) → view cb.buff b (o + i) = l[i]?) :
    cb.Repr T l := by
  subst hlen
  refine ⟨⟨hsize ▸ hle, .inl ?_, ?_⟩, hsize, fun i hi hsc => ?_⟩
  · rw [hfirst]
    exact slot_lt (by omega)
  · rw [hlast, hfirst, capacity, slot_slot, hsize]
  · rw [hfirst, view_slot rfl]
    exact hcells i hi hsc

theorem Repr.view_eq (h : cb.Repr T l) {i : ℕ} (hi : i < l.length) :
    view cb.buff cb.first i = some l[i] := by
  have := h.size_le
  have := h.size_eq
  rw [h.cells i (by omega) fun _ => hi, List.getElem?_eq_getElem hi]

theorem Repr.view_isSome (h : cb.Repr T l) {i : ℕ} (hi : i < l.length) :
    (view cb.buff cb.first i).isSome := by
  rw [h.view_eq hi]
  rfl

/-- The cells past the elements, unless they are scalars. -/
theorem Repr.view_raw (h : cb.Repr T l) {i : ℕ} (hi : i < cb.capacity) (hl : l.length ≤ i) :
    T.scalar = true ∨ view cb.buff cb.first i = none := by
  cases hT : T.scalar with
  | true => exact .inl rfl
  | false => exact .inr (by rw [h.cells i hi (by simp [hT]), List.getElem?_eq_none hl])

theorem Repr.nil_of_capacity (h : cb.Repr T l) (h0 : cb.capacity = 0) : l = [] := by
  have := h.size_le
  have := h.size_eq
  exact eq_nil_of_length_eq_zero (by omega)

theorem repr_ofCapacity (T : ValueType α) (n : ℕ) : (ofCapacity n : CircularBuffer α).Repr T [] := by
  have hcap : (ofCapacity n : CircularBuffer α).capacity = n := by simp [ofCapacity, capacity]
  refine ⟨⟨Nat.zero_le _, ?_, ?_⟩, rfl, fun i hi _ => ?_⟩
  · rw [hcap]
    rcases Nat.eq_zero_or_pos n with rfl | hn
    · exact .inr ⟨rfl, rfl⟩
    · exact .inl hn
  · simp [ofCapacity, slot]
  · simp [ofCapacity, view]

theorem Layout.add_first (h : cb.Layout) {n : ℕ} (hn : n ≤ cb.capacity) :
    add cb.capacity cb.first n = slot cb.capacity cb.first n := by
  rcases h.first_lt with hf | ⟨h0, hf⟩
  · exact add_eq_slot hf hn
  · obtain rfl : n = 0 := by omega
    rw [h0, hf]
    rfl

theorem Layout.sub_last (h : cb.Layout) {n : ℕ} (hn : n ≤ cb.size) :
    sub cb.capacity cb.last n = slot cb.capacity cb.first (cb.size - n) := by
  have hle := h.size_le
  rcases Nat.eq_zero_or_pos cb.capacity with h0 | hpos
  · obtain rfl : n = 0 := by omega
    rw [sub, if_neg (by omega), Nat.sub_zero, Nat.sub_zero, h.last_eq]
  · rw [h.last_eq, show cb.size = cb.size - n + n by omega, sub_slot hpos (by omega),
      Nat.add_sub_cancel]

/-! ### Iterators -/

/-- The iterator at index `k`. -/
def iterAt (cb : CircularBuffer α) (k : ℕ) : Option ℕ :=
  if k < cb.size then some (slot cb.capacity cb.first k) else none

theorem iterAt_of_lt {k : ℕ} (hk : k < cb.size) :
    cb.iterAt k = some (slot cb.capacity cb.first k) := if_pos hk

theorem iterAt_size (cb : CircularBuffer α) : cb.iterAt cb.size = none := if_neg (lt_irrefl _)

theorem Layout.begin_eq (h : cb.Layout) : cb.begin = cb.iterAt 0 := by
  unfold begin iterAt empty
  have hle := h.size_le
  by_cases h0 : cb.size = 0
  · simp [h0]
  · rw [if_neg (by simpa using h0), if_pos (by omega), slot_zero (h.first_lt_of_pos (by omega))]

theorem Layout.mapPointer_iterAt (h : cb.Layout) {k : ℕ} (hk : k ≤ cb.size) :
    cb.mapPointer (cb.iterAt k) = slot cb.capacity cb.first k := by
  unfold mapPointer iterAt
  split
  · rfl
  · rw [Option.getD_none, h.last_eq, show k = cb.size by omega]

theorem Layout.linearizePointer_iterAt (h : cb.Layout) {k : ℕ} (hk : k ≤ cb.size) :
    cb.linearizePointer (cb.iterAt k) = k := by
  have hle := h.size_le
  unfold iterAt
  split
  · have hf := h.first_lt_of_pos (by omega)
    simp only [linearizePointer]
    by_cases hw : cb.first + k < cb.capacity
    · rw [slot_of_lt hw, if_neg (by omega), Nat.add_sub_cancel_left]
    · rw [slot_of_ge (by omega) (by omega), if_pos (by omega)]
      omega
  · simp only [linearizePointer]
    omega

theorem Layout.iterAt_inj (h : cb.Layout) {j k : ℕ} (hj : j ≤ cb.size) (hk : k ≤ cb.size) :
    cb.iterAt j = cb.iterAt k ↔ j = k := by
  constructor
  · intro he
    rw [← h.linearizePointer_iterAt hj, he, h.linearizePointer_iterAt hk]
  · rintro rfl
    rfl

theorem Layout.diff_iterAt (h : cb.Layout) {j k : ℕ} (hj : j ≤ cb.size) (hk : k ≤ cb.size) :
    cb.diff (cb.iterAt j) (cb.iterAt k) = (j : ℤ) - k := by
  rw [diff, h.linearizePointer_iterAt hj, h.linearizePointer_iterAt hk]

theorem Layout.slot_eq_last_iff (h : cb.Layout) {k : ℕ} (h0 : 0 < k) (hk : k ≤ cb.size) :
    slot cb.capacity cb.first k = cb.last ↔ k = cb.size := by
  have hle := h.size_le
  rw [h.last_eq, slot_eq_iff_of_le hk (by omega)]

theorem Layout.ite_last_eq_iterAt (h : cb.Layout) {k : ℕ} (h0 : 0 < k) (hk : k ≤ cb.size) :
    (if slot cb.capacity cb.first k = cb.last then none else some (slot cb.capacity cb.first k)) =
      cb.iterAt k := by
  rw [iterAt]
  by_cases he : k = cb.size
  · rw [if_pos ((h.slot_eq_last_iff h0 hk).mpr he), if_neg (by omega)]
  · rw [if_neg fun hc => he ((h.slot_eq_last_iff h0 hk).mp hc), if_pos (by omega)]

theorem Layout.next_iterAt (h : cb.Layout) {k : ℕ} (hk : k < cb.size) :
    cb.next (some (slot cb.capacity cb.first k)) = .ok (cb.iterAt (k + 1)) := by
  have hle := h.size_le
  simp only [next]
  rw [increment_slot (by omega), h.ite_last_eq_iterAt (by omega) (by omega)]

theorem Layout.plus_begin (h : cb.Layout) {k : ℕ} (hk : k ≤ cb.size) :
    cb.plus cb.begin k = .ok (cb.iterAt k) := by
  have hle := h.size_le
  unfold plus
  rw [h.begin_eq]
  split
  · rename_i h0
    have hd : (k : ℤ) ≤ cb.diff none (cb.iterAt 0) := by
      rw [← iterAt_size, h.diff_iterAt le_rfl (by omega)]
      omega
    rw [cbAssert, if_pos hd, iterAt_of_lt (by omega : 0 < cb.size)]
    simp only [ok_bind]
    rw [add_slot (by omega) (by omega), Nat.zero_add, h.ite_last_eq_iterAt h0 hk]
  · rw [show k = 0 by omega]

theorem Layout.minus_end (h : cb.Layout) {n : ℕ} (hn : n ≤ cb.size) :
    cb.minus none n = .ok (cb.iterAt (cb.size - n)) := by
  have hle := h.size_le
  unfold minus
  split
  · rename_i h0
    have hd : (n : ℤ) ≤ cb.diff none cb.begin := by
      rw [h.begin_eq, ← iterAt_size, h.diff_iterAt le_rfl (by omega)]
      omega
    rw [cbAssert, if_pos hd, iterAt_of_lt (by omega)]
    simp only [ok_bind, mapPointer, Option.getD_none]
    rw [h.last_eq, show cb.size = cb.size - n + n by omega, sub_slot (by omega) (by omega),
      Nat.add_sub_cancel]
  · rw [show n = 0 by omega, Nat.sub_zero, iterAt_size]

/-! ### Push and pop -/

/-- The last `c` elements. -/
def keepLast (c : ℕ) (l : List α) : List α := l.drop (l.length - c)

theorem length_keepLast (c : ℕ) (l : List α) : (keepLast c l).length = min l.length c := by
  rw [keepLast, length_drop]
  omega

theorem length_keepLast_le (c : ℕ) (l : List α) : (keepLast c l).length ≤ c := by
  rw [length_keepLast]
  exact Nat.min_le_right _ _

theorem keepLast_of_le {c : ℕ} {l : List α} (h : l.length ≤ c) : keepLast c l = l := by
  rw [keepLast, Nat.sub_eq_zero_of_le h, drop_zero]

theorem getElem?_keepLast (c : ℕ) (l : List α) (i : ℕ) :
    (keepLast c l)[i]? = l[l.length - c + i]? := by rw [keepLast, List.getElem?_drop]

theorem full_iff : cb.full = true ↔ cb.capacity = cb.size := decide_eq_true_iff

theorem empty_iff : cb.empty = true ↔ cb.size = 0 := decide_eq_true_iff

theorem length_buff (cb : CircularBuffer α) : cb.buff.length = cb.capacity := rfl

theorem Repr.last_of_full (h : cb.Repr T l) (hfull : cb.capacity = cb.size) :
    cb.last = slot cb.capacity cb.first 0 := by
  rw [h.last_eq, ← hfull, slot_self]

theorem Repr.pushBack_eq (h : cb.Repr T l) (hpos : 0 < cb.capacity) (v : α) :
    cb.pushBack T v = .ok
      { buff := cb.buff.set (slot cb.capacity cb.first cb.size) (some v),
        first := slot cb.capacity cb.first (cb.size + 1 - cb.capacity),
        last := slot cb.capacity cb.first (cb.size + 1),
        size := min (cb.size + 1) cb.capacity } := by
  obtain ⟨hle, hsize⟩ := h.sizes
  have hf := h.first_lt_of_pos hpos
  unfold CircularBuffer.pushBack
  rw [h.last_eq]
  by_cases hfull : cb.capacity = cb.size
  · have h0 : slot cb.capacity cb.first cb.size = slot cb.capacity cb.first 0 := by
      rw [← hfull, slot_self]
    rw [if_pos (full_iff.mpr hfull), if_neg (mt empty_iff.mp (by omega)), h0,
      replace_slot cb.length_buff hpos (.inr (h.view_isSome (by omega))), ok_bind,
      increment_slot hpos, ← slot_add_self _ _ (0 + 1)]
    simp [← hfull, Nat.add_comm, show 1 + cb.capacity - cb.capacity = 1 by omega, slot_add_self]
  · rw [if_neg (mt full_iff.mp hfull),
      construct_slot cb.length_buff hpos (h.view_raw (by omega) (by omega)), ok_bind,
      increment_slot hpos, show cb.size + 1 - cb.capacity = 0 by omega, slot_zero hf,
      Nat.min_eq_left (by omega)]

/-- **`push_back`** of a full buffer drops the first element. -/
theorem Repr.pushBack (h : cb.Repr T l) (v : α) :
    ∃ cb', cb.pushBack T v = .ok cb' ∧ cb'.capacity = cb.capacity ∧
      cb'.Repr T (keepLast cb.capacity (l ++ [v])) := by
  obtain ⟨hle, hsize⟩ := h.sizes
  rcases Nat.eq_zero_or_pos cb.capacity with h0 | hpos
  · have hl := h.nil_of_capacity h0
    refine ⟨cb, ?_, rfl, by simpa [hl, h0, keepLast] using h⟩
    rw [CircularBuffer.pushBack, if_pos (full_iff.mpr (by omega)), if_pos (empty_iff.mpr (by omega))]
  · refine ⟨_, h.pushBack_eq hpos v, by simp [capacity], Repr.of_view
      (o := cb.size + 1 - cb.capacity) (h.first_lt_of_pos hpos) (by simp [capacity]) rfl ?_ ?_ ?_
      fun i hi hsc => ?_⟩
    · rw [length_keepLast, length_append, length_singleton, ← hsize]
      show slot cb.capacity cb.first (cb.size + 1) = _
      congr 1
      omega
    · rw [length_keepLast, length_append, length_singleton, hsize]
    · exact length_keepLast_le _ _
    · rw [view_set cb.length_buff _ _ (by omega) (by omega), getElem?_keepLast, length_append,
        length_singleton, ← hsize]
      by_cases he : cb.size + 1 - cb.capacity + i = cb.size
      · rw [if_pos he, he, hsize, List.getElem?_concat_length]
      · have hsc' : T.scalar = true → cb.size + 1 - cb.capacity + i < l.length := fun hT => by
          have := hsc hT
          rw [length_keepLast, length_append, length_singleton] at this
          omega
        rw [if_neg he, h.cells _ (by omega) hsc']
        grind

/-- Seen from the cell before `m_first` the elements start one further. -/
theorem Layout.view_decrement (h : cb.Layout) (hpos : 0 < cb.capacity) (i : ℕ) :
    view cb.buff (decrement cb.capacity cb.first) (i + 1) = view cb.buff cb.first i := by
  rw [Nat.add_comm, ← view_slot cb.length_buff, slot_decrement (h.first_lt_of_pos hpos)]

/-- The cell before `m_first` is the last of the turn. -/
theorem Layout.view_decrement_zero (h : cb.Layout) (hpos : 0 < cb.capacity) :
    view cb.buff (decrement cb.capacity cb.first) 0 =
      view cb.buff cb.first (cb.capacity - 1) := by
  rw [← h.view_decrement hpos, Nat.sub_add_cancel hpos, ← view_add_length cb.length_buff,
    Nat.zero_add]

theorem Repr.pushFront_eq (h : cb.Repr T l) (hpos : 0 < cb.capacity) (v : α) :
    cb.pushFront T v = .ok
      { buff := cb.buff.set (slot cb.capacity (decrement cb.capacity cb.first) 0) (some v),
        first := slot cb.capacity (decrement cb.capacity cb.first) 0,
        last := slot cb.capacity (decrement cb.capacity cb.first) (min (cb.size + 1) cb.capacity),
        size := min (cb.size + 1) cb.capacity } := by
  obtain ⟨hle, hsize⟩ := h.sizes
  have hf := h.first_lt_of_pos hpos
  have hcell := h.view_decrement_zero hpos
  have hslot := slot_zero (decrement_lt hf)
  unfold CircularBuffer.pushFront
  dsimp only
  by_cases hfull : cb.capacity = cb.size
  · rw [if_pos (full_iff.mpr hfull), if_neg (mt empty_iff.mp (by omega)), ← hslot,
      replace_slot cb.length_buff hpos (.inr (by rw [hcell]; exact h.view_isSome (by omega))), ok_bind,
      hslot, Nat.min_eq_right (by omega), slot_self, hslot, hfull]
  · rw [if_neg (mt full_iff.mp hfull), ← hslot,
      construct_slot cb.length_buff hpos (by rw [hcell]; exact h.view_raw (by omega) (by omega)),
      ok_bind, hslot, Nat.min_eq_left (by omega), Nat.add_comm cb.size, ← slot_slot,
      slot_decrement hf, ← h.last_eq, hslot]

/-- **`push_front`** of a full buffer drops the last element. -/
theorem Repr.pushFront (h : cb.Repr T l) (v : α) :
    ∃ cb', cb.pushFront T v = .ok cb' ∧ cb'.capacity = cb.capacity ∧
      cb'.Repr T ((v :: l).take cb.capacity) := by
  obtain ⟨hle, hsize⟩ := h.sizes
  rcases Nat.eq_zero_or_pos cb.capacity with h0 | hpos
  · have hl := h.nil_of_capacity h0
    refine ⟨cb, ?_, rfl, by simpa [hl, h0] using h⟩
    rw [CircularBuffer.pushFront, if_pos (full_iff.mpr (by omega)),
      if_pos (empty_iff.mpr (by omega))]
  · refine ⟨_, h.pushFront_eq hpos v, by simp [capacity], Repr.of_view (o := 0)
      (decrement_lt (h.first_lt_of_pos hpos)) (by simp [capacity]) rfl ?_ ?_ ?_ fun i hi hsc => ?_⟩
    · rw [length_take, length_cons, hsize, Nat.zero_add, Nat.min_comm]
    · rw [length_take, length_cons, hsize, Nat.min_comm]
    · exact length_take_le _ _
    · rw [Nat.zero_add, view_set cb.length_buff _ _ (by omega) (by omega),
        List.getElem?_take_of_lt hi]
      cases i with
      | zero => rfl
      | succ i =>
        have hsc' : T.scalar = true → i < l.length := fun hT => by
          have := hsc hT
          rw [length_take, length_cons] at this
          omega
        rw [if_neg (by omega), h.view_decrement hpos, h.cells i (by omega) hsc',
          List.getElem?_cons_succ]

theorem Repr.destroyLast (h : cb.Repr T l) (hne : 0 < l.length) :
    ∃ cb', cb.destroyLast T = .ok cb' ∧ cb'.capacity = cb.capacity ∧ cb'.first = cb.first ∧
      cb'.Repr T l.dropLast := by
  obtain ⟨hle, hsize⟩ := h.sizes
  have hpos : 0 < cb.capacity := by omega
  have hf := h.first_lt_of_pos hpos
  obtain ⟨k, hk⟩ := Nat.exists_eq_add_one_of_ne_zero (by omega : cb.size ≠ 0)
  unfold CircularBuffer.destroyLast
  dsimp only
  rw [h.last_eq, hk, decrement_slot hpos,
    destroyItem_slot cb.length_buff hpos (.inr (h.view_isSome (by omega))), ok_bind]
  refine ⟨_, rfl, by simp [capacity], rfl, Repr.of_view (o := 0) hf (by simp [capacity])
    (slot_zero hf).symm ?_ ?_ ?_ fun i hi hsc => ?_⟩
  · rw [length_dropLast, Nat.zero_add, ← hsize, hk, Nat.add_sub_cancel]
  · rw [length_dropLast, ← hsize, hk]
  · rw [length_dropLast]
    omega
  · rw [Nat.zero_add, view_wipe T cb.length_buff _ (by omega) (by omega), List.getElem?_dropLast]
    rw [length_dropLast] at hsc
    by_cases hlt : i < l.length - 1
    · rw [if_neg (by omega), if_pos hlt, h.cells i hi fun _ => by omega]
    · have hT : T.scalar = false := Bool.eq_false_iff.mpr fun hT => hlt (hsc hT)
      rw [if_neg hlt]
      by_cases he : i = k
      · rw [if_pos ⟨he, hT⟩]
      · rw [if_neg fun hc => he hc.1, h.cells i hi (by simp [hT]), List.getElem?_eq_none (by omega)]

theorem Repr.destroyFirst (h : cb.Repr T l) (hne : 0 < l.length) :
    ∃ cb', cb.destroyFirst T = .ok cb' ∧ cb'.capacity = cb.capacity ∧ cb'.last = cb.last ∧
      cb'.first = slot cb.capacity cb.first 1 ∧ cb'.Repr T l.tail := by
  obtain ⟨hle, hsize⟩ := h.sizes
  have hpos : 0 < cb.capacity := by omega
  have hf := h.first_lt_of_pos hpos
  unfold CircularBuffer.destroyFirst
  have hd : destroyItem T cb.buff cb.first = .ok (wipe T cb.buff (slot cb.capacity cb.first 0)) := by
    conv_lhs => rw [← slot_zero hf]
    exact destroyItem_slot cb.length_buff hpos (.inr (h.view_isSome hne))
  rw [hd, ok_bind, increment_eq_slot hf]
  refine ⟨_, rfl, by simp [capacity], rfl, rfl, Repr.of_view (o := 1) hf (by simp [capacity])
    rfl ?_ ?_ ?_ fun i hi hsc => ?_⟩
  · rw [length_tail, h.last_eq, hsize]
    congr 1
    omega
  · rw [length_tail, ← hsize]
  · rw [length_tail]
    omega
  · rw [length_tail] at hsc
    rw [List.getElem?_tail, Nat.add_comm]
    by_cases hlt : i + 1 < cb.capacity
    · rw [view_wipe T cb.length_buff _ (by omega) (by omega), if_neg (by omega),
        h.cells _ hlt fun hT => by have := hsc hT; omega]
    · -- the cell that was the first
      have hT : T.scalar = false := Bool.eq_false_iff.mpr fun hT => by have := hsc hT; omega
      rw [show i + 1 = 0 + cb.capacity by omega, view_add_length (by simp [capacity]),
        view_wipe T cb.length_buff _ (by omega) (by omega), if_pos ⟨rfl, hT⟩,
        List.getElem?_eq_none (by omega)]

theorem Repr.popBack (h : cb.Repr T l) (hne : 0 < l.length) :
    ∃ cb', cb.popBack T = .ok cb' ∧ cb'.capacity = cb.capacity ∧ cb'.Repr T l.dropLast := by
  obtain ⟨cb', hcb', hcap, -, hr⟩ := h.destroyLast hne
  refine ⟨cb', ?_, hcap, hr⟩
  have hemp : cb.empty = false := Bool.eq_false_iff.mpr fun hc => by
    have := empty_iff.mp hc
    have := h.size_eq
    omega
  rw [CircularBuffer.popBack, cbAssert, if_pos hemp, ok_bind, hcb']

theorem Repr.popFront (h : cb.Repr T l) (hne : 0 < l.length) :
    ∃ cb', cb.popFront T = .ok cb' ∧ cb'.capacity = cb.capacity ∧ cb'.Repr T l.tail := by
  obtain ⟨cb', hcb', hcap, -, -, hr⟩ := h.destroyFirst hne
  refine ⟨cb', ?_, hcap, hr⟩
  have hemp : cb.empty = false := Bool.eq_false_iff.mpr fun hc => by
    have := empty_iff.mp hc
    have := h.size_eq
    omega
  rw [CircularBuffer.popFront, cbAssert, if_pos hemp, ok_bind, hcb']

end SourceLibs.CircularBuffer
