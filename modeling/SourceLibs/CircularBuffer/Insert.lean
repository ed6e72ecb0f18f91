import SourceLibs.CircularBuffer.Repr

/-!
# CircularBuffer — insertion

`insert` moves the elements behind the position towards the end and cuts at the start; `rinsert`
moves those before it towards the start and cuts at the end.

* `Repr.of_insert`, `Repr.of_rinsert`: the list, from the cells the loops leave.
* `Repr.insert`, `Repr.rinsert`: one element.
-/

namespace SourceLibs.CircularBuffer
open List

open RingCells

variable {α : Type} {T : ValueType α} {cb : CircularBuffer α} {l : List α} {n : ℕ}

/-- `xs` put in before index `k`. -/
def splice (k : ℕ) (xs l : List α) : List α := l.take k ++ xs ++ l.drop k

theorem length_splice (k : ℕ) (xs l : List α) :
    (splice k xs l).length = l.length + xs.length := by
  simp only [splice, length_append, length_take, length_drop]
  omega

theorem getElem?_splice {k : ℕ} (xs : List α) {l : List α} (hk : k ≤ l.length) (i : ℕ) :
    (splice k xs l)[i]? = if i < k then l[i]? else if i < k + xs.length then xs[i - k]?
      else l[i - xs.length]? := by
  rw [splice, List.append_assoc, List.getElem?_append, length_take, Nat.min_eq_left hk]
  split
  · rename_i hi
    rw [List.getElem?_take_of_lt hi]
  rw [List.getElem?_append, List.getElem?_drop]
  split
  · rw [if_pos (by omega)]
  · rw [if_neg (by omega)]
    congr 1
    omega

/-- The buffer with `xs` put in before index `k` towards the end, where `d` elements at the start
made room. -/
theorem Repr.of_insert (h : cb.Repr T l) {k d : ℕ} {xs : List α} {buff : List (Option α)}
    {cb' : CircularBuffer α} (hk : k ≤ l.length) (hd : l.length + xs.length - cb.capacity = d)
    (hdk : d ≤ k) (hpos : 0 < cb.capacity) (hlen : buff.length = cb.capacity)
    (hview : ∀ i, k ≤ i → i < k + cb.capacity → view buff cb.first i =
      if i < k + xs.length then xs[i - k]?
      else if i < l.length + xs.length then l[i - xs.length]? else view cb.buff cb.first i)
    (hcb' : cb' = { buff := buff, first := slot cb.capacity cb.first d,
                    last := slot cb.capacity cb.first (l.length + xs.length),
                    size := min (l.length + xs.length) cb.capacity }) :
    cb'.capacity = cb.capacity ∧ cb'.Repr T (keepLast cb.capacity (splice k xs l)) := by
  obtain ⟨hle, hsize⟩ := h.sizes
  have hL := length_keepLast cb.capacity (splice k xs l)
  rw [length_splice] at hL
  subst hcb'
  refine ⟨hlen, Repr.of_view (o := d) (h.first_lt_of_pos hpos) hlen rfl ?_ hL.symm ?_
    fun i hi hsc => ?_⟩
  · rw [hL]
    show slot _ _ (l.length + xs.length) = _
    congr 1
    omega
  · exact length_keepLast_le _ _
  · rw [getElem?_keepLast, length_splice, hd, getElem?_splice xs hk]
    rw [hL] at hsc
    by_cases hik : d + i < k
    · -- before the position nothing moved; the cell is met again a turn later
      rw [if_pos hik, ← view_add_length hlen, hview _ (by omega) (by omega), if_neg (by omega),
        if_neg (by omega), view_add_length cb.length_buff, h.cells _ (by omega) fun _ => by omega]
    · rw [if_neg hik, hview _ (by omega) (by omega)]
      by_cases hin : d + i < k + xs.length
      · rw [if_pos hin, if_pos hin]
      rw [if_neg hin, if_neg hin]
      by_cases hold : d + i < l.length + xs.length
      · rw [if_pos hold]
      · have hT : T.scalar = false := Bool.eq_false_iff.mpr fun hT => by have := hsc hT; omega
        rw [if_neg hold, h.cells _ (by omega) (by simp [hT]), List.getElem?_eq_none (by omega),
          List.getElem?_eq_none (by omega)]

/-- The buffer with `xs` put in before index `k` towards the start: seen from the new first cell
`b` the elements from `k` on have not moved. -/
theorem Repr.of_rinsert (h : cb.Repr T l) {k b : ℕ} {xs : List α} {buff : List (Option α)}
    {cb' : CircularBuffer α} (hk : k ≤ l.length)
    (hb : b < cb.capacity) (hfirst : slot cb.capacity b xs.length = cb.first)
    (hlen : buff.length = cb.capacity)
    (hview : ∀ i < cb.capacity, view buff b i = if i < k then l[i]?
      else if i < k + xs.length then xs[i - k]? else view cb.buff b i)
    (hcb' : cb' = { buff := buff, first := b,
                    last := slot cb.capacity b (min (l.length + xs.length) cb.capacity),
                    size := min (l.length + xs.length) cb.capacity }) :
    cb'.capacity = cb.capacity ∧ cb'.Repr T ((splice k xs l).take cb.capacity) := by
  obtain ⟨hle, hsize⟩ := h.sizes
  have hL : ((splice k xs l).take cb.capacity).length = min (l.length + xs.length) cb.capacity := by
    rw [length_take, length_splice, Nat.min_comm]
  subst hcb'
  refine ⟨hlen, Repr.of_view (o := 0) hb hlen (slot_zero hb).symm ?_ hL.symm ?_ fun i hi hsc => ?_⟩
  · rw [hL, Nat.zero_add]
  · exact length_take_le _ _
  · rw [Nat.zero_add, hview i hi, List.getElem?_take_of_lt hi, getElem?_splice xs hk]
    rw [hL] at hsc
    by_cases hin : i < k + xs.length
    · simp only [hin, if_true]
    · rw [if_neg (by omega), if_neg hin, if_neg (by omega), if_neg hin,
        show i = xs.length + (i - xs.length) by omega, ← view_slot cb.length_buff, hfirst,
        h.cells _ (by omega) fun hT => by have := hsc hT; omega, Nat.add_sub_cancel_left]

/-- The pointers after an insertion towards the end. -/
theorem Repr.growBack_eq (h : cb.Repr T l) (hpos : 0 < cb.capacity) (buff : List (Option α)) :
    cb.growBack buff =
      { buff := buff, first := slot cb.capacity cb.first (l.length + 1 - cb.capacity),
        last := slot cb.capacity cb.first (l.length + 1),
        size := min (l.length + 1) cb.capacity } := by
  obtain ⟨hle, hsize⟩ := h.sizes
  unfold growBack
  rw [h.last_eq, increment_slot hpos, hsize]
  by_cases hfull : cb.capacity = cb.size
  · rw [if_pos (full_iff.mpr hfull), ← hsize, ← hfull, Nat.add_sub_cancel_left, Nat.add_comm,
      slot_add_self, Nat.min_eq_right (by omega)]
  · rw [if_neg (mt full_iff.mp hfull), show l.length + 1 - cb.capacity = 0 by omega,
      slot_zero (h.first_lt_of_pos hpos), Nat.min_eq_left (by omega)]

/-- The pointers after an insertion towards the start. -/
theorem Repr.growFront_eq (h : cb.Repr T l) (hpos : 0 < cb.capacity) (buff : List (Option α)) :
    cb.growFront buff =
      { buff := buff, first := decrement cb.capacity cb.first,
        last := slot cb.capacity (decrement cb.capacity cb.first) (min (l.length + 1) cb.capacity),
        size := min (l.length + 1) cb.capacity } := by
  obtain ⟨hle, hsize⟩ := h.sizes
  have hf := h.first_lt_of_pos hpos
  unfold growFront
  by_cases hfull : cb.capacity = cb.size
  · rw [if_pos (full_iff.mpr hfull), Nat.min_eq_right (by omega), slot_self,
      slot_zero (decrement_lt hf), ← hfull]
  · rw [if_neg (mt full_iff.mp hfull), Nat.min_eq_left (by omega), Nat.add_comm l.length,
      ← slot_slot, slot_decrement hf, ← hsize, ← h.last_eq, Nat.add_comm]

theorem Repr.full_eq_isNone (h : cb.Repr T l) (hpos : 0 < cb.capacity) :
    T.scalar = true ∨ (!cb.full) = (view cb.buff cb.first l.length).isNone := by
  obtain ⟨hle, hsize⟩ := h.sizes
  by_cases hfull : cb.capacity = cb.size
  · have hv : (view cb.buff cb.first l.length).isNone = false := by
      rw [← hsize, ← hfull, ← Nat.zero_add cb.capacity, view_add_length cb.length_buff,
        Option.isNone_eq_false_iff]
      exact h.view_isSome (by omega)
    exact .inr (by rw [hv, full_iff.mpr hfull]; rfl)
  · refine (h.view_raw (by omega) le_rfl).imp_right fun hv => ?_
    rw [hv, Bool.eq_false_iff.mpr (mt full_iff.mp hfull)]
    rfl

/-- What the cell of the element `i` holds when `insert` has made room at `k`. -/
def insertFinds (T : ValueType α) (c : ℕ) (l : List α) (k i : ℕ) : Option α :=
  if k = l.length ∨ l.length = c ∧ k = 0 then l[i]?
  -- the last element has been put in the place of the first
  else if l.length = c ∧ i = 0 then l[l.length - 1]?
  else if i < k then l[i]?
  else if i = k then l[k]?.map T.moved
  else l[i - 1]?

/-- What the cell of the element `i` holds when `rinsert` has made room before `k`. -/
def rinsertFinds (T : ValueType α) (c : ℕ) (l : List α) (k i : ℕ) : Option α :=
  if k = 0 ∨ l.length = c ∧ k = l.length then l[i]?
  -- the first element has been put in the place of the last
  else if l.length = c ∧ i + 1 = l.length then l[0]?
  else if k ≤ i then l[i]?
  else if i + 1 = k then l[i]?.map T.moved
  else l[i + 1]?

/-- The item gives `v` where the cell of each element `i` holds `f i`. -/
def Item.Finds (cb : CircularBuffer α) (l : List α) (f : ℕ → Option α) (item : Item α) (v : α) :
    Prop :=
  ∀ s : List (Option α), s.length = cb.capacity → (∀ i < l.length, view s cb.first i = f i) →
    item.get s = .ok v

theorem Item.finds_value (cb : CircularBuffer α) (l : List α) (f : ℕ → Option α) (v : α) :
    (Item.value v).Finds cb l f v := fun _ _ _ => rfl

theorem Repr.finds_cell (h : cb.Repr T l) {f : ℕ → Option α} {i : ℕ} {v : α} (hi : i < l.length)
    (hf : f i = some v) : (Item.cell (slot cb.capacity cb.first i)).Finds cb l f v := by
  obtain ⟨hle, hsize⟩ := h.sizes
  exact fun s hlen hview => read_slot hlen (by omega) ((hview i hi).trans hf)

theorem Repr.insertCells (h : cb.Repr T l) {k : ℕ} (hk : k ≤ l.length) (hpos : 0 < cb.capacity)
    (hroom : l.length + 1 - cb.capacity ≤ k) :
    ∃ s, s.length = cb.capacity ∧
      (∀ i < l.length, view s cb.first i = insertFinds T cb.capacity l k i) ∧
      ∀ (item : Item α) v, item.get s = .ok v → ∃ buff, buff.length = cb.capacity ∧
        (∀ i, k ≤ i → i < k + cb.capacity → view buff cb.first i =
          if i < k + 1 then [v][i - k]?
          else if i < l.length + 1 then l[i - 1]? else view cb.buff cb.first i) ∧
        cb.insertCells T (cb.iterAt k) item = .ok (buff, slot cb.capacity cb.first k) := by
  obtain ⟨hle, hsize⟩ := h.sizes
  have hcell := h.full_eq_isNone hpos
  have hlast : cb.last = slot cb.capacity cb.first l.length := by rw [h.last_eq, hsize]
  unfold CircularBuffer.insertCells
  rcases Nat.eq_or_lt_of_le hk with rfl | hlt
  · refine ⟨cb.buff, cb.length_buff, fun i hi => ?_, fun item v hv =>
      ⟨cb.buff.set (slot cb.capacity cb.first l.length) (some v), by simp [capacity],
        fun i h₁ h₂ => ?_, ?_⟩⟩
    · rw [insertFinds, if_pos (.inl rfl), h.view_eq hi, List.getElem?_eq_getElem hi]
    · rw [view_set cb.length_buff _ _ (by omega) (by omega)]
      rcases Nat.eq_or_lt_of_le h₁ with rfl | hgt
      · simp
      · rw [if_neg (by omega), if_neg (by omega), if_neg (by omega)]
    · rw [show cb.iterAt l.length = none by rw [← hsize, iterAt_size]]
      dsimp only
      rw [hv, ok_bind, hlast, constructOrReplace_slot cb.length_buff hpos hcell]
      rfl
  · obtain ⟨s, hs, hlen, hview⟩ := backward_spec (T := T) (b := cb.first) (s := cb.buff)
      T.moved (fun c _ => c) (fun i => l.getD i l[k]) k 0 (l.length - k) (!cb.full)
      (cb.capacity + 1) cb.length_buff (by omega) (by omega)
      (fun i h₁ h₂ => by rw [h.view_eq (by omega), getD_eq_getElem _ _ (by omega)])
      (hcell.imp_right fun hc i h₁ h₂ => by
        by_cases he : i + 1 = l.length
        · rw [decide_eq_true (by omega), Bool.and_true, hc, ← he]
        · rw [decide_eq_false (by omega), Bool.and_false, eq_comm, Option.isNone_eq_false_iff]
          exact h.view_isSome (by omega))
    have hlive : (view s cb.first k).isSome := by
      rw [hview k le_rfl (by omega), if_neg (by omega), if_pos (by omega), h.view_eq hlt]
      rfl
    refine ⟨s, hlen, fun i hi => ?_, fun item v hv =>
      ⟨s.set (slot cb.capacity cb.first k) (some v), by simpa using hlen, fun i h₁ h₂ => ?_, ?_⟩⟩
    · rw [insertFinds, if_neg (by omega)]
      rcases Nat.lt_or_ge i k with hik | hik
      · -- the cell is met again a turn later, as that of the last element if the buffer is full
        rw [← view_add_length hlen, hview _ (by omega) (by omega)]
        by_cases hfirst : l.length = cb.capacity ∧ i = 0
        · rw [if_pos (by omega), if_pos hfirst, getD_eq_getElem _ _ (by omega),
            List.getElem?_eq_getElem (by omega)]
          congr 2
          omega
        · rw [if_neg (by omega), if_neg (by omega), if_neg hfirst, if_pos hik,
            view_add_length cb.length_buff, h.view_eq hi, List.getElem?_eq_getElem hi]
      · rw [hview i hik (by omega), if_neg (by omega : ¬ (l.length = cb.capacity ∧ i = 0)),
          if_neg (by omega : ¬ i < k)]
        rcases Nat.eq_or_lt_of_le hik with rfl | hgt
        · rw [if_neg (by omega), if_pos (by omega), if_pos rfl, h.view_eq hi,
            List.getElem?_eq_getElem hi]
        · rw [if_pos (by omega), if_neg (by omega), getD_eq_getElem _ _ (by omega),
            List.getElem?_eq_getElem (by omega)]
    · rw [view_set hlen _ _ (by omega) (by omega)]
      rcases Nat.eq_or_lt_of_le h₁ with rfl | hgt
      · simp
      · rw [if_neg (by omega), if_neg (by omega), hview i h₁ h₂]
        by_cases hin : i < l.length + 1
        · rw [if_pos (by omega), if_pos hin, getD_eq_getElem _ _ (by omega),
            List.getElem?_eq_getElem (by omega)]
        · rw [if_neg (by omega), if_neg hin, if_neg (by omega)]
    · rw [iterAt_of_lt (by omega)]
      dsimp only
      rw [show k + 0 + (l.length - k) = l.length by omega,
        show k + (l.length - k) = l.length by omega] at hs
      rw [hlast, hs]
      simp only [ok_bind, hv]
      rw [replace_slot hlen hpos (.inr hlive)]
      rfl

/-- `insert` of one element, where there is room or something before the position to drop. -/
theorem Repr.insert_room (h : cb.Repr T l) {k : ℕ} (hk : k ≤ l.length)
    (hroom : ¬ (cb.capacity = cb.size ∧ k = 0)) {item : Item α} {v : α}
    (hv : item.Finds cb l (insertFinds T cb.capacity l k) v) :
    ∃ cb', cb.insert T (cb.iterAt k) item = .ok (cb', some (slot cb.capacity cb.first k)) ∧
      cb'.capacity = cb.capacity ∧
      cb'.first = slot cb.capacity cb.first (l.length + 1 - cb.capacity) ∧
      cb'.Repr T (keepLast cb.capacity (splice k [v] l)) := by
  obtain ⟨hle, hsize⟩ := h.sizes
  have hpos : 0 < cb.capacity := Nat.pos_of_ne_zero fun h0 => hroom ⟨by omega, by omega⟩
  unfold CircularBuffer.insert
  rw [if_neg fun hc => hroom ⟨full_iff.mp hc.1,
    (h.iterAt_inj (by omega) (by omega)).mp (hc.2.trans h.begin_eq)⟩]
  obtain ⟨s, hlen', hfinds, hcells⟩ := h.insertCells hk hpos (by omega)
  obtain ⟨buff, hlen, hview, heq⟩ := hcells item v (hv s hlen' hfinds)
  rw [insertItem, heq]
  refine ⟨_, rfl, and_left_comm.mp ⟨?_, h.of_insert hk rfl (by simp; omega) hpos hlen hview
    (h.growBack_eq hpos buff)⟩⟩
  rw [h.growBack_eq hpos buff]

/-- **`insert`** of one element, as if at the position and then cut to the last ones. -/
theorem Repr.insert (h : cb.Repr T l) {k : ℕ} (hk : k ≤ l.length) {item : Item α} {v : α}
    (hv : item.Finds cb l (insertFinds T cb.capacity l k) v) :
    ∃ cb' it, cb.insert T (cb.iterAt k) item = .ok (cb', it) ∧ cb'.capacity = cb.capacity ∧
      cb'.Repr T (keepLast cb.capacity (splice k [v] l)) := by
  obtain ⟨hle, hsize⟩ := h.sizes
  by_cases hstay : cb.capacity = cb.size ∧ k = 0
  · rw [CircularBuffer.insert, if_pos ⟨full_iff.mpr hstay.1, by rw [h.begin_eq, hstay.2]⟩]
    refine ⟨cb, _, rfl, rfl, ?_⟩
    have hl : keepLast cb.capacity (splice k [v] l) = l := by
      rw [hstay.2, keepLast, length_splice, length_singleton,
        show l.length + 1 - cb.capacity = 1 by omega]
      rfl
    rwa [hl]
  · obtain ⟨cb', hcb', hcap, -, hr⟩ := h.insert_room hk hstay hv
    exact ⟨cb', _, hcb', hcap, hr⟩

theorem Repr.rinsertCells (h : cb.Repr T l) {k : ℕ} (hk : k ≤ l.length) (hpos : 0 < cb.capacity)
    (hroom : k < cb.capacity) :
    ∃ s, s.length = cb.capacity ∧
      (∀ i < l.length, view s cb.first i = rinsertFinds T cb.capacity l k i) ∧
      ∀ (item : Item α) v, item.get s = .ok v → ∃ buff, buff.length = cb.capacity ∧
        (∀ i < cb.capacity, view buff (decrement cb.capacity cb.first) i = if i < k then l[i]?
          else if i < k + 1 then [v][i - k]?
          else view cb.buff (decrement cb.capacity cb.first) i) ∧
        cb.rinsertCells T (cb.iterAt k) item =
          .ok (buff, slot cb.capacity (decrement cb.capacity cb.first) k) := by
  obtain ⟨hle, hsize⟩ := h.sizes
  have hf := h.first_lt_of_pos hpos
  have hfirst := slot_decrement hf
  have hslot := slot_zero (decrement_lt hf)
  have hview₁ := h.view_decrement hpos
  -- the cell before `m_first` is raw unless the buffer is full
  have hcell : T.scalar = true ∨
      (!cb.full) = (view cb.buff (decrement cb.capacity cb.first) 0).isNone := by
    rw [h.view_decrement_zero hpos]
    by_cases hfull : cb.capacity = cb.size
    · have hv := h.view_eq (show cb.capacity - 1 < l.length by omega)
      exact .inr (by rw [hv, full_iff.mpr hfull]; rfl)
    · refine (h.view_raw (i := cb.capacity - 1) (by omega) (by omega)).imp_right fun hv => ?_
      rw [hv, Bool.eq_false_iff.mpr (mt full_iff.mp hfull)]
      rfl
  unfold CircularBuffer.rinsertCells
  rw [h.mapPointer_iterAt (by omega)]
  rcases Nat.eq_zero_or_pos k with rfl | hk0
  · dsimp only
    simp only [if_pos h.begin_eq.symm]
    refine ⟨cb.buff, cb.length_buff, fun i hi => ?_, fun item v hv => ?_⟩
    · rw [rinsertFinds, if_pos (.inl rfl), h.view_eq hi, List.getElem?_eq_getElem hi]
    generalize decrement cb.capacity cb.first = b at *
    refine ⟨cb.buff.set (slot cb.capacity b 0) (some v), by simp [capacity], fun i hi => ?_, ?_⟩
    · rw [view_set cb.length_buff _ _ (by omega) (by omega)]
      cases i with
      | zero => rfl
      | succ i => rw [if_neg (by omega), if_neg (by omega), if_neg (by omega)]
    · have hw := constructOrReplace_slot (v := v) cb.length_buff hpos hcell
      rw [hslot] at hw
      rw [hv, ok_bind, hw, hslot]
      rfl
  · dsimp only
    have hne : ¬ cb.iterAt k = cb.begin := fun hc =>
      absurd ((h.iterAt_inj (by omega) (by omega)).mp (hc.trans h.begin_eq)) (by omega)
    simp only [if_neg hne]
    have hstop : slot cb.capacity cb.first k =
        slot cb.capacity (decrement cb.capacity cb.first) (0 + 1 + k) := by
      rw [Nat.zero_add, ← slot_slot, hfirst]
    rw [hstop]
    generalize decrement cb.capacity cb.first = b at *
    obtain ⟨s, hs, hlen, hview⟩ := forward_spec (T := T) (b := b) (s := cb.buff) T.moved
      (fun c _ => c) Nat.one_pos (fun i => l.getD (i - 1) l[0]) k 0 (!cb.full) (cb.capacity + 1)
      cb.length_buff (by omega) (by omega)
      (fun i h₁ h₂ => by
        rw [show i = i - 1 + 1 by omega, hview₁, h.view_eq (by omega), Nat.add_sub_cancel,
          getD_eq_getElem _ _ (by omega)])
      (hcell.imp_right fun hc i h₁ h₂ => by
        cases i with
        | zero => simpa using hc
        | succ i =>
          rw [decide_eq_false (by omega), Bool.and_false, hview₁, eq_comm,
            Option.isNone_eq_false_iff]
          exact h.view_isSome (by omega))
    have hlive : (view s b k).isSome := by
      rw [hview k (by omega) (by omega), if_neg (by omega), if_pos (by omega),
        show k = k - 1 + 1 by omega, hview₁, h.view_eq (by omega)]
      rfl
    refine ⟨s, hlen, fun i hi => ?_, fun item v hv =>
      ⟨s.set (slot cb.capacity b k) (some v), by simpa using hlen, fun i hi => ?_, ?_⟩⟩
    · rw [rinsertFinds, if_neg (by omega), ← hfirst, view_slot hlen]
      by_cases hfull : l.length = cb.capacity ∧ i + 1 = l.length
      · -- the cell of the last element is the one before that of the first
        rw [if_pos hfull, show 1 + i = 0 + cb.capacity by omega, view_add_length hlen,
          hview 0 le_rfl (by omega), if_pos (by omega), getD_eq_getElem _ _ (by omega),
          List.getElem?_eq_getElem (by omega)]
      rw [if_neg hfull, hview _ (by omega) (by omega), Nat.add_comm 1 i, hview₁, h.view_eq hi]
      by_cases hik : k ≤ i
      · rw [if_neg (by omega), if_neg (by omega), if_pos hik, List.getElem?_eq_getElem hi]
      rw [if_neg hik]
      by_cases hlast : i + 1 = k
      · rw [if_neg (by omega), if_pos (by omega), if_pos hlast, List.getElem?_eq_getElem hi]
      · rw [if_pos (by omega), if_neg hlast, Nat.add_sub_cancel, getD_eq_getElem _ _ (by omega),
          List.getElem?_eq_getElem (by omega)]
    · rw [view_set hlen _ _ (by omega) (by omega)]
      rcases Nat.lt_trichotomy i k with hlt | rfl | hgt
      · rw [if_neg (by omega), if_pos hlt, hview i (by omega) (by omega), if_pos (by omega),
          Nat.add_sub_cancel, getD_eq_getElem _ _ (by omega),
          List.getElem?_eq_getElem (by omega)]
      · simp
      · rw [if_neg (by omega), if_neg (by omega), if_neg (by omega), hview i (by omega) (by omega),
          if_neg (by omega), if_neg (by omega)]
    · rw [Nat.zero_add, hfirst, hslot] at hs
      rw [Nat.zero_add, hs]
      simp only [ok_bind, hv]
      rw [Nat.add_comm 1 k, decrement_slot hpos, replace_slot hlen hpos (.inr hlive)]
      rfl

/-- `rinsert` of one element, where there is room or something from the position on to drop. -/
theorem Repr.rinsert_room (h : cb.Repr T l) {k : ℕ} (hk : k ≤ l.length)
    (hroom : ¬ (cb.capacity = cb.size ∧ k = l.length)) {item : Item α} {v : α}
    (hv : item.Finds cb l (rinsertFinds T cb.capacity l k) v) :
    ∃ cb', cb.rinsert T (cb.iterAt k) item =
        .ok (cb', some (slot cb.capacity (decrement cb.capacity cb.first) k)) ∧
      cb'.capacity = cb.capacity ∧ cb'.first = decrement cb.capacity cb.first ∧
      cb'.Repr T ((splice k [v] l).take cb.capacity) := by
  obtain ⟨hle, hsize⟩ := h.sizes
  have hpos : 0 < cb.capacity := Nat.pos_of_ne_zero fun h0 => hroom ⟨by omega, by omega⟩
  have hf := h.first_lt_of_pos hpos
  unfold CircularBuffer.rinsert
  rw [if_neg fun hc => hroom ⟨full_iff.mp hc.1, ((h.iterAt_inj (by omega) le_rfl).mp
    (hc.2.trans cb.iterAt_size.symm)).trans hsize⟩]
  obtain ⟨s, hlen', hfinds, hcells⟩ := h.rinsertCells hk hpos (by omega)
  obtain ⟨buff, hlen, hview, heq⟩ := hcells item v (hv s hlen' hfinds)
  rw [heq]
  refine ⟨_, rfl, and_left_comm.mp ⟨?_, h.of_rinsert hk (decrement_lt hf) (slot_decrement hf) hlen
    hview (h.growFront_eq hpos buff)⟩⟩
  rw [h.growFront_eq hpos buff]

/-- **`rinsert`** of one element, as if before the position and then cut to the first ones. -/
theorem Repr.rinsert (h : cb.Repr T l) {k : ℕ} (hk : k ≤ l.length) {item : Item α} {v : α}
    (hv : item.Finds cb l (rinsertFinds T cb.capacity l k) v) :
    ∃ cb' it, cb.rinsert T (cb.iterAt k) item = .ok (cb', it) ∧ cb'.capacity = cb.capacity ∧
      cb'.Repr T ((splice k [v] l).take cb.capacity) := by
  obtain ⟨hle, hsize⟩ := h.sizes
  by_cases hstay : cb.capacity = cb.size ∧ k = l.length
  · rw [CircularBuffer.rinsert,
      if_pos ⟨full_iff.mpr hstay.1, by rw [hstay.2, ← hsize, iterAt_size]⟩]
    refine ⟨cb, _, rfl, rfl, ?_⟩
    have hl : (splice k [v] l).take cb.capacity = l := by
      rw [hstay.2, splice, take_length, drop_length, append_nil, hstay.1, hsize,
        take_left]
    rwa [hl]
  · obtain ⟨cb', hcb', hcap, -, hr⟩ := h.rinsert_room hk hstay hv
    exact ⟨cb', _, hcb', hcap, hr⟩

/-! ### Several elements at an end -/

/-- The elements a wrapper gives. -/
def items (wrapper : ℕ → α) (n : ℕ) : List α := (List.range n).map wrapper

@[simp] theorem length_items (wrapper : ℕ → α) (n : ℕ) : (items wrapper n).length = n := by
  simp [items]

theorem getElem?_items (wrapper : ℕ → α) {n i : ℕ} (hi : i < n) :
    (items wrapper n)[i]? = some (wrapper i) := by
  simp [items, hi]

theorem constructCount_eq (cb : CircularBuffer α) (n : ℕ) :
    cb.constructCount n = min n (cb.capacity - cb.size) := by
  unfold constructCount reserve
  split <;> omega

theorem Repr.insertN_pointers (h : cb.Repr T l) (hpos : 0 < cb.capacity) (hn : n ≤ cb.capacity)
    (buff : List (Option α)) :
    ({ buff := buff, last := add cb.capacity cb.last n,
       first := add cb.capacity cb.first (n - cb.constructCount n),
       size := cb.size + cb.constructCount n } : CircularBuffer α) =
      { buff := buff, first := slot cb.capacity cb.first (l.length + n - cb.capacity),
        last := slot cb.capacity cb.first (l.length + n),
        size := min (l.length + n) cb.capacity } := by
  obtain ⟨hle, hsize⟩ := h.sizes
  rw [constructCount_eq, h.last_eq, add_slot hpos hn, h.add_first (by omega), hsize,
    show n - min n (cb.capacity - l.length) = l.length + n - cb.capacity by omega,
    show l.length + min n (cb.capacity - l.length) = min (l.length + n) cb.capacity by omega]

theorem Repr.insertNCells_end (h : cb.Repr T l) (hpos : 0 < cb.capacity) (hn : n ≤ cb.capacity)
    (wrapper : ℕ → α) :
    ∃ buff, cb.insertNCells T none n wrapper = .ok buff ∧ buff.length = cb.capacity ∧
      ∀ i, l.length ≤ i → i < l.length + cb.capacity → view buff cb.first i =
        if i < l.length + n then (items wrapper n)[i - l.length]? else view cb.buff cb.first i := by
  obtain ⟨hle, hsize⟩ := h.sizes
  have hcount := cb.constructCount_eq n
  rw [hsize] at hcount
  have hlast : cb.last = slot cb.capacity cb.first l.length := by rw [h.last_eq, hsize]
  obtain ⟨s₁, hs₁, hlen₁, hview₁⟩ := fill_spec (T := T) (b := cb.first) (s := cb.buff)
    (fun _ => true) wrapper (cb.constructCount n) 0 l.length cb.length_buff (by omega) (by
      cases hT : T.scalar with
      | true => exact .inl rfl
      | false =>
        refine .inr fun i h₁ h₂ => ?_
        rw [(h.view_raw (i := i) (by omega) h₁).resolve_left (by simp [hT])]
        rfl)
  obtain ⟨s₂, hs₂, hlen₂, hview₂⟩ := fill_spec (T := T) (b := cb.first) (s := s₁)
    (fun _ => false) wrapper (n - cb.constructCount n) (cb.constructCount n)
    (l.length + cb.constructCount n) hlen₁ (by omega) (.inr fun i h₁ h₂ => by
      -- a turn later the elements at the start are met
      rw [hview₁ i (by omega) (by omega), if_neg (by omega), eq_comm, Option.isNone_eq_false_iff,
        show i = i - cb.capacity + cb.capacity by omega, view_add_length cb.length_buff]
      exact h.view_isSome (by omega))
  refine ⟨s₂, ?_, hlen₂, fun i h₁ h₂ => ?_⟩
  · unfold insertNCells
    dsimp only
    rw [hlast, hs₁]
    simp only [ok_bind]
    rw [hs₂]
    rfl
  · rcases Nat.lt_or_ge i (l.length + cb.constructCount n) with hlt | hge
    · rw [← view_add_length hlen₂, hview₂ _ (by omega) (by omega), if_neg (by omega),
        view_add_length hlen₁, hview₁ i h₁ h₂, if_pos hlt, if_pos (by omega),
        getElem?_items _ (by omega), Nat.zero_add]
    · rw [hview₂ i hge (by omega)]
      by_cases hin : i < l.length + n
      · rw [if_pos (by omega), if_pos hin, getElem?_items _ (by omega)]
        congr 2
        omega
      · rw [if_neg (by omega), if_neg hin, hview₁ i h₁ h₂, if_neg (by omega)]

/-- **`insert_n`** at the end. -/
theorem Repr.insertN_end (h : cb.Repr T l) (hpos : 0 < cb.capacity) (hn : n ≤ cb.capacity)
    (wrapper : ℕ → α) :
    ∃ cb', cb.insertN T none n wrapper = .ok cb' ∧ cb'.capacity = cb.capacity ∧
      cb'.Repr T (keepLast cb.capacity (splice l.length (items wrapper n) l)) := by
  obtain ⟨hle, hsize⟩ := h.sizes
  obtain ⟨buff, hbuff, hlen, hview⟩ := h.insertNCells_end hpos hn wrapper
  rw [insertN, hbuff, ok_bind, h.insertN_pointers hpos hn]
  refine ⟨_, rfl, h.of_insert le_rfl (by rw [length_items]) ?_ hpos hlen (fun i h₁ h₂ => ?_)
    (by rw [length_items])⟩
  · omega
  · rw [hview i h₁ h₂, length_items]
    by_cases hi : i < l.length + n
    · rw [if_pos hi, if_pos hi]
    · rw [if_neg hi, if_neg hi, if_neg hi]

/-- **`insert(end(), n, item)`**. -/
theorem Repr.insertFill_end (h : cb.Repr T l) (n : ℕ) (v : α) :
    ∃ cb', cb.insertFill T none n (.value v) = .ok cb' ∧ cb'.capacity = cb.capacity ∧
      cb'.Repr T (keepLast cb.capacity (l ++ List.replicate (min n cb.capacity) v)) := by
  obtain ⟨hle, hsize⟩ := h.sizes
  have hcopy : ((cb.capacity : ℤ) - cb.diff none none).toNat = cb.capacity := by
    rw [diff, sub_self, sub_zero, Int.toNat_natCast]
  have hstay : keepLast cb.capacity l = l := by
    rw [keepLast, Nat.sub_eq_zero_of_le (by omega), drop_zero]
  unfold insertFill
  dsimp only
  rw [hcopy]
  by_cases hn0 : n = 0
  · rw [if_pos hn0]
    refine ⟨cb, rfl, rfl, ?_⟩
    rwa [hn0, Nat.zero_min, List.replicate_zero, append_nil, hstay]
  by_cases hcap : cb.capacity = 0
  · rw [if_neg hn0, if_pos hcap]
    refine ⟨cb, rfl, rfl, ?_⟩
    rwa [hcap, Nat.min_zero, List.replicate_zero, append_nil, ← hcap, hstay]
  · have hpos : 0 < cb.capacity := by omega
    have hmin : (if cb.capacity < n then cb.capacity else n) = min n cb.capacity := by
      split <;> omega
    rw [if_neg hn0, if_neg hcap, hmin]
    generalize hm : min n cb.capacity = m
    have hmc : m ≤ cb.capacity := by omega
    have hitems : items (fun _ => v) m = List.replicate m v := by
      rw [items, map_const', length_range]
    obtain ⟨cb', hcb', hcap', hr⟩ := h.insertN_end hpos hmc fun _ => v
    refine ⟨cb', hcb', hcap', ?_⟩
    rwa [splice, take_length, drop_length, append_nil, hitems] at hr

/-- Copies of an element put in where there is room for them all. -/
theorem Repr.insertFill_end_cell (h : cb.Repr T l) {n i : ℕ} (hn : l.length + n ≤ cb.capacity)
    (hi : i < l.length) :
    cb.insertFill T none n (.cell (slot cb.capacity cb.first i)) =
      cb.insertFill T none n (.value l[i]) := by
  have hsize := h.size_eq
  have hcopy : ((cb.capacity : ℤ) - cb.diff none none).toNat = cb.capacity := by
    rw [diff, sub_self, sub_zero, Int.toNat_natCast]
  have hlast : cb.last = slot cb.capacity cb.first l.length := by rw [h.last_eq, hsize]
  have hcell := fill_cell (T := T) (b := cb.first) (s := cb.buff) (fun _ => true) (v := l[i]) n 0
    (t := l.length) (j := i + cb.capacity) cb.length_buff
    (by rw [view_add_length cb.length_buff, h.view_eq hi]) (by omega) (by omega) (by
      cases hT : T.scalar with
      | true => exact .inl rfl
      | false =>
        refine .inr fun i h₁ h₂ => ?_
        rw [(h.view_raw (i := i) (by omega) h₁).resolve_left (by simp [hT])]
        rfl)
  rw [slot_add_self, ← hlast] at hcell
  unfold insertFill insertN insertNCells
  dsimp only
  rw [hcopy, if_neg (by omega : ¬ cb.capacity < n), show cb.constructCount n = n by
    rw [constructCount_eq]
    omega, hcell, Nat.sub_self]
  rfl

theorem Layout.slot_sub_first (h : cb.Layout) (hpos : 0 < cb.capacity) (hn : n ≤ cb.capacity)
    (i : ℕ) :
    slot cb.capacity (sub cb.capacity cb.first n) (n + i) = slot cb.capacity cb.first i := by
  rw [sub_eq_slot (h.first_lt_of_pos hpos) hn, slot_slot,
    show cb.capacity - n + (n + i) = i + cb.capacity by omega, slot_add_self]

theorem Layout.view_sub_first (h : cb.Layout) (hpos : 0 < cb.capacity) (hn : n ≤ cb.capacity)
    (i : ℕ) :
    view cb.buff (sub cb.capacity cb.first n) i =
      view cb.buff cb.first (cb.capacity - n + i) := by
  rw [sub_eq_slot (h.first_lt_of_pos hpos) hn, view_slot cb.length_buff]

theorem Layout.sub_first_lt (h : cb.Layout) (hpos : 0 < cb.capacity) (hn : n ≤ cb.capacity) :
    sub cb.capacity cb.first n < cb.capacity := by
  rw [sub_eq_slot (h.first_lt_of_pos hpos) hn]
  exact slot_lt hpos

theorem Repr.rinsertN_pointers (h : cb.Repr T l) (hpos : 0 < cb.capacity) (hn : n ≤ cb.capacity)
    (buff : List (Option α)) :
    ({ buff := buff, first := sub cb.capacity cb.first n,
       last := sub cb.capacity cb.last (n - cb.constructCount n),
       size := cb.size + cb.constructCount n } : CircularBuffer α) =
      { buff := buff, first := sub cb.capacity cb.first n,
        last := slot cb.capacity (sub cb.capacity cb.first n) (min (l.length + n) cb.capacity),
        size := min (l.length + n) cb.capacity } := by
  obtain ⟨hle, hsize⟩ := h.sizes
  rw [constructCount_eq, h.sub_last (by omega), hsize,
    show l.length + min n (cb.capacity - l.length) = min (l.length + n) cb.capacity by omega,
    show min (l.length + n) cb.capacity = n + (l.length - (n - min n (cb.capacity - l.length))) by
      omega,
    h.slot_sub_first hpos hn]

theorem Repr.rinsertNCells_begin (h : cb.Repr T l) (hpos : 0 < cb.capacity) (hn : n ≤ cb.capacity)
    (wrapper : ℕ → α) :
    ∃ buff, cb.rinsertNCells T cb.begin n wrapper = .ok buff ∧ buff.length = cb.capacity ∧
      ∀ i < cb.capacity, view buff (sub cb.capacity cb.first n) i =
        if i < n then (items wrapper n)[i]?
        else view cb.buff (sub cb.capacity cb.first n) i := by
  obtain ⟨hle, hsize⟩ := h.sizes
  have hcount := cb.constructCount_eq n
  rw [hsize] at hcount
  have hold := h.view_sub_first hpos hn
  have hb := slot_zero (h.sub_first_lt hpos hn)
  unfold rinsertNCells
  rw [if_pos rfl]
  generalize sub cb.capacity cb.first n = b at *
  obtain ⟨s₁, hs₁, hlen₁, hview₁⟩ := fill_spec (T := T) (b := b) (s := cb.buff)
    (fun _ => false) wrapper (n - cb.constructCount n) 0 0 cb.length_buff (by omega)
    (.inr fun i h₁ h₂ => by
      rw [hold, eq_comm, Option.isNone_eq_false_iff]
      exact h.view_isSome (by omega))
  obtain ⟨s₂, hs₂, hlen₂, hview₂⟩ := fill_spec (T := T) (b := b) (s := s₁)
    (fun _ => true) wrapper (cb.constructCount n) (n - cb.constructCount n)
    (0 + (n - cb.constructCount n)) hlen₁ (by omega) (by
      cases hT : T.scalar with
      | true => exact .inl rfl
      | false =>
        refine .inr fun i h₁ h₂ => ?_
        rw [hview₁ i (by omega) (by omega), if_neg (by omega), hold,
          (h.view_raw (i := cb.capacity - n + i) (by omega) (by omega)).resolve_left
            (by simp [hT])]
        rfl)
  rw [hb] at hs₁
  refine ⟨s₂, ?_, hlen₂, fun i hi => ?_⟩
  · rw [hs₁]
    simp only [ok_bind]
    rw [hs₂]
    rfl
  · rcases Nat.lt_or_ge i (0 + (n - cb.constructCount n)) with hlt | hge
    · rw [← view_add_length hlen₂, hview₂ _ (by omega) (by omega), if_neg (by omega),
        view_add_length hlen₁, hview₁ i (by omega) (by omega), if_pos hlt, if_pos (by omega),
        getElem?_items _ (by omega), Nat.zero_add, Nat.sub_zero]
    · rw [hview₂ i hge (by omega)]
      by_cases hin : i < n
      · rw [if_pos (by omega), if_pos hin, getElem?_items _ (by omega)]
        congr 2
        omega
      · rw [if_neg (by omega), if_neg hin, hview₁ i (by omega) (by omega), if_neg (by omega)]

/-- **`rinsert(begin(), n, item)`**. -/
theorem Repr.rinsertFill_begin (h : cb.Repr T l) (n : ℕ) (v : α) :
    ∃ cb', cb.rinsertFill T cb.begin n (.value v) = .ok cb' ∧ cb'.capacity = cb.capacity ∧
      cb'.Repr T ((List.replicate (min n cb.capacity) v ++ l).take cb.capacity) := by
  obtain ⟨hle, hsize⟩ := h.sizes
  have hcopy : ((cb.capacity : ℤ) - cb.diff cb.begin cb.begin).toNat = cb.capacity := by
    rw [diff, sub_self, sub_zero, Int.toNat_natCast]
  have hstay : l.take cb.capacity = l := take_of_length_le (by omega)
  unfold rinsertFill rinsertN
  dsimp only
  rw [hcopy]
  by_cases hn0 : n = 0
  · rw [if_pos hn0]
    refine ⟨cb, rfl, rfl, ?_⟩
    rwa [hn0, Nat.zero_min, List.replicate_zero, nil_append, hstay]
  by_cases hcap : cb.capacity = 0
  · rw [if_neg hn0, if_pos hcap]
    refine ⟨cb, rfl, rfl, ?_⟩
    rwa [hcap, Nat.min_zero, List.replicate_zero, nil_append, ← hcap, hstay]
  · have hpos : 0 < cb.capacity := by omega
    have hmin : (if cb.capacity < n then cb.capacity else n) = min n cb.capacity := by
      split <;> omega
    rw [if_neg hn0, if_neg hcap, hmin]
    generalize hm : min n cb.capacity = m
    have hmc : m ≤ cb.capacity := by omega
    obtain ⟨buff, hbuff, hlen, hview⟩ := h.rinsertNCells_begin hpos hmc fun _ => v
    have hitems : items (fun _ => v) m = List.replicate m v := by
      rw [items, map_const', length_range]
    have hsplice : splice 0 (List.replicate m v) l = List.replicate m v ++ l := rfl
    rw [hbuff, ok_bind, h.rinsertN_pointers hpos hmc, ← hsplice, ← hitems]
    refine ⟨_, rfl, h.of_rinsert (Nat.zero_le _) (h.sub_first_lt hpos hmc) ?_ hlen
      (fun i hi => ?_) (by rw [length_items])⟩
    · rw [length_items]
      exact (h.slot_sub_first hpos hmc 0).trans h.slot_first_zero
    · rw [hview i hi, length_items]
      by_cases hin : i < m
      · rw [if_pos hin, if_neg (by omega), if_pos (by omega), Nat.sub_zero]
      · rw [if_neg hin, if_neg (by omega), if_neg (by omega)]

theorem Repr.rinsertFill_begin_cell (h : cb.Repr T l) {n i : ℕ} (hn : l.length + n ≤ cb.capacity)
    (hi : i < l.length) :
    cb.rinsertFill T cb.begin n (.cell (slot cb.capacity cb.first i)) =
      cb.rinsertFill T cb.begin n (.value l[i]) := by
  have hsize := h.size_eq
  have hpos : 0 < cb.capacity := by omega
  have hcopy : ((cb.capacity : ℤ) - cb.diff cb.begin cb.begin).toNat = cb.capacity := by
    rw [diff, sub_self, sub_zero, Int.toNat_natCast]
  have hb := slot_zero (h.sub_first_lt hpos (n := n) (by omega))
  have hslot := h.slot_sub_first hpos (n := n) (by omega) i
  have hold := h.view_sub_first hpos (n := n) (by omega)
  unfold rinsertFill rinsertN rinsertNCells
  dsimp only
  rw [hcopy, if_neg (by omega : ¬ cb.capacity < n), show cb.constructCount n = n by
    rw [constructCount_eq]
    omega, Nat.sub_self, if_pos rfl, if_pos rfl, ← hslot]
  generalize sub cb.capacity cb.first n = b at *
  have hcell := fill_cell (T := T) (b := b) (s := cb.buff) (fun _ => true) (v := l[i]) n 0
    (t := 0) (j := n + i) cb.length_buff
    (by
      rw [hold, show cb.capacity - n + (n + i) = i + cb.capacity by omega,
        view_add_length cb.length_buff, h.view_eq hi])
    (by omega) (by omega) (by
      cases hT : T.scalar with
      | true => exact .inl rfl
      | false =>
        refine .inr fun i h₁ h₂ => ?_
        rw [hold, (h.view_raw (i := cb.capacity - n + i) (by omega) (by omega)).resolve_left
          (by simp [hT])]
        rfl)
  rw [hb] at hcell
  simp only [fill, ok_bind, hcell]

end SourceLibs.CircularBuffer
