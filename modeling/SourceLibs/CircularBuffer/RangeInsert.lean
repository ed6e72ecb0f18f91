import SourceLibs.CircularBuffer.Discipline

/-!
# CircularBuffer — insertion of a range

`insert` and `rinsert` of a range have two paths each.  A forward range is measured first, cut to
what fits, and handed to `insert_n` or `rinsert_n`; an input range is inserted element by element,
with the iterator each insertion returns moved one further.

* `insertForward`, `insertInput`, `rinsertForward`, `rinsertInput`: the four paths.
* `keepLast_splice`, `take_splice`: what an insertion that is cut keeps.
* `Repr.insertLoop`, `Repr.rinsertLoop`: the loops, by induction on the range.
* `Repr.insertForward`, `Repr.rinsertForward`: what the measured paths leave, and when they return.
* `rangeInsert_iff`: when the paths agree, along every run.
-/

namespace SourceLibs.CircularBuffer
open List

open RingCells

variable {α : Type}

section Operations
variable (T : ValueType α)

/-- `for (; first != last; ++pos) pos = insert(pos, *first++);` -/
def insertLoop : CircularBuffer α → Option ℕ → List α → Except Fault (CircularBuffer α)
  | cb, _, [] => .ok cb
  | cb, pos, x :: xs => do
    let (cb, pos) ← cb.insert T pos (.value x)
    let pos ← cb.next pos
    insertLoop cb pos xs

/-- `insert(pos, first, last)` of an input range. -/
def insertInput (cb : CircularBuffer α) (pos : Option ℕ) (xs : List α) :
    Except Fault (CircularBuffer α) :=
  if cb.full = false ∨ pos ≠ cb.begin then insertLoop T cb pos xs else .ok cb

/-- `insert(pos, first, last)` of a forward range. -/
def insertForward (cb : CircularBuffer α) (pos : Option ℕ) (xs : List α) :
    Except Fault (CircularBuffer α) :=
  match xs with
  | [] => .ok cb
  | x :: _ =>
    let n := xs.length
    let copy := ((cb.capacity : ℤ) - cb.diff none pos).toNat
    if copy = 0 then .ok cb
    else if copy < n then
      insertN T cb pos copy fun i => .value ((xs.drop (n - copy)).getD i x)
    else insertN T cb pos n fun i => .value (xs.getD i x)

/-- `for (; first != last; ++pos) { pos = rinsert(pos, *first++); if (pos.m_it == 0) break; }` -/
def rinsertLoop : CircularBuffer α → Option ℕ → List α → Except Fault (CircularBuffer α)
  | cb, _, [] => .ok cb
  | cb, pos, x :: xs => do
    let (cb, pos) ← cb.rinsert T pos (.value x)
    if pos = none then .ok cb
    else do
      let pos ← cb.next pos
      rinsertLoop cb pos xs

/-- `rinsert(pos, first, last)` of an input range. -/
def rinsertInput (cb : CircularBuffer α) (pos : Option ℕ) (xs : List α) :
    Except Fault (CircularBuffer α) :=
  if cb.full = false ∨ pos ≠ none then rinsertLoop T cb pos xs else .ok cb

/-- `rinsert(pos, first, last)` of a forward range; `rinsert_n` of nothing returns at once. -/
def rinsertForward (cb : CircularBuffer α) (pos : Option ℕ) (xs : List α) :
    Except Fault (CircularBuffer α) :=
  match xs with
  | [] => .ok cb
  | x :: _ => rinsertN T cb pos xs.length fun i => .value (xs.getD i x)

end Operations

/-! ### Lists cut to a length -/

section Lists
variable {l xs : List α} {c d k : ℕ}

theorem keepLast_drop (h : d ≤ l.length - c) : keepLast c (l.drop d) = keepLast c l := by
  rw [keepLast, keepLast, length_drop, drop_drop]
  congr 1
  omega

theorem keepLast_append (c : ℕ) (as bs : List α) :
    keepLast c (as ++ bs) = keepLast (c - bs.length) as ++ keepLast c bs := by
  have hfirst : as.drop (as.length + bs.length - c) = as.drop (as.length - (c - bs.length)) := by
    rcases Nat.le_total bs.length c with hle | hle
    · congr 1
      omega
    · rw [drop_eq_nil_of_le (by omega : as.length ≤ as.length + bs.length - c),
        drop_eq_nil_of_le (by omega : as.length ≤ as.length - (c - bs.length))]
  rw [keepLast, keepLast, keepLast, length_append, drop_append, hfirst,
    show as.length + bs.length - c - as.length = bs.length - c by omega]

theorem splice_append (as bs xs : List α) : splice as.length xs (as ++ bs) = as ++ xs ++ bs := by
  rw [splice, take_left, drop_left]

theorem splice_append' {as bs xs : List α} (h : as.length = k) :
    splice k xs (as ++ bs) = as ++ xs ++ bs := h ▸ splice_append as bs xs

/-- One more element before the rest, towards the end. -/
theorem keepLast_splice_cons (hk : k ≤ l.length) (hc : l.length ≤ c)
    (hroom : l.length + 1 - c ≤ k) (x : α) :
    keepLast c (splice (k + 1 - (l.length + 1 - c)) xs (keepLast c (splice k [x] l))) =
      keepLast c (splice k (x :: xs) l) := by
  generalize hd : l.length + 1 - c = d at hroom ⊢
  obtain ⟨as, bs, rfl, rfl⟩ : ∃ as bs, l = as ++ bs ∧ as.length = k :=
    ⟨l.take k, l.drop k, (take_append_drop k l).symm, length_take_of_le hk⟩
  have hlen : (as ++ [x]).length = as.length + 1 := by simp
  rw [splice_append, splice_append, append_cons as x xs]
  rw [length_append] at hd
  generalize as ++ [x] = as' at hlen ⊢
  have hcut : keepLast c (as' ++ bs) = as'.drop d ++ bs := by
    rw [keepLast, length_append, hlen, show as.length + 1 + bs.length - c = d by omega]
    exact drop_append_of_le_length (by omega)
  have hwhole : as'.drop d ++ xs ++ bs = (as' ++ xs ++ bs).drop d := by
    rw [List.append_assoc, List.append_assoc]
    exact (drop_append_of_le_length (by omega)).symm
  rw [hcut, splice_append' (by rw [length_drop, hlen]), hwhole, keepLast_drop]
  rw [length_append, length_append]
  omega

/-- One more element before the rest, towards the start. -/
theorem take_splice_cons (hk : k ≤ l.length) (hroom : k < c) (x : α) :
    (splice (k + 1) xs ((splice k [x] l).take c)).take c = (splice k (x :: xs) l).take c := by
  obtain ⟨as, bs, rfl, rfl⟩ : ∃ as bs, l = as ++ bs ∧ as.length = k :=
    ⟨l.take k, l.drop k, (take_append_drop k l).symm, length_take_of_le hk⟩
  have hlen : (as ++ [x]).length = as.length + 1 := by simp
  rw [splice_append, splice_append, append_cons as x xs]
  generalize as ++ [x] = as' at hlen ⊢
  have hcut : (as' ++ bs).take c = as' ++ bs.take (c - (as.length + 1)) := by
    rw [take_append, take_of_length_le (by omega), hlen]
  have hrest : (bs.take (c - (as.length + 1))).take (c - (as' ++ xs).length) =
      bs.take (c - (as' ++ xs).length) := by
    rw [take_take, length_append, hlen, Nat.min_eq_left (by omega)]
  rw [hcut, splice_append' hlen, take_append, hrest]
  exact take_append.symm

/-- What is kept of an insertion towards the end. -/
theorem keepLast_splice (hk : k ≤ l.length) (hc : l.length ≤ c) (xs : List α) :
    keepLast c (splice k xs l) = keepLast (c - (l.length - k) - xs.length) (l.take k) ++
      keepLast (c - (l.length - k)) xs ++ l.drop k := by
  rw [splice, keepLast_append, keepLast_append, length_drop,
    keepLast_of_le (by rw [length_drop]; omega : (l.drop k).length ≤ c)]

/-- What is kept of an insertion towards the start. -/
theorem take_splice (hk : k ≤ l.length) (hc : k ≤ c) (xs : List α) :
    (splice k xs l).take c =
      l.take k ++ xs.take (c - k) ++ (l.drop k).take (c - (k + xs.length)) := by
  rw [splice, take_append, take_append, length_append, length_take_of_le hk,
    take_of_length_le (by rw [length_take]; omega)]

theorem keepLast_keepLast (m : ℕ) (xs : List α) : keepLast m (keepLast m xs) = keepLast m xs :=
  keepLast_of_le (length_keepLast_le m xs)

/-- The cut of a measured range changes nothing. -/
theorem keepLast_splice_keepLast (hk : k ≤ l.length) (hc : l.length ≤ c) (xs : List α) :
    keepLast c (splice k (keepLast (c - (l.length - k)) xs) l) = keepLast c (splice k xs l) := by
  rw [keepLast_splice hk hc, keepLast_splice hk hc, keepLast_keepLast, length_keepLast]
  congr 2
  rcases Nat.le_total xs.length (c - (l.length - k)) with hle | hle
  · rw [Nat.min_eq_left hle]
  · rw [Nat.min_eq_right hle, Nat.sub_self, Nat.sub_eq_zero_of_le hle]

theorem take_splice_take (hk : k ≤ l.length) (hc : k ≤ c) (xs : List α) :
    (splice k (xs.take (c - k)) l).take c = (splice k xs l).take c := by
  rw [take_splice hk hc, take_splice hk hc, take_take, Nat.min_self, length_take]
  congr 2
  omega

/-- A wrapper around a range gives its elements. -/
theorem items_getD (xs : List α) (x : α) {n : ℕ} (hn : n ≤ xs.length) :
    items (fun i => xs.getD i x) n = xs.take n := by
  refine ext_getElem? fun i => ?_
  rcases Nat.lt_or_ge i n with hlt | hge
  · rw [getElem?_items _ hlt, List.getElem?_take_of_lt hlt, getD_eq_getElem _ _ (by omega),
      List.getElem?_eq_getElem (by omega)]
  · rw [List.getElem?_eq_none (by rwa [length_items]),
      List.getElem?_eq_none (by rw [length_take]; omega)]

end Lists

/-! ### Element by element -/

section Input
variable {T : ValueType α} {cb : CircularBuffer α} {l : List α}

/-- **The loop of `insert`**; the iterator stays at the element it was at. -/
theorem Repr.insertLoop (h : cb.Repr T l) {k : ℕ} (hk : k ≤ l.length)
    (hroom : ¬ (cb.capacity = cb.size ∧ k = 0)) (xs : List α) :
    ∃ cb', insertLoop T cb (cb.iterAt k) xs = .ok cb' ∧ cb'.capacity = cb.capacity ∧
      cb'.Repr T (keepLast cb.capacity (splice k xs l)) := by
  induction xs generalizing cb l k with
  | nil =>
    obtain ⟨hle, hsize⟩ := h.sizes
    refine ⟨cb, rfl, rfl, ?_⟩
    rwa [splice, append_nil, take_append_drop, keepLast_of_le (by omega)]
  | cons x xs ih =>
    obtain ⟨hle, hsize⟩ := h.sizes
    obtain ⟨cb₁, hcb₁, hcap, hfirst, h₁⟩ := h.insert_room hk hroom (Item.finds_value cb l _ x)
    have hsize₁ := h₁.size_eq
    rw [length_keepLast, length_splice, length_singleton] at hsize₁
    generalize hd : l.length + 1 - cb.capacity = d at hfirst
    have hslot : slot cb.capacity cb.first k = slot cb₁.capacity cb₁.first (k - d) := by
      rw [hcap, hfirst, slot_slot, Nat.add_sub_cancel' (by omega)]
    have hnext := h₁.next_iterAt (k := k - d) (by omega)
    obtain ⟨cb', hcb', hcap', hr⟩ := ih h₁ (k := k - d + 1)
      (by rw [length_keepLast, length_splice, length_singleton]; omega) (by omega)
    refine ⟨cb', ?_, hcap'.trans hcap, ?_⟩
    · rw [CircularBuffer.insertLoop, hcb₁, ok_bind]
      dsimp only
      rw [hslot, hnext, ok_bind, hcb']
    · rw [hcap, show k - d + 1 = k + 1 - d by omega, ← hd,
        keepLast_splice_cons hk (by omega) (by omega)] at hr
      exact hr

/-- **`insert` of an input range.** -/
theorem Repr.insertInput (h : cb.Repr T l) {k : ℕ} (hk : k ≤ l.length) (xs : List α) :
    ∃ cb', cb.insertInput T (cb.iterAt k) xs = .ok cb' ∧ cb'.capacity = cb.capacity ∧
      cb'.Repr T (keepLast cb.capacity (splice k xs l)) := by
  obtain ⟨hle, hsize⟩ := h.sizes
  unfold CircularBuffer.insertInput
  by_cases hstay : cb.capacity = cb.size ∧ k = 0
  · obtain ⟨hfull, rfl⟩ := hstay
    rw [if_neg (by rw [h.begin_eq, full_iff.mpr hfull]; simp)]
    refine ⟨cb, rfl, rfl, ?_⟩
    rwa [splice, take_zero, drop_zero, nil_append, keepLast_append,
      show cb.capacity - l.length = 0 by omega, keepLast_of_le (by omega : l.length ≤ cb.capacity),
      keepLast, Nat.sub_zero, drop_length, nil_append]
  · rw [if_pos]
    · exact h.insertLoop hk hstay xs
    · by_cases hfull : cb.capacity = cb.size
      · refine .inr fun hc => hstay ⟨hfull, ?_⟩
        exact (h.iterAt_inj (by omega) (Nat.zero_le _)).mp (hc.trans h.begin_eq)
      · exact .inl (Bool.eq_false_iff.mpr (mt full_iff.mp hfull))

/-- **The loop of `rinsert`** stops when the buffer is full and the position at its end. -/
theorem Repr.rinsertLoop (h : cb.Repr T l) {k : ℕ} (hk : k ≤ l.length) (xs : List α) :
    ∃ cb', rinsertLoop T cb (cb.iterAt k) xs = .ok cb' ∧ cb'.capacity = cb.capacity ∧
      cb'.Repr T ((splice k xs l).take cb.capacity) := by
  induction xs generalizing cb l k with
  | nil =>
    obtain ⟨hle, hsize⟩ := h.sizes
    refine ⟨cb, rfl, rfl, ?_⟩
    rwa [splice, append_nil, take_append_drop, take_of_length_le (by omega)]
  | cons x xs ih =>
    obtain ⟨hle, hsize⟩ := h.sizes
    rw [CircularBuffer.rinsertLoop]
    by_cases hstay : cb.capacity = cb.size ∧ k = l.length
    · obtain ⟨hfull, rfl⟩ := hstay
      have hend : cb.iterAt l.length = none := by rw [← hsize, iterAt_size]
      rw [hend, CircularBuffer.rinsert, if_pos ⟨full_iff.mpr hfull, rfl⟩, ok_bind]
      refine ⟨cb, rfl, rfl, ?_⟩
      rwa [take_splice hk (by omega), take_length, drop_length, take_nil,
        append_nil, hfull, hsize, Nat.sub_self, take_zero, append_nil]
    · obtain ⟨cb₁, hcb₁, hcap, hfirst, h₁⟩ := h.rinsert_room hk hstay (Item.finds_value cb l _ x)
      have hsize₁ := h₁.size_eq
      rw [length_take, length_splice, length_singleton] at hsize₁
      have hnext := h₁.next_iterAt (k := k) (by omega)
      obtain ⟨cb', hcb', hcap', hr⟩ := ih h₁ (k := k + 1)
        (by rw [length_take, length_splice, length_singleton]; omega)
      refine ⟨cb', ?_, hcap'.trans hcap, ?_⟩
      · rw [hcb₁, ok_bind]
        dsimp only
        rw [if_neg (by simp), ← hfirst, ← hcap, hnext, ok_bind, hcb']
      · rwa [hcap, take_splice_cons hk (by omega)] at hr

/-- **`rinsert` of an input range.** -/
theorem Repr.rinsertInput (h : cb.Repr T l) {k : ℕ} (hk : k ≤ l.length) (xs : List α) :
    ∃ cb', cb.rinsertInput T (cb.iterAt k) xs = .ok cb' ∧ cb'.capacity = cb.capacity ∧
      cb'.Repr T ((splice k xs l).take cb.capacity) := by
  obtain ⟨hle, hsize⟩ := h.sizes
  unfold CircularBuffer.rinsertInput
  split
  · exact h.rinsertLoop hk xs
  · rename_i hstay
    obtain ⟨hfull, hend⟩ := not_or.mp hstay
    have hfull := full_iff.mp (Bool.not_eq_false _ ▸ hfull)
    have hk' : k = l.length := by
      have := (h.iterAt_inj (by omega) le_rfl).mp ((not_not.mp hend).trans cb.iterAt_size.symm)
      omega
    refine ⟨cb, rfl, rfl, ?_⟩
    rwa [take_splice hk (by omega), hk', take_length, drop_length, take_nil,
      append_nil, hfull, hsize, Nat.sub_self, take_zero, append_nil]

end Input

/-! ### All at once -/

section Forward
variable {T : ValueType α} {cb : CircularBuffer α} {l : List α} {k : ℕ} {xs : List α}

theorem Layout.insert_copy (h : cb.Layout) (hk : k ≤ cb.size) :
    ((cb.capacity : ℤ) - cb.diff none (cb.iterAt k)).toNat = cb.capacity - (cb.size - k) := by
  have hle := h.size_le
  rw [← iterAt_size, h.diff_iterAt le_rfl hk]
  omega

theorem Layout.last_le (h : cb.Layout) : cb.last ≤ cb.capacity := by
  rw [h.last_eq]
  rcases Nat.eq_zero_or_pos cb.capacity with h0 | hpos
  · have hle := h.size_le
    rcases h.first_lt with hf | ⟨-, hf⟩
    · omega
    · rw [h0, hf, show cb.size = 0 by omega]
      exact le_rfl
  · exact (slot_lt hpos).le

theorem Layout.insertRight_min_iff (h : cb.Layout) (hk : k ≤ cb.size) (n : ℕ) :
    cb.InsertRight (min (cb.capacity - (cb.size - k)) n) ↔ cb.InsertRight n := by
  have hle := h.size_le
  have hr : cb.reserve = cb.capacity - cb.size := rfl
  rw [InsertRight, InsertRight]
  omega

theorem Repr.insertForward_eq (h : cb.Repr T l) (hk : k ≤ l.length)
    (hcopy : 0 < min (cb.capacity - (l.length - k)) xs.length) :
    ∃ wrapper : ℕ → α, items wrapper (min (cb.capacity - (l.length - k)) xs.length) =
        keepLast (cb.capacity - (l.length - k)) xs ∧
      cb.insertForward T (cb.iterAt k) xs = cb.insertN T (cb.iterAt k)
        (min (cb.capacity - (l.length - k)) xs.length) wrapper := by
  have hsize := h.size_eq
  cases xs with
  | nil => simp at hcopy
  | cons x xs =>
    generalize hys : x :: xs = ys at hcopy ⊢
    have hroom := h.insert_copy (hsize ▸ hk)
    rw [hsize] at hroom
    have heq : cb.insertForward T (cb.iterAt k) ys =
        if cb.capacity - (l.length - k) < ys.length then
          cb.insertN T (cb.iterAt k) (cb.capacity - (l.length - k)) fun i =>
            .value ((ys.drop (ys.length - (cb.capacity - (l.length - k)))).getD i x)
        else cb.insertN T (cb.iterAt k) ys.length fun i => .value (ys.getD i x) := by
      subst hys
      simp only [CircularBuffer.insertForward, hroom]
      rw [if_neg (by omega)]
    rw [heq]
    split
    · rename_i hlt
      rw [Nat.min_eq_left hlt.le]
      refine ⟨_, ?_, rfl⟩
      rw [items_getD _ _ (by rw [length_drop]; omega), take_of_length_le
        (by rw [length_drop]; omega)]
      rfl
    · rename_i hge
      rw [Nat.min_eq_right (by omega), keepLast_of_le (by omega)]
      exact ⟨_, (items_getD ys x le_rfl).trans take_length, rfl⟩

/-- Nothing of the range fits, or there is nothing. -/
theorem Repr.insertForward_none (h : cb.Repr T l) (hk : k ≤ l.length)
    (h0 : min (cb.capacity - (l.length - k)) xs.length = 0) :
    cb.insertForward T (cb.iterAt k) xs = .ok cb ∧
      keepLast cb.capacity (splice k xs l) = l ∧ cb.InsertRight xs.length := by
  obtain ⟨hle, hsize⟩ := h.sizes
  have hlast := h.last_le
  refine ⟨?_, ?_, ?_⟩
  · cases xs with
    | nil => rfl
    | cons x xs =>
      have hroom := h.insert_copy (hsize ▸ hk)
      simp only [CircularBuffer.insertForward, hroom]
      rw [length_cons] at h0
      rw [if_pos (by omega)]
  · rw [Nat.min_comm, ← length_keepLast, length_eq_zero_iff] at h0
    rw [← keepLast_splice_keepLast hk (by omega), h0, splice, append_nil,
      take_append_drop, keepLast_of_le (by omega)]
  · have hmin := h.insertRight_min_iff (hsize ▸ hk) xs.length
    rw [hsize, h0] at hmin
    refine hmin.mp fun hc => ?_
    rw [Nat.min_zero] at hc
    omega

/-- **`insert` of a forward range**, where `insert_n` is right about the cells. -/
theorem Repr.insertForward (h : cb.Repr T l) (hk : k ≤ l.length)
    (hc : T.scalar = true ∨ k = l.length ∨ cb.InsertRight xs.length) :
    ∃ cb', cb.insertForward T (cb.iterAt k) xs = .ok cb' ∧ cb'.capacity = cb.capacity ∧
      cb'.Repr T (keepLast cb.capacity (splice k xs l)) := by
  obtain ⟨hle, hsize⟩ := h.sizes
  have hmin := h.insertRight_min_iff (hsize ▸ hk) xs.length
  rw [hsize] at hmin
  rcases Nat.eq_zero_or_pos (min (cb.capacity - (l.length - k)) xs.length) with h0 | hpos
  · obtain ⟨heq, hkeep, -⟩ := h.insertForward_none hk h0
    exact ⟨cb, heq, rfl, by rwa [hkeep]⟩
  · obtain ⟨wrapper, hitems, heq⟩ := h.insertForward_eq hk hpos
    rw [heq, ← keepLast_splice_keepLast hk (by omega), ← hitems]
    rcases Nat.eq_or_lt_of_le hk with rfl | hlt
    · have hend : cb.iterAt l.length = none := by rw [← hsize, iterAt_size]
      rw [hend]
      exact h.insertN_end (by omega) (by omega) wrapper
    · rw [or_iff_right (by omega : ¬ k = l.length), ← hmin] at hc
      exact h.insertN hlt hpos (by omega) wrapper hc

theorem Repr.insertForward_right (h : cb.Repr T l) (hk : k ≤ l.length) {cb' : CircularBuffer α}
    (hcb' : cb.insertForward T (cb.iterAt k) xs = .ok cb') :
    T.scalar = true ∨ k = l.length ∨ cb.InsertRight xs.length := by
  obtain ⟨hle, hsize⟩ := h.sizes
  have hmin := h.insertRight_min_iff (hsize ▸ hk) xs.length
  rw [hsize] at hmin
  rcases Nat.eq_zero_or_pos (min (cb.capacity - (l.length - k)) xs.length) with h0 | hpos
  · exact .inr (.inr (h.insertForward_none hk h0).2.2)
  · obtain ⟨wrapper, -, heq⟩ := h.insertForward_eq hk hpos
    rw [heq] at hcb'
    rcases Nat.eq_or_lt_of_le hk with rfl | hlt
    · exact .inr (.inl rfl)
    · cases hT : T.scalar with
      | true => exact .inl rfl
      | false => exact .inr (.inr (hmin.mp (h.insertN_right hT hlt hpos (by omega) hcb')))

theorem RinsertRight.of_full (h : cb.Repr T l) (hfull : cb.capacity = cb.size) (k n : ℕ) :
    cb.RinsertRight k n := by
  rintro ⟨-, -, -, hlt⟩
  have hlast := h.last_of_full hfull
  rw [h.slot_first_zero] at hlast
  omega

theorem Repr.rinsertForward_eq (T : ValueType α) (cb : CircularBuffer α) (pos : Option ℕ)
    (hne : 0 < xs.length) :
    ∃ wrapper : ℕ → α, (∀ n ≤ xs.length, items wrapper n = xs.take n) ∧
      cb.rinsertForward T pos xs = cb.rinsertN T pos xs.length wrapper := by
  cases xs with
  | nil => simp at hne
  | cons x xs => exact ⟨_, fun n hn => items_getD (x :: xs) x hn, rfl⟩

/-- **`rinsert` of a forward range**, where `rinsert_n` is right about the cells. -/
theorem Repr.rinsertForward (h : cb.Repr T l) (hk : k ≤ l.length)
    (hc : T.scalar = true ∨ cb.RinsertRight k xs.length) :
    ∃ cb', cb.rinsertForward T (cb.iterAt k) xs = .ok cb' ∧ cb'.capacity = cb.capacity ∧
      cb'.Repr T ((splice k xs l).take cb.capacity) := by
  obtain ⟨hle, hsize⟩ := h.sizes
  rcases Nat.eq_zero_or_pos xs.length with h0 | hpos
  · obtain rfl := eq_nil_of_length_eq_zero h0
    refine ⟨cb, rfl, rfl, ?_⟩
    rwa [splice, append_nil, take_append_drop, take_of_length_le (by omega)]
  obtain ⟨wrapper, hitems, heq⟩ := Repr.rinsertForward_eq T cb (cb.iterAt k) hpos
  rw [heq, ← take_splice_take hk (by omega)]
  rcases Nat.eq_or_lt_of_le (show k ≤ cb.capacity by omega) with rfl | hlt
  · -- nothing fits before `end()`
    refine ⟨cb, ?_, rfl, ?_⟩
    · unfold CircularBuffer.rinsertN
      dsimp only
      rw [h.rinsert_copy (hsize ▸ hk), if_neg (by omega), if_pos (by omega)]
    · rwa [Nat.sub_self, take_zero, splice, append_nil, take_append_drop,
        take_of_length_le (by omega)]
  · have htake : items wrapper (min xs.length (cb.capacity - k)) = xs.take (cb.capacity - k) := by
      rw [hitems _ (Nat.min_le_left _ _), Nat.min_comm]
      exact take_eq_take_min.symm
    rw [← htake]
    exact h.rinsertN hk hlt hpos wrapper hc

theorem Repr.rinsertForward_right (h : cb.Repr T l) (hk : k ≤ l.length) {cb' : CircularBuffer α}
    (hcb' : cb.rinsertForward T (cb.iterAt k) xs = .ok cb') :
    T.scalar = true ∨ cb.RinsertRight k xs.length := by
  obtain ⟨hle, hsize⟩ := h.sizes
  rcases Nat.eq_zero_or_pos xs.length with h0 | hpos
  · exact .inr fun hc => by
      have := hc.2.1
      omega
  obtain ⟨wrapper, -, heq⟩ := Repr.rinsertForward_eq T cb (cb.iterAt k) hpos
  rw [heq] at hcb'
  rcases Nat.eq_or_lt_of_le (show k ≤ cb.capacity by omega) with rfl | hlt
  · exact .inr (RinsertRight.of_full h (by omega) _ _)
  · cases hT : T.scalar with
    | true => exact .inl rfl
    | false => exact .inr (h.rinsertN_right hT hk hlt hcb')

end Forward

/-! ### Runs -/

section Runs
variable {T : ValueType α} {cb : CircularBuffer α} {l : List α}

/-- The side an insertion makes room at, and the path its range takes. -/
inductive Path where
  | insertForward
  | insertInput
  | rinsertForward
  | rinsertInput

/-- The code of a path. -/
def Path.apply (T : ValueType α) (cb : CircularBuffer α) (pos : Option ℕ) (xs : List α) :
    Path → Except Fault (CircularBuffer α)
  | insertForward => cb.insertForward T pos xs
  | insertInput => cb.insertInput T pos xs
  | rinsertForward => cb.rinsertForward T pos xs
  | rinsertInput => cb.rinsertInput T pos xs

/-- What a path is for. -/
def Path.spec (c pos : ℕ) (xs l : List α) : Path → List α
  | insertForward | insertInput => keepLast c (splice pos xs l)
  | rinsertForward | rinsertInput => (splice pos xs l).take c

/-- The path is right about the cells. -/
def Path.Right (T : ValueType α) (cb : CircularBuffer α) (pos n : ℕ) : Path → Prop
  | insertForward => T.scalar = true ∨ pos = cb.size ∨ cb.InsertRight n
  | rinsertForward => T.scalar = true ∨ cb.RinsertRight pos n
  | insertInput | rinsertInput => True

/-- **One insertion of a range**, where the path is right about the cells. -/
theorem Repr.path (h : cb.Repr T l) (path : Path) {k : ℕ} (hk : k ≤ l.length) {xs : List α}
    (hc : path.Right T cb k xs.length) :
    ∃ cb', path.apply T cb (cb.iterAt k) xs = .ok cb' ∧ cb'.capacity = cb.capacity ∧
      cb'.Repr T (path.spec cb.capacity k xs l) := by
  cases path with
  | insertForward =>
    rw [Path.Right, h.size_eq] at hc
    exact h.insertForward hk hc
  | insertInput => exact h.insertInput hk xs
  | rinsertForward => exact h.rinsertForward hk hc
  | rinsertInput => exact h.rinsertInput hk xs

theorem Repr.path_right (h : cb.Repr T l) (path : Path) {k : ℕ} (hk : k ≤ l.length) {xs : List α}
    {cb' : CircularBuffer α} (hcb' : path.apply T cb (cb.iterAt k) xs = .ok cb') :
    path.Right T cb k xs.length := by
  cases path with
  | insertForward =>
    rw [Path.Right, h.size_eq]
    exact h.insertForward_right hk hcb'
  | rinsertForward => exact h.rinsertForward_right hk hcb'
  | insertInput | rinsertInput => trivial

/-- An operation, or an insertion of a range before an index from `begin()`. -/
inductive RangeCall (α : Type) where
  | op (op : Op α)
  | range (path : Path) (pos : ℕ) (xs : List α)

/-- The code of a call. -/
def RangeCall.apply (T : ValueType α) (cb : CircularBuffer α) :
    RangeCall α → Except Fault (CircularBuffer α)
  | op o => o.apply T cb
  | range path pos xs => do
    let it ← cb.plus cb.begin pos
    path.apply T cb it xs

/-- What a call is for. -/
def RangeCall.spec (st : ℕ × List α) : RangeCall α → Option (ℕ × List α)
  | op o => o.spec st
  | range path pos xs =>
    if pos ≤ st.2.length then some (st.1, path.spec st.1 pos xs st.2) else none

/-- What a call asks of the buffer it finds. -/
def RangeCall.Meets (T : ValueType α) (cb : CircularBuffer α) : RangeCall α → Prop
  | op _ => True
  | range path pos xs => path.Right T cb pos xs.length

/-- A run. -/
def runRanges (T : ValueType α) (cb : CircularBuffer α) (calls : List (RangeCall α)) :
    Except Fault (CircularBuffer α) :=
  calls.foldlM (RangeCall.apply T) cb

/-- What the run is for. -/
def specRanges (st : ℕ × List α) (calls : List (RangeCall α)) : Option (ℕ × List α) :=
  calls.foldlM RangeCall.spec st

/-- Every call of a run meets what it asks in the state before it. -/
def MeetsRanges (T : ValueType α) : CircularBuffer α → List (RangeCall α) → Prop
  | _, [] => True
  | cb, call :: rest =>
    call.Meets T cb ∧ ∀ cb', call.apply T cb = .ok cb' → MeetsRanges T cb' rest

theorem Repr.rangeCall (h : cb.Repr T l) (call : RangeCall α) (hm : call.Meets T cb)
    {st : ℕ × List α} (hs : call.spec (cb.capacity, l) = some st) :
    ∃ cb', call.apply T cb = .ok cb' ∧ cb'.capacity = st.1 ∧ cb'.Repr T st.2 := by
  cases call with
  | op o => exact o.apply_refines h hs
  | range path pos xs =>
    obtain ⟨hpos, he⟩ := Option.ite_none_right_eq_some.mp hs
    cases he
    rw [RangeCall.apply, h.plus_begin (h.size_eq ▸ hpos), ok_bind]
    exact h.path path hpos hm

theorem Repr.rangeCalls (h : cb.Repr T l) (calls : List (RangeCall α)) (hm : MeetsRanges T cb calls)
    {st : ℕ × List α} (hs : specRanges (cb.capacity, l) calls = some st) :
    ∃ cb', cb.runRanges T calls = .ok cb' ∧ cb'.capacity = st.1 ∧ cb'.Repr T st.2 := by
  refine Runs.foldlM_simulates (f := RangeCall.apply T) (P := MeetsRanges T)
    (R := fun cb st => cb.capacity = st.1 ∧ cb.Repr T st.2) ?_ ⟨rfl, h⟩ hm hs
  rintro cb ⟨c, l⟩ call rest st' ⟨rfl, h⟩ ⟨hfirst, hrest⟩ hs
  obtain ⟨cb', hcb', hcap, hr⟩ := h.rangeCall call hfirst hs
  exact ⟨cb', hcb', ⟨hcap, hr⟩, hrest cb' hcb'⟩

/-- **Insertion of a range.**  After a run whose calls meet their conditions, at every position and
for every range: a path leaves the list with the range put in and cut to the capacity exactly where
it is right about the cells.  `insert` drops nothing from the position on, and `rinsert` nothing
before it. -/
theorem rangeInsert_iff (bufferCapacity : ℕ) (calls : List (RangeCall α)) {c : ℕ}
    (hm : MeetsRanges T (ofCapacity bufferCapacity) calls)
    (hs : specRanges (bufferCapacity, []) calls = some (c, l)) :
    ∃ cb, (ofCapacity bufferCapacity).runRanges T calls = .ok cb ∧ cb.elements = .ok l ∧
      cb.capacity = c ∧ cb.size = l.length ∧
      ∀ k ≤ l.length, ∀ xs,
        (∀ path : Path, (∃ cb', path.apply T cb (cb.iterAt k) xs = .ok cb' ∧
          cb'.elements = .ok (path.spec c k xs l)) ↔ path.Right T cb k xs.length) ∧
        keepLast c (splice k xs l) = keepLast (c - (l.length - k) - xs.length) (l.take k) ++
          keepLast (k + cb.reserve) xs ++ l.drop k ∧
        (splice k xs l).take c =
          l.take k ++ xs.take (c - k) ++ (l.drop k).take (c - (k + xs.length)) := by
  have h₀ : (ofCapacity bufferCapacity : CircularBuffer α).capacity = bufferCapacity :=
    length_replicate
  rw [← h₀] at hs
  obtain ⟨cb, hcb, rfl, h⟩ := (repr_ofCapacity T bufferCapacity).rangeCalls calls hm hs
  have h : cb.Repr T l := h
  obtain ⟨hle, hsize⟩ := h.sizes
  refine ⟨cb, hcb, h.elements, rfl, hsize, fun k hk xs => ⟨fun path => ⟨?_, fun hc => ?_⟩, ?_, ?_⟩⟩
  · rintro ⟨cb', hcb', -⟩
    exact h.path_right path hk hcb'
  · obtain ⟨cb', hcb', -, hr⟩ := h.path path hk hc
    exact ⟨cb', hcb', hr.elements⟩
  · have hroom : k + cb.reserve = cb.capacity - (l.length - k) := by
      rw [CircularBuffer.reserve]
      omega
    rw [hroom]
    exact keepLast_splice hk (by omega) xs
  · exact take_splice hk (by omega) xs

/-- Four elements in six cells, and five more before the third: the first of them does not fit. -/
theorem rangeInsert_iff_overwrites :
    ∃ cb, (ofCapacity 6 : CircularBuffer ℕ).runRanges ⟨false, id⟩
      [.op (.pushBack 1), .op (.pushBack 2), .op (.pushBack 3), .op (.pushBack 4),
        .range .insertForward 2 [5, 6, 7, 8, 9]] = .ok cb ∧ cb.elements = .ok [6, 7, 8, 9, 3, 4] := by
  obtain ⟨cb, hcb, he, -⟩ := rangeInsert_iff (T := (⟨false, id⟩ : ValueType ℕ)) 6
    [.op (.pushBack 1), .op (.pushBack 2), .op (.pushBack 3), .op (.pushBack 4),
      .range .insertForward 2 [5, 6, 7, 8, 9]] (c := 6) (l := [6, 7, 8, 9, 3, 4]) (by
      refine ⟨trivial, fun cb h => ?_⟩
      obtain rfl : ⟨[some 1, none, none, none, none, none], 0, 1, 1⟩ = cb := Except.ok.inj h
      refine ⟨trivial, fun cb h => ?_⟩
      obtain rfl : ⟨[some 1, some 2, none, none, none, none], 0, 2, 2⟩ = cb := Except.ok.inj h
      refine ⟨trivial, fun cb h => ?_⟩
      obtain rfl : ⟨[some 1, some 2, some 3, none, none, none], 0, 3, 3⟩ = cb := Except.ok.inj h
      refine ⟨trivial, fun cb h => ?_⟩
      obtain rfl : ⟨[some 1, some 2, some 3, some 4, none, none], 0, 4, 4⟩ = cb := Except.ok.inj h
      exact ⟨.inr (.inr fun h => absurd h.2 (by decide)), fun _ _ => trivial⟩) (by decide)
  exact ⟨cb, hcb, he⟩

/-- Three elements in the middle of six cells: the two paths of `insert` and of `rinsert` disagree,
for `insert_n` and `rinsert_n` assign to the raw cells before the elements. -/
theorem rangeInsert_disagrees :
    ∃ cb, (ofCapacity 6 : CircularBuffer ℕ).runRanges ⟨false, id⟩
      [.op (.pushBack 1), .op (.pushBack 2), .op (.pushBack 3), .op (.pushBack 4),
        .op (.pushBack 5), .op .popFront, .op .popFront] = .ok cb ∧
      Path.apply ⟨false, id⟩ cb (cb.iterAt 1) [7, 8, 9] .insertForward = .error .assignRaw ∧
      (∃ cb', Path.apply ⟨false, id⟩ cb (cb.iterAt 1) [7, 8, 9] .insertInput = .ok cb' ∧
        cb'.elements = .ok [3, 7, 8, 9, 4, 5]) ∧
      Path.apply ⟨false, id⟩ cb (cb.iterAt 1) [7] .rinsertForward = .error .assignRaw ∧
      ∃ cb', Path.apply ⟨false, id⟩ cb (cb.iterAt 1) [7] .rinsertInput = .ok cb' ∧
        cb'.elements = .ok [3, 7, 4, 5] :=
  ⟨⟨[none, none, some 3, some 4, some 5, none], 2, 5, 3⟩, by decide, by decide,
    ⟨⟨[some 4, some 5, some 3, some 7, some 8, some 9], 2, 2, 6⟩, by decide, by decide⟩, by decide,
    ⟨[none, some 3, some 7, some 4, some 5, none], 1, 5, 4⟩, by decide, by decide⟩

end Runs

end SourceLibs.CircularBuffer
