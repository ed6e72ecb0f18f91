import SourceLibs.CircularBuffer.Refinement

/-!
# CircularBuffer — linearization

`linearize` rotates the cells in place.  `dest` cells are done; what is left is read in three
stretches, from `src` to `m_end`, from `first` to `src`, and from `dest` to `first`.  A turn takes
the head of that reading: the element under `src` goes to `dest`, and what `dest` held takes its
place under `src`, at the end of the second stretch.  A raw `dest` is past the last element, and so
is what a move leaves under `src`.

* `Linearizing.cell`: the cell at an index of what is left.
* `Linearizing.Inv`, `Linearizing.Ahead`: what is done, and what is left.
* `linearizeMove_ok`, `linearizeInner_ok`, `linearizeOuter_ok`: a turn and the two loops.
* `Repr.linearize`, `linearize_exact`: the same list, at the start of the storage.
-/

namespace SourceLibs.CircularBuffer

open RingCells

variable {α : Type} {T : ValueType α} {cb : CircularBuffer α} {l : List α} {st : Linearizing α}

/-- Elements that wrap: some from the start of the storage to `m_last`, the rest from `m_first` to
its end. -/
structure Wrapped (cb : CircularBuffer α) : Prop where
  last_le : cb.last ≤ cb.first
  first_lt : cb.first < cb.capacity
  size_eq : cb.size = cb.last + (cb.capacity - cb.first)

/-- The cell at an index of what is left, read from `src` to `m_end`, from `first` to `src` and from
`dest` to `first`. -/
def Linearizing.cell (n : ℕ) (st : Linearizing α) (j : ℕ) : ℕ :=
  if j < n - st.src then st.src + j
  else if j < n - st.first then st.first + (j - (n - st.src))
  else st.dest + (j - (n - st.first))

/-- The local variables of `linearize`: `dest` cells are done, and those of them that were raw are
counted. -/
structure Linearizing.Inv (T : ValueType α) (cb : CircularBuffer α) (l : List α)
    (st : Linearizing α) : Prop where
  length_eq : st.buff.length = cb.capacity
  moved_eq : st.moved = st.dest
  dest_le : st.dest ≤ cb.size
  constructed_eq : st.constructed = min st.dest cb.first - cb.last
  live : ∀ p < cb.capacity, p < cb.last ∨ cb.first ≤ p ∨ p < st.dest → (view st.buff 0 p).isSome
  raw : T.scalar = false → ∀ p < cb.capacity, ¬ (p < cb.last ∨ cb.first ≤ p ∨ p < st.dest) →
    view st.buff 0 p = none
  done : ∀ p < st.dest, view st.buff 0 p = l[p]?

/-- What is left.  `first` has not moved before the raw cells are filled. -/
structure Linearizing.Ahead (cb : CircularBuffer α) (l : List α) (st : Linearizing α) :
    Prop where
  le_first : cb.first ≤ st.first
  first_lt : st.first < cb.capacity
  dest_le : st.dest ≤ st.first
  le_src : st.first ≤ st.src
  src_le : st.src ≤ cb.capacity
  first_eq : st.dest < cb.first → st.first = cb.first
  left : ∀ j, st.dest + j < cb.size →
    view st.buff 0 (st.cell cb.capacity j) = l[st.dest + j]?

/-- A turn of the inner loop shortens the reading by its head: only what `dest` held is found in
another cell. -/
theorem Linearizing.cell_succ {n : ℕ} (st' : Linearizing α) (hfirst : st.first ≤ st.src)
    (hsrc : st.src < n) (hdest : st.dest < st.first) (hf : st'.first = st.first)
    (hs : st'.src = st.src + 1) (hd : st'.dest = st.dest + 1) {j : ℕ} (hj : j + 1 < n - st.dest) :
    st'.cell n j = st.cell n (j + 1) ∧ st.cell n (j + 1) ≠ st.src ∧
        st.cell n (j + 1) ≠ st.dest ∨
      st'.cell n j = st.src ∧ st.cell n (j + 1) = st.dest ∧ j + 1 = n - st.first := by
  unfold cell
  rw [hf, hs, hd]
  split
  · rw [if_pos (by omega)]
    omega
  · rw [if_neg (by omega : ¬ j + 1 < n - st.src)]
    split
    · by_cases he : j + 1 = n - st.first
      · rw [if_neg (by omega)]
        omega
      · rw [if_pos (by omega)]
        omega
    · rw [if_neg (by omega)]
      omega

theorem Linearizing.cell_lt {n : ℕ} (hfirst : st.first ≤ st.src) (hsrc : st.src ≤ n) {j : ℕ}
    (hj : j < n - st.dest) :
    st.cell n j < n := by
  unfold cell
  split
  · omega
  · split <;> omega

/-- **One element moved**, or the two swapped. -/
theorem linearizeMove_spec (cb : CircularBuffer α) {n : ℕ} {v : α} (hlen : st.buff.length = n)
    (hsrc : st.src < n) (hlt : st.dest < st.src) (hv : view st.buff 0 st.src = some v)
    (hraw : cb.isUninitialized st.dest = true → T.scalar = true ∨ view st.buff 0 st.dest = none)
    (hlive : cb.isUninitialized st.dest = false → (view st.buff 0 st.dest).isSome) :
    ∃ buff w, linearizeMove T cb st = .ok
        { st with
          buff := buff
          constructed := st.constructed + if cb.isUninitialized st.dest then 1 else 0 } ∧
      buff.length = n ∧ w.isSome ∧
      (cb.isUninitialized st.dest = false → w = view st.buff 0 st.dest) ∧
      ∀ p < n, view buff 0 p =
        if p = st.dest then some v else if p = st.src then w else view st.buff 0 p := by
  have hpos : 0 < n := by omega
  have hsl := slot_base hsrc
  have hdl := slot_base (show st.dest < n by omega)
  have htake := take_slot T.moved hlen hpos hv
  rw [hsl] at htake
  have hlen₁ : (st.buff.set st.src (some (T.moved v))).length = n := by simpa using hlen
  have hdest := view_set_base hlen (some (T.moved v)) (show st.dest < n by omega) hsrc
  rw [if_neg (by omega)] at hdest
  unfold linearizeMove
  cases hun : cb.isUninitialized st.dest with
  | true =>
    have hcons := construct_slot (v := v) (T := T) (b := 0) (i := st.dest) hlen₁ hpos
      (by rw [hdest]; exact hraw hun)
    rw [hdl] at hcons
    refine ⟨(st.buff.set st.src (some (T.moved v))).set st.dest (some v), some (T.moved v), ?_,
      by simpa using hlen, rfl, fun h => absurd h (by simp), fun p hp => ?_⟩
    · rw [if_pos rfl, htake, ok_bind]
      dsimp only
      rw [hcons, ok_bind, if_pos rfl]
    · rw [view_set_base hlen₁ _ hp (by omega), view_set_base hlen _ hp hsrc]
  | false =>
    obtain ⟨u, hu⟩ := Option.isSome_iff_exists.mp (hlive hun)
    have htake₁ := take_slot T.moved hlen₁ hpos (hdest.trans hu)
    rw [hdl] at htake₁
    generalize hs₂ : (st.buff.set st.src (some (T.moved v))).set st.dest (some (T.moved u)) = s₂
      at htake₁
    have hlen₂ : s₂.length = n := by simpa [← hs₂] using hlen
    have hview₂ : ∀ p < n, view s₂ 0 p = if p = st.dest then some (T.moved u)
        else if p = st.src then some (T.moved v) else view st.buff 0 p := fun p hp => by
      rw [← hs₂, view_set_base hlen₁ _ hp (by omega), view_set_base hlen _ hp hsrc]
    have hrep := replace_slot (v := u) (T := T) (b := 0) (i := st.src) hlen₂ hpos
      (.inr (by rw [hview₂ _ hsrc, if_neg (by omega), if_pos rfl]; rfl))
    rw [hsl] at hrep
    have hlen₃ : (s₂.set st.src (some u)).length = n := by simpa using hlen₂
    have hrep₁ := replace_slot (v := v) (T := T) (b := 0) (i := st.dest) hlen₃ hpos (.inr (by
      rw [view_set_base hlen₂ _ (by omega) hsrc, if_neg (by omega), hview₂ _ (by omega),
        if_pos rfl]
      rfl))
    rw [hdl] at hrep₁
    refine ⟨(s₂.set st.src (some u)).set st.dest (some v), some u, ?_, by simpa using hlen₂, rfl,
      fun _ => hu.symm, fun p hp => ?_⟩
    · rw [if_neg (by simp), htake, ok_bind]
      dsimp only
      rw [htake₁, ok_bind]
      dsimp only
      rw [hrep, ok_bind, hrep₁, ok_bind]
      rfl
    · rw [view_set_base hlen₃ _ hp (by omega), view_set_base hlen₂ _ hp hsrc, hview₂ p hp]
      by_cases hpd : p = st.dest
      · rw [if_pos hpd, if_pos hpd]
      · rw [if_neg hpd, if_neg hpd, if_neg hpd]
        by_cases hps : p = st.src
        · rw [if_pos hps, if_pos hps]
        · rw [if_neg hps, if_neg hps, if_neg hps]

theorem linearizeMove_ok (hw : cb.Wrapped) (h : st.Inv T cb l) (ha : st.Ahead cb l)
    (hend : st.src < cb.capacity) (hlt : st.dest < st.first) (hmore : st.dest < cb.size) :
    ∃ st', linearizeMove T cb st = .ok st' ∧ st'.src = st.src ∧ st'.dest = st.dest ∧
      st'.first = st.first ∧
      Linearizing.Inv T cb l
        { st' with src := st'.src + 1, dest := st'.dest + 1, moved := st'.moved + 1 } ∧
      Linearizing.Ahead cb l
        { st' with src := st'.src + 1, dest := st'.dest + 1, moved := st'.moved + 1 } := by
  have hwl := hw.last_le
  have hws := hw.size_eq
  have hlen := h.length_eq
  have hcount := h.constructed_eq
  have hle := ha.le_src
  have hlef := ha.le_first
  have hun : cb.isUninitialized st.dest = true ↔ cb.last ≤ st.dest ∧ st.dest < cb.first := by
    simp only [isUninitialized, Bool.and_eq_true, Bool.or_eq_true, decide_eq_true_eq]
    omega
  -- what is read next is the element of index `dest`
  have hhead : st.cell cb.capacity 0 = st.src := by
    rw [Linearizing.cell, if_pos (by omega), Nat.add_zero]
  obtain ⟨v, hv⟩ := Option.isSome_iff_exists.mp (h.live _ hend (.inr (.inl (by omega))))
  have hvl : some v = l[st.dest]? := by
    rw [← hv, ← hhead]
    exact ha.left 0 hmore
  obtain ⟨buff, w, hmove, hlen', hw', hkeep, hview⟩ := linearizeMove_spec (T := T) cb hlen hend
    (by omega) hv
    (fun hc => by
      cases hT : T.scalar with
      | true => exact .inl rfl
      | false =>
        have := hun.mp hc
        exact .inr (h.raw hT _ (by omega) (by omega)))
    (fun hc => h.live _ (by omega) (by
      have := mt hun.mpr (by simp [hc])
      omega))
  refine ⟨_, hmove, rfl, rfl, rfl, ⟨hlen', by rw [h.moved_eq], hmore, ?_, fun p hp hp' => ?_,
    fun hT p hp hp' => ?_, fun p hp => ?_⟩, ⟨hlef, ha.first_lt, hlt, by simp only; omega, hend,
    fun hf => ha.first_eq (by simp only at hf; omega), fun j hj => ?_⟩⟩
  · show st.constructed + (if cb.isUninitialized st.dest then 1 else 0) =
      min (st.dest + 1) cb.first - cb.last
    split
    · rename_i hc
      have := hun.mp hc
      omega
    · rename_i hc
      have := mt hun.mpr hc
      omega
  · show (view buff 0 p).isSome
    rw [hview p hp]
    split
    · rfl
    · split
      · exact hw'
      · exact h.live p hp (by simp only at hp'; omega)
  · show view buff 0 p = none
    simp only at hp'
    rw [hview p hp, if_neg (by omega), if_neg (by omega)]
    exact h.raw hT p hp (by omega)
  · show view buff 0 p = l[p]?
    simp only at hp
    rw [hview p (by omega)]
    by_cases hpd : p = st.dest
    · rw [if_pos hpd, hvl, hpd]
    · rw [if_neg hpd, if_neg (by omega)]
      exact h.done p (by omega)
  · simp only at hj
    show view buff 0 _ = l[st.dest + 1 + j]?
    have hj' : j + 1 < cb.capacity - st.dest := by omega
    have hlt' := Linearizing.cell_lt hle hend.le hj'
    rw [Nat.add_right_comm, Nat.add_assoc, ← ha.left (j + 1) (by omega)]
    rcases Linearizing.cell_succ { st with
        src := st.src + 1
        dest := st.dest + 1 } hle hend hlt rfl rfl rfl hj' with ⟨he, hs, hd⟩ | ⟨he, hd, hj₁⟩
    · exact (congrArg (view buff 0) he).trans (by rw [hview _ hlt', if_neg hd, if_neg hs])
    · -- the element `dest` held is under `src` now: a raw `dest` is past the elements
      have hraw : cb.isUninitialized st.dest = false := Bool.eq_false_iff.mpr fun hc => by
        have := hun.mp hc
        have := ha.first_eq (by omega)
        omega
      refine (congrArg (view buff 0) he).trans ?_
      rw [hview _ hend, if_neg (by omega), if_pos rfl, hkeep hraw, hd]

/-- The reading starts over at `first` when `src` meets `m_end`. -/
theorem Linearizing.Ahead.restart (ha : st.Ahead cb l) (hsrc : st.src = cb.capacity) :
    Linearizing.Ahead cb l { st with src := st.first } := by
  refine ⟨ha.le_first, ha.first_lt, ha.dest_le, le_rfl, ha.first_lt.le, ha.first_eq, fun j hj => ?_⟩
  have hcell : Linearizing.cell cb.capacity { st with src := st.first } j =
      st.cell cb.capacity j := by
    unfold Linearizing.cell
    simp only [hsrc, Nat.sub_self, Nat.not_lt_zero, if_false, Nat.sub_zero]
    split <;> simp [*]
  exact (congrArg (view st.buff 0) hcell).trans (ha.left j hj)

/-- The reading starts over at `src` when `dest` meets `first`. -/
theorem Linearizing.Ahead.rebase (ha : st.Ahead cb l) (hsize : cb.size ≤ cb.capacity)
    (hmeet : st.dest = st.first) (hsrc : st.src < cb.capacity) :
    Linearizing.Ahead cb l { st with first := st.src } := by
  have hle := ha.le_src
  have hlef := ha.le_first
  refine ⟨hlef.trans hle, hsrc, by simp only; omega, le_rfl, hsrc.le, fun hf => ?_, fun j hj => ?_⟩
  · simp only at hf
    omega
  · have hcell : Linearizing.cell cb.capacity { st with first := st.src } j =
        st.cell cb.capacity j := by
      simp only at hj
      simp only [Linearizing.cell, hmeet]
      split
      · rfl
      · rw [if_pos (by omega)]
    exact (congrArg (view st.buff 0) hcell).trans (ha.left j hj)

/-- The inner loop.  It ends with everything moved, or with a reading that starts at `first`. -/
theorem linearizeInner_ok (hw : cb.Wrapped) (fuel ii : ℕ) (h : st.Inv T cb l) (ha : st.Ahead cb l)
    (hii : st.src = st.first + ii) (hfuel : cb.capacity - st.src < fuel) :
    ∃ st', linearizeInner T cb fuel ii st = .ok st' ∧ st'.Inv T cb l ∧ st.dest ≤ st'.dest ∧
      (st'.dest = cb.size ∧ st'.first = st'.dest ∨
        Linearizing.Ahead cb l { st' with src := st'.first } ∧
          (ii = 0 → st.dest < st.first → st.dest < st'.dest)) := by
  have hwl := hw.last_le
  have hws := hw.size_eq
  have hwf := hw.first_lt
  induction fuel generalizing ii st with
  | zero => omega
  | succ fuel ih =>
    have hfirst := ha.first_lt
    have hdest := ha.dest_le
    rw [linearizeInner]
    by_cases hin : st.src < cb.capacity
    · rw [if_pos hin]
      have hmoved := h.moved_eq
      have hle := h.dest_le
      by_cases hall : st.moved = cb.size
      · rw [if_pos hall]
        exact ⟨_, rfl, ⟨h.length_eq, h.moved_eq, h.dest_le, h.constructed_eq, h.live, h.raw,
          h.done⟩, le_rfl, .inl ⟨hmoved ▸ hall, rfl⟩⟩
      rw [if_neg hall]
      by_cases hmeet : st.dest = st.first
      · rw [if_pos hmeet]
        refine ⟨_, rfl, ⟨h.length_eq, h.moved_eq, h.dest_le, h.constructed_eq, h.live, h.raw,
          h.done⟩, le_rfl, .inr ⟨?_, fun _ hlt => by omega⟩⟩
        have hr := ha.rebase (by omega) hmeet hin
        rw [hii] at hr
        exact ⟨hr.le_first, hr.first_lt, hr.dest_le, le_rfl, hr.first_lt.le, hr.first_eq, hr.left⟩
      rw [if_neg hmeet]
      obtain ⟨st₁, hst₁, hsrc₁, hdest₁, hfirst₁, hinv, hahead⟩ :=
        linearizeMove_ok hw h ha hin (by omega) (by omega)
      obtain ⟨st', hst', hinv', hmono, hout⟩ := ih (ii + 1) hinv hahead
        (by simp only; omega) (by simp only; omega)
      simp only at hmono
      rw [hst₁, ok_bind]
      exact ⟨st', hst', hinv', by omega, hout.imp_right fun ⟨h₁, _⟩ => ⟨h₁, fun _ _ => by omega⟩⟩
    · rw [if_neg hin]
      have hend := ha.src_le
      exact ⟨st, rfl, h, le_rfl, .inr ⟨ha.restart (by omega), fun h0 _ => by omega⟩⟩

theorem linearizeOuter_ok (hw : cb.Wrapped) (fuel : ℕ) (h : st.Inv T cb l) (ha : st.Ahead cb l)
    (hsrc : st.src = st.first) (hfuel : cb.size - st.dest + 1 < fuel) :
    ∃ st', linearizeOuter T cb fuel st = .ok st' ∧ st'.Inv T cb l ∧
      (∀ p < cb.size, view st'.buff 0 p = l[p]?) ∧ (st'.dest = cb.size ∨ cb.first ≤ st'.dest) := by
  have hwl := hw.last_le
  have hws := hw.size_eq
  have hwf := hw.first_lt
  induction fuel generalizing st with
  | zero => omega
  | succ fuel ih =>
    have hlef := ha.le_first
    have hdest := ha.dest_le
    have hle := h.dest_le
    rw [linearizeOuter]
    by_cases hin : st.dest < st.src
    · rw [if_pos hin]
      obtain ⟨st₁, hst₁, hinv, hmono, hout⟩ := linearizeInner_ok hw (cb.capacity + 1) 0 h ha
        (by omega) (by omega)
      rw [hst₁, ok_bind]
      have hinv' : Linearizing.Inv T cb l { st₁ with src := st₁.first } :=
        ⟨hinv.length_eq, hinv.moved_eq, hinv.dest_le, hinv.constructed_eq, hinv.live, hinv.raw,
          hinv.done⟩
      have hle' := hinv.dest_le
      rcases hout with ⟨hall, hmeet⟩ | ⟨hahead, hprog⟩
      · obtain ⟨fuel, rfl⟩ := Nat.exists_eq_add_one_of_ne_zero (by omega : fuel ≠ 0)
        rw [linearizeOuter, if_neg (by simp only; omega)]
        exact ⟨_, rfl, hinv', fun p hp => hinv'.done p (by simp only; omega), .inl hall⟩
      · have hlt := hprog rfl (by omega)
        exact ih hinv' hahead rfl (by simp only; omega)
    · -- `dest` has met the reading, whose elements are in place
      rw [if_neg hin]
      refine ⟨st, rfl, h, fun p hp => ?_, .inr (by omega)⟩
      rcases Nat.lt_or_ge p st.dest with hlt | hge
      · exact h.done p hlt
      · have hleft := ha.left (p - st.dest) (by omega)
        rw [Linearizing.cell, if_pos (by omega), show st.src = st.dest by omega,
          Nat.add_sub_cancel' hge] at hleft
        exact hleft

theorem destroyCells_ok {s : List (Option α)} {n : ℕ} (k src : ℕ) (hlen : s.length = n)
    (hle : src + k ≤ n) (hlive : ∀ p, src ≤ p → p < src + k → (view s 0 p).isSome) :
    ∃ s', destroyCells T k s src = .ok s' ∧ s'.length = n ∧ ∀ p < n, view s' 0 p =
      if (src ≤ p ∧ p < src + k) ∧ T.scalar = false then none else view s 0 p := by
  induction k generalizing s src with
  | zero =>
    refine ⟨s, rfl, hlen, fun p _ => ?_⟩
    rw [if_neg (by omega)]
  | succ k ih =>
    have hsl := slot_base (show src < n by omega)
    have hd := destroyItem_slot (T := T) (b := 0) (i := src) hlen (by omega)
      (.inr (hlive src le_rfl (by omega)))
    rw [hsl] at hd
    have hview : ∀ p < n, view (wipe T s src) 0 p =
        if p = src ∧ T.scalar = false then none else view s 0 p := fun p hp => by
      have hv := view_wipe T hlen 0 (i := p) (j := src) (by omega) (by omega)
      rwa [hsl] at hv
    obtain ⟨s', hs', hlen', hl'⟩ := ih (s := wipe T s src) (src + 1) (by simpa using hlen)
      (by omega) (fun p h₁ h₂ => by
        rw [hview p (by omega), if_neg (by omega)]
        exact hlive p (by omega) (by omega))
    refine ⟨s', ?_, hlen', fun p hp => ?_⟩
    · rw [destroyCells, hd, ok_bind]
      exact hs'
    · rw [hl' p hp, hview p hp]
      by_cases hT : T.scalar = false
      · simp only [hT, and_true]
        split
        · rw [if_pos (by omega)]
        · split
          · rw [if_pos (by omega)]
          · rw [if_neg (by omega)]
      · simp only [hT, and_false, if_false, Bool.true_eq_false]

/-- The local variables before the loops. -/
def Linearizing.start (cb : CircularBuffer α) : Linearizing α :=
  { buff := cb.buff, src := cb.first, dest := 0, moved := 0, constructed := 0, first := cb.first }

theorem Repr.wrapped_cells (h : cb.Repr T l) (hw : cb.Wrapped) {p : ℕ} (hp : p < cb.capacity) :
    ∃ i < cb.capacity, view cb.buff 0 p = view cb.buff cb.first i ∧
      (i < l.length ↔ p < cb.last ∨ cb.first ≤ p) := by
  have hsize := h.size_eq
  have hf := hw.first_lt
  have hwl := hw.last_le
  have hws := hw.size_eq
  obtain ⟨i, hi, rfl⟩ := exists_slot hf hp
  have := slot_cases hf hi.le
  exact ⟨i, hi, view_base_slot cb.length_buff (by omega) _ _, by omega⟩

theorem Repr.linearizing_inv (h : cb.Repr T l) (hw : cb.Wrapped) :
    (Linearizing.start cb).Inv T cb l := by
  refine ⟨rfl, rfl, Nat.zero_le _, ?_, fun p hp hp' => ?_, fun hT p hp hp' => ?_,
    fun p hp => absurd hp (Nat.not_lt_zero p)⟩
  · simp [Linearizing.start]
  · obtain ⟨i, -, hv, hil⟩ := h.wrapped_cells hw hp
    simp only [Linearizing.start] at hp' ⊢
    rw [hv]
    exact h.view_isSome (hil.mpr (by omega))
  · obtain ⟨i, hi, hv, hil⟩ := h.wrapped_cells hw hp
    simp only [Linearizing.start] at hp' ⊢
    rw [hv, h.cells i hi (by simp [hT])]
    exact List.getElem?_eq_none (by omega)

theorem Repr.linearizing_ahead (h : cb.Repr T l) (hw : cb.Wrapped) :
    (Linearizing.start cb).Ahead cb l := by
  obtain ⟨hle, hsize⟩ := h.sizes
  have hf := hw.first_lt
  refine ⟨le_rfl, hf, Nat.zero_le _, le_rfl, hf.le, fun _ => rfl, fun j hj => ?_⟩
  simp only [Linearizing.start, Nat.zero_add] at hj ⊢
  have hslot : (Linearizing.start cb).cell cb.capacity j = slot cb.capacity cb.first j := by
    have := slot_cases hf (show j ≤ cb.capacity by omega)
    unfold Linearizing.cell Linearizing.start
    simp only
    split <;> omega
  have hv := view_base_slot cb.length_buff (by omega) cb.first j
  rw [← hslot, h.cells j (by omega) fun _ => by omega] at hv
  exact hv

/-- **`linearize`** of elements that wrap leaves the list at the start of the storage. -/
theorem Repr.linearize_wrapped (h : cb.Repr T l) (hw : cb.Wrapped) (h0 : cb.size ≠ 0)
    (hlin : ¬ (cb.first < cb.last ∨ cb.last = 0)) :
    ∃ cb', cb.linearize T = .ok cb' ∧ cb'.capacity = cb.capacity ∧ cb'.first = 0 ∧
      cb'.Repr T l := by
  obtain ⟨hle, hsize⟩ := h.sizes
  have hwl := hw.last_le
  have hws := hw.size_eq
  have hf := hw.first_lt
  have hpos : 0 < cb.capacity := by omega
  unfold CircularBuffer.linearize
  rw [if_neg (mt empty_iff.mp h0), if_neg hlin]
  obtain ⟨st, hst, hinv, hdone, hend⟩ := linearizeOuter_ok hw (cb.capacity + 2)
    (h.linearizing_inv hw) (h.linearizing_ahead hw) rfl (by simp only [Linearizing.start]; omega)
  rw [Linearizing.start] at hst
  rw [hst, ok_bind]
  have hcount := hinv.constructed_eq
  have hdle := hinv.dest_le
  obtain ⟨s, hs, hlen, hview⟩ := destroyCells_ok (T := T) st.constructed
    (cb.capacity - st.constructed) hinv.length_eq (by omega)
    (fun p h₁ h₂ => hinv.live p (by omega) (by omega))
  rw [hs, ok_bind]
  refine ⟨_, rfl, hlen, rfl, Repr.of_view (o := 0) hpos hlen (slot_zero hpos).symm ?_ hsize
    (by omega) fun i hi hsc => ?_⟩
  · show add cb.capacity 0 cb.size = _
    rw [add_eq_slot hpos hle, Nat.zero_add, hsize]
  · show view s 0 (0 + i) = l[i]?
    rw [Nat.zero_add, hview i hi]
    rcases Nat.lt_or_ge i l.length with hlt | hge
    · rw [if_neg (by omega), hdone i (by omega)]
    · -- past the elements a cell is raw still, or destroyed
      have hT : T.scalar = false := Bool.eq_false_iff.mpr fun hT => by
        have := hsc hT
        omega
      rw [List.getElem?_eq_none hge]
      split
      · rfl
      · rename_i hkept
        have hkept : ¬ (cb.capacity - st.constructed ≤ i ∧
            i < cb.capacity - st.constructed + st.constructed) := fun hc => hkept ⟨hc, hT⟩
        exact hinv.raw hT i hi (by omega)

/-! ### The pointer returned -/

theorem Repr.wrapped (h : cb.Repr T l) (h0 : cb.size ≠ 0)
    (hlin : ¬ (cb.first < cb.last ∨ cb.last = 0)) : cb.Wrapped := by
  have hle := h.size_le
  have hf := h.first_lt_of_pos (by omega)
  have hend := slot_cases hf hle
  rw [← h.last_eq] at hend
  exact ⟨by omega, hf, by omega⟩

/-- **`linearize`** of any buffer keeps the list, the size and the capacity. -/
theorem Repr.linearize (h : cb.Repr T l) :
    ∃ cb', cb.linearize T = .ok cb' ∧ cb'.capacity = cb.capacity ∧ cb'.Repr T l := by
  by_cases h0 : cb.size = 0
  · exact ⟨cb, by rw [CircularBuffer.linearize, if_pos (empty_iff.mpr h0)], rfl, h⟩
  · by_cases hlin : cb.first < cb.last ∨ cb.last = 0
    · exact ⟨cb, by rw [CircularBuffer.linearize, if_neg (mt empty_iff.mp h0), if_pos hlin], rfl, h⟩
    · obtain ⟨cb', hcb', hcap, -, hr⟩ := h.linearize_wrapped (h.wrapped h0 hlin) h0 hlin
      exact ⟨cb', hcb', hcap, hr⟩

theorem Repr.cells_linear (h : cb.Repr T l) (hle : cb.first + cb.size ≤ cb.capacity) {i : ℕ}
    (hi : i < cb.size) : cb.buff[cb.first + i]? = some l[i]? := by
  have hslot : slot cb.capacity cb.first i = cb.first + i := slot_of_lt (by omega)
  rw [← h.cells i (by omega) fun _ => h.size_eq ▸ hi, ← hslot]
  exact getElem?_slot cb.length_buff (by omega)

/-- **The array `linearize` returns.**  There is none for an empty buffer, which stays as it is; the
array of elements that do not wrap is at `m_first`, and they stay as they are; else it is at
`m_buff`, and so is `m_first`. -/
theorem linearize_exact (h : cb.Repr T l) :
    ∃ cb' p, cb.linearizeArray T = .ok (cb', p) ∧ cb'.Repr T l ∧ cb'.elements = .ok l ∧
      cb'.capacity = cb.capacity ∧ cb'.size = cb.size ∧
      (cb.size = 0 → p = none ∧ cb' = cb) ∧
      (0 < cb.size → cb.first + cb.size ≤ cb.capacity → p = some cb.first ∧ cb' = cb) ∧
      (cb.capacity < cb.first + cb.size → p = some 0 ∧ cb'.first = 0 ∧
        cb'.last = if cb.size = cb.capacity then 0 else cb.size) ∧
      ∀ q, p = some q → q = cb'.first ∧ ∀ i < cb.size, cb'.buff[q + i]? = some l[i]? := by
  have hle := h.size_le
  unfold linearizeArray
  by_cases h0 : cb.size = 0
  · have he := empty_iff.mpr h0
    have hf := h.first_lt
    rw [CircularBuffer.linearize, if_pos he, ok_bind, if_pos he]
    exact ⟨cb, none, rfl, h, h.elements, rfl, rfl, fun _ => ⟨rfl, rfl⟩, fun hc => by omega,
      fun hc => by omega, fun q hq => nomatch hq⟩
  · have he := mt empty_iff.mp h0
    have hf := h.first_lt_of_pos (by omega)
    have hend := slot_cases hf hle
    rw [← h.last_eq] at hend
    rw [if_neg he]
    by_cases hlin : cb.first < cb.last ∨ cb.last = 0
    · rw [CircularBuffer.linearize, if_neg he, if_pos hlin, ok_bind, if_pos hlin]
      refine ⟨cb, some cb.first, rfl, h, h.elements, rfl, rfl, fun hc => absurd hc h0,
        fun _ _ => ⟨rfl, rfl⟩, fun hc => by omega, fun q hq => ?_⟩
      cases hq
      exact ⟨rfl, fun i hi => h.cells_linear (by omega) hi⟩
    · obtain ⟨cb', hcb', hcap, hfirst, hr⟩ := h.linearize_wrapped (h.wrapped h0 hlin) h0 hlin
      have hsize : cb'.size = cb.size := hr.size_eq.trans h.size_eq.symm
      rw [hcb', ok_bind, if_neg hlin]
      refine ⟨cb', some 0, rfl, hr, hr.elements, hcap, hsize, fun hc => absurd hc h0,
        fun _ hc => by omega, fun _ => ⟨rfl, hfirst, ?_⟩, fun q hq => ?_⟩
      · rw [hr.last_eq, hfirst, hsize, hcap]
        split
        · rename_i hfull
          rw [hfull, slot_self, slot_base (by omega)]
        · exact slot_base (by omega)
      · cases hq
        refine ⟨hfirst.symm, fun i hi => ?_⟩
        rw [← hfirst]
        exact hr.cells_linear (by omega) (by omega)

/-- Three elements that wrap around two raw cells. -/
theorem linearize_exact_wrapped :
    ∃ cb', (⟨[some 4, none, none, some 2, some 3], 3, 1, 3⟩ : CircularBuffer ℕ).linearizeArray
        ⟨false, fun _ => 0⟩ = .ok (cb', some 0) ∧ cb'.elements = .ok [2, 3, 4] := by
  have hr : Repr ⟨false, fun _ => 0⟩ ⟨[some 4, none, none, some 2, some 3], 3, 1, 3⟩ [2, 3, 4] :=
    ⟨⟨by decide, by decide, by decide⟩, rfl, by decide⟩
  obtain ⟨cb', p, hcb', -, he, -, -, -, -, hp, -⟩ := linearize_exact hr
  obtain ⟨rfl, -⟩ := hp (by decide)
  exact ⟨cb', hcb', he⟩

/-- Not every array is at `m_buff` or `m_first`: an empty buffer has none; and elements that do not
wrap stay where they are, past a raw cell. -/
theorem linearize_exact_not_moved :
    (ofCapacity 2 : CircularBuffer ℕ).linearizeArray ⟨false, id⟩ = .ok (ofCapacity 2, none) ∧
      (⟨[none, some 1], 1, 0, 1⟩ : CircularBuffer ℕ).linearizeArray ⟨false, id⟩ =
        .ok (⟨[none, some 1], 1, 0, 1⟩, some 1) := by
  decide

end SourceLibs.CircularBuffer
