import SourceLibs.CircularBuffer.Linearize

/-!
# CircularBuffer — which cells hold an element

`insert_n`, `rinsert_n` and `linearize` ask `is_uninitialized` whether to construct a cell or to
assign to it.  The answer is read off `m_first` and `m_last`, and it is wrong about the cells before
`m_first` when the elements do not wrap.

* `Disciplined`: exactly the `size()` cells from `m_first` on hold an element.
* `isUninitialized_slot`: what the answer says of the cell at a distance.
* `forward_flags`, `backward_flags`, `fill_flags`: a loop that returns was right at every cell.
* `insertN_iff`, `rinsertN_iff`: when the two insertions are right.
* `Disciplined.linearize`: `linearize` always is.
* `Disciplined.run`: what a run keeps.
-/

namespace SourceLibs.CircularBuffer
open List

open RingCells

variable {α : Type} {T : ValueType α} {cb : CircularBuffer α} {l : List α} {k n : ℕ}

/-- Exactly the `size()` cells from `m_first` on hold an element. -/
structure Disciplined (cb : CircularBuffer α) : Prop extends Layout cb where
  live_iff : ∀ i < cb.capacity, (view cb.buff cb.first i).isSome ↔ i < cb.size

theorem Repr.disciplined (h : cb.Repr T l) (hT : T.scalar = false) : cb.Disciplined := by
  refine ⟨h.toLayout, fun i hi => ?_⟩
  rw [h.cells i hi (by simp [hT]), h.size_eq]
  simp

theorem Disciplined.repr (h : cb.Disciplined) (T : ValueType α) : ∃ l, cb.Repr T l := by
  have hle := h.size_le
  refine ⟨ofFn fun i : Fin cb.size =>
    (view cb.buff cb.first i).get ((h.live_iff i (by omega)).mpr i.isLt), h.toLayout, by simp,
    fun i hi _ => ?_⟩
  rw [List.getElem?_ofFn]
  split
  · simp
  · rename_i hlt
    exact Option.not_isSome_iff_eq_none.mp fun hs => hlt ((h.live_iff i hi).mp hs)

/-! ### The answer of `is_uninitialized` -/

/-- It finds the cells past the elements, less those that wrap while the elements do not. -/
theorem Layout.isUninitialized_slot (h : cb.Layout) (h0 : 0 < cb.size) {i : ℕ}
    (hi : i < cb.capacity) :
    cb.isUninitialized (slot cb.capacity cb.first i) = true ↔
      cb.size ≤ i ∧ ¬ (cb.first < cb.last ∧ cb.capacity ≤ cb.first + i) := by
  have hle := h.size_le
  have hf := h.first_lt_of_pos (by omega)
  have hslot := slot_cases hf hi.le
  have hend := slot_cases hf hle
  rw [← h.last_eq] at hend
  simp only [isUninitialized, Bool.and_eq_true, Bool.or_eq_true, decide_eq_true_eq]
  rcases hslot with ⟨_, hs⟩ | ⟨_, hs⟩
  · rw [hs]
    rcases hend with ⟨_, he⟩ | ⟨_, he⟩ <;> omega
  · rw [hs]
    rcases hend with ⟨_, he⟩ | ⟨_, he⟩ <;> omega

/-! ### Loops that return -/

section Flags
variable {s : List (Option α)} {b : ℕ}

theorem constructOrReplace_flag (hT : T.scalar = false) {n i : ℕ} {v : α} {c : Bool}
    {s' : List (Option α)} (hs : s.length = n) (hn : 0 < n)
    (h : constructOrReplace T c s (slot n b i) v = .ok s') : c = (view s b i).isNone := by
  by_contra hne
  obtain ⟨e, he⟩ := constructOrReplace_slot_error (v := v) hs hn hT hne
  rw [he] at h
  cases h

theorem forward_flags (hT : T.scalar = false) (leave : α → α) (cons : Bool → ℕ → Bool) {n d : ℕ}
    (hd : 0 < d) (m t : ℕ) (c : Bool) (fuel : ℕ) (hlen : s.length = n) (hn : d + m ≤ n)
    (hx : ∀ i, t + d ≤ i → i < t + d + m → (view s b i).isSome) {r : List (Option α) × ℕ}
    (hr : forward T leave cons (slot n b (t + d + m)) fuel c s (slot n b (t + d)) (slot n b t) =
      .ok r) :
    ∀ i, t ≤ i → i < t + m → cons (c && i = t) (slot n b i) = (view s b i).isNone := by
  induction m generalizing t c fuel s with
  | zero =>
    intro i h₁ h₂
    omega
  | succ m ih =>
    have hpos : 0 < n := by omega
    have hne : ¬ slot n b (t + d) = slot n b (t + d + (m + 1)) := fun h =>
      absurd ((slot_eq_iff_of_le (by omega) (by omega)).mp h) (by omega)
    cases fuel with
    | zero => cases hr
    | succ fuel =>
      obtain ⟨v, hv⟩ := Option.isSome_iff_exists.mp (hx (t + d) le_rfl (by omega))
      rw [forward, if_neg hne, take_slot leave hlen hpos hv, ok_bind] at hr
      obtain ⟨s₁, hs₁, hr⟩ := bind_eq_ok_iff.mp hr
      have hfirst := constructOrReplace_flag hT (by simpa using hlen) hpos hs₁
      have hc : T.scalar = true ∨ cons c (slot n b t) =
          (view (s.set (slot n b (t + d)) (some (leave v))) b t).isNone := .inr hfirst
      rw [constructOrReplace_slot (by simpa using hlen) hpos hc, Except.ok.injEq] at hs₁
      subst hs₁
      rw [view_set hlen _ b (by omega) (by omega), if_neg (by omega)] at hfirst
      have hview := fun k (hk : t ≤ k ∧ k < t + n) => view_transfer (b := b) (t := t) (i := t)
        (j := t + d) hlen v (leave v) (by omega) (by omega) hk
      simp only [length_set, hlen, increment_slot hpos] at hr
      rw [show t + d + 1 = t + 1 + d by omega,
        show t + d + (m + 1) = t + 1 + d + m by omega] at hr
      have hrest := ih (t + 1) false fuel (by simpa using hlen) (by omega) (fun i h₁ h₂ => by
        rw [hview i (by omega), if_neg (by omega), if_neg (by omega)]
        exact hx i (by omega) (by omega)) hr
      intro i h₁ h₂
      rcases Nat.eq_or_lt_of_le h₁ with rfl | hlt
      · simpa using hfirst
      · have hi := hrest i hlt (by omega)
        rw [Bool.false_and, hview i (by omega), if_neg (by omega)] at hi
        rw [decide_eq_false (by omega), Bool.and_false, hi]
        split
        · rename_i he
          rw [he, hv]
          rfl
        · rfl

theorem backward_flags (hT : T.scalar = false) (leave : α → α) (cons : Bool → ℕ → Bool) {n : ℕ}
    (t e m : ℕ) (c : Bool) (fuel : ℕ) (hlen : s.length = n) (hn : e + 1 + m ≤ n)
    (hx : ∀ i, t ≤ i → i < t + m → (view s b i).isSome) {r : List (Option α) × ℕ}
    (hr : backward T leave cons (slot n b t) fuel c s (slot n b (t + m)) (slot n b (t + e + m)) =
      .ok r) :
    ∀ i, t ≤ i → i < t + m →
      cons (c && i + 1 = t + m) (slot n b (i + (e + 1))) = (view s b (i + (e + 1))).isNone := by
  induction m generalizing c fuel s with
  | zero =>
    intro i h₁ h₂
    omega
  | succ m ih =>
    have hpos : 0 < n := by omega
    have hne : ¬ slot n b (t + m + 1) = slot n b t := fun h =>
      absurd ((slot_eq_iff_of_le (by omega) (by omega)).mp h.symm) (by omega)
    cases fuel with
    | zero => cases hr
    | succ fuel =>
      obtain ⟨v, hv⟩ := Option.isSome_iff_exists.mp (hx (t + m) (by omega) (by omega))
      rw [backward, ← Nat.add_assoc, ← Nat.add_assoc, if_neg hne] at hr
      simp only [hlen, decrement_slot hpos, take_slot leave hlen hpos hv, ok_bind] at hr
      obtain ⟨s₁, hs₁, hr⟩ := bind_eq_ok_iff.mp hr
      have hfirst := constructOrReplace_flag hT (by simpa using hlen) hpos hs₁
      have hc : T.scalar = true ∨ cons c (slot n b (t + e + m + 1)) =
          (view (s.set (slot n b (t + m)) (some (leave v))) b (t + e + m + 1)).isNone :=
        .inr hfirst
      rw [constructOrReplace_slot (by simpa using hlen) hpos hc, Except.ok.injEq] at hs₁
      subst hs₁
      rw [view_set hlen _ b (by omega) (by omega), if_neg (by omega)] at hfirst
      have hview := fun k (hk : t ≤ k ∧ k < t + n) => view_transfer (b := b) (t := t)
        (i := t + e + m + 1) (j := t + m) hlen v (leave v) (by omega) (by omega) hk
      simp only [length_set, hlen, decrement_slot hpos] at hr
      have hrest := ih false fuel (by simpa using hlen) (by omega) (fun i h₁ h₂ => by
        rw [hview i (by omega), if_neg (by omega), if_neg (by omega)]
        exact hx i (by omega) (by omega)) hr
      intro i h₁ h₂
      rcases Nat.eq_or_lt_of_le (show i ≤ t + m by omega) with rfl | hlt
      · rw [show t + m + (e + 1) = t + e + m + 1 by omega]
        simpa [Nat.add_assoc] using hfirst
      · have hi := hrest i h₁ (by omega)
        rw [Bool.false_and, hview _ (by omega), if_neg (by omega)] at hi
        rw [decide_eq_false (by omega), Bool.and_false, hi]
        split
        · rename_i he
          rw [he, hv]
          rfl
        · rfl

theorem fill_flags (hT : T.scalar = false) (cons : ℕ → Bool) {n : ℕ} (wrapper : ℕ → α)
    (k ii t : ℕ) (hlen : s.length = n) (hn : k ≤ n) {r : List (Option α) × ℕ}
    (hr : fill T cons wrapper k ii s (slot n b t) = .ok r) :
    ∀ i, t ≤ i → i < t + k → cons (slot n b i) = (view s b i).isNone := by
  induction k generalizing ii t s with
  | zero =>
    intro i h₁ h₂
    omega
  | succ k ih =>
    have hpos : 0 < n := by omega
    rw [fill, Item.get, ok_bind] at hr
    obtain ⟨s₁, hs₁, hr⟩ := bind_eq_ok_iff.mp hr
    have hfirst := constructOrReplace_flag hT hlen hpos hs₁
    rw [constructOrReplace_slot hlen hpos (.inr hfirst), Except.ok.injEq] at hs₁
    subst hs₁
    simp only [length_set, hlen, increment_slot hpos] at hr
    have hrest := ih (ii + 1) (t + 1) (by simpa using hlen) (by omega) hr
    intro i h₁ h₂
    rcases Nat.eq_or_lt_of_le h₁ with rfl | hlt
    · exact hfirst
    · have hi := hrest i hlt (by omega)
      rwa [view_set hlen _ b (by omega) (by omega), if_neg (by omega)] at hi

end Flags

/-! ### Insertion of several elements -/

/-- The answer is right about a cell, unless it lies past elements that do not wrap and does. -/
theorem Disciplined.flag_iff (h : cb.Disciplined) (h0 : 0 < cb.size) {i : ℕ}
    (hi : i < cb.capacity) :
    cb.isUninitialized (slot cb.capacity cb.first i) = (view cb.buff cb.first i).isNone ↔
      ¬ (cb.size ≤ i ∧ cb.first < cb.last ∧ cb.capacity ≤ cb.first + i) := by
  have hflag := h.isUninitialized_slot h0 hi
  have hlive := h.live_iff i hi
  rw [Bool.eq_iff_iff, hflag, Option.isNone_iff_eq_none, ← Option.not_isSome_iff_eq_none, hlive]
  omega

/-- The cells `insert_n` constructs are those it finds raw. -/
def InsertRight (cb : CircularBuffer α) (n : ℕ) : Prop :=
  ¬ (cb.first < cb.last ∧ cb.capacity < cb.last + min cb.reserve n)

theorem Disciplined.insert_flags_iff (h : cb.Disciplined) (hk : k < cb.size)
    (hroom : n + (cb.size - k) ≤ cb.capacity) :
    (∀ i, k ≤ i → i < cb.size + n → cb.isUninitialized (slot cb.capacity cb.first i) =
      (view cb.buff cb.first i).isNone) ↔ cb.InsertRight n := by
  have hle := h.size_le
  have hf := h.first_lt_of_pos (by omega)
  have hend := slot_cases hf hle
  rw [← h.last_eq] at hend
  constructor
  · rintro hall ⟨hlin, hover⟩
    rw [reserve] at hover
    -- the last of the cells found raw
    have hi := hall (min (cb.size + n) cb.capacity - 1) (by omega) (by omega)
    exact (h.flag_iff (by omega) (by omega)).mp hi (by omega)
  · intro hright i h₁ h₂
    rw [InsertRight, reserve] at hright
    rcases Nat.lt_or_ge i cb.capacity with hlt | hge
    · exact (h.flag_iff (by omega) hlt).mpr (by omega)
    · -- a turn later the elements before the position are met
      rw [show i = i - cb.capacity + cb.capacity by omega, slot_add_self,
        view_add_length cb.length_buff]
      exact (h.flag_iff (by omega) (by omega)).mpr (by omega)

theorem Repr.insertN_start (h : cb.Repr T l) {k e : ℕ} (hk : k ≤ l.length)
    (hroom : e + 1 + (l.length - k) ≤ cb.capacity) :
    cb.last = slot cb.capacity cb.first (k + (l.length - k)) ∧
      add cb.capacity cb.last e = slot cb.capacity cb.first (k + e + (l.length - k)) := by
  have hlast : cb.last = slot cb.capacity cb.first (k + (l.length - k)) := by
    rw [h.last_eq, h.size_eq, Nat.add_sub_cancel' hk]
  refine ⟨hlast, ?_⟩
  rw [hlast, add_slot (by omega) (by omega)]
  congr 1
  omega

theorem Repr.insertN_shift (h : cb.Repr T l) {k e : ℕ} (hk : k ≤ l.length)
    (hroom : e + 1 + (l.length - k) ≤ cb.capacity) (v : α)
    (hc : T.scalar = true ∨ ∀ i, k ≤ i → i < k + (l.length - k) →
      cb.isUninitialized (slot cb.capacity cb.first (i + (e + 1))) =
        (view cb.buff cb.first (i + (e + 1))).isNone) :
    ∃ s, backward T id (fun _ dest => cb.isUninitialized dest) (slot cb.capacity cb.first k)
        (cb.capacity + 1) false cb.buff cb.last (add cb.capacity cb.last e) =
          .ok (s, slot cb.capacity cb.first (k + e)) ∧ s.length = cb.capacity ∧
      ∀ i, k ≤ i → i < k + cb.capacity → view s cb.first i =
        if k + e < i ∧ i < l.length + (e + 1) then some (l.getD (i - (e + 1)) v)
        else view cb.buff cb.first i := by
  obtain ⟨hlast, hdest⟩ := h.insertN_start hk hroom
  obtain ⟨s, hs, hlen, hview⟩ := backward_spec (T := T) (b := cb.first) (s := cb.buff) id
    (fun _ dest => cb.isUninitialized dest) (fun i => l.getD i v) k e (l.length - k) false
    (cb.capacity + 1) cb.length_buff (by omega) (by omega)
    (fun i h₁ h₂ => by rw [h.view_eq (by omega), getD_eq_getElem _ _ (by omega)]) hc
  rw [← hdest, ← hlast] at hs
  refine ⟨s, hs, hlen, fun i h₁ h₂ => ?_⟩
  rw [hview i h₁ h₂, Option.map_id_fun, id, ite_self,
    show k + e + 1 + (l.length - k) = l.length + (e + 1) by omega]

/-- **`insert_n`** of scalars, or right about the cells: as if at the position and then cut to the
last ones. -/
theorem Repr.insertN (h : cb.Repr T l) (hk : k < l.length) (hn : 0 < n)
    (hroom : n + (l.length - k) ≤ cb.capacity) (wrapper : ℕ → α)
    (hc : T.scalar = true ∨ cb.InsertRight n) :
    ∃ cb', cb.insertN T (cb.iterAt k) n wrapper = .ok cb' ∧ cb'.capacity = cb.capacity ∧
      cb'.Repr T (keepLast cb.capacity (splice k (items wrapper n) l)) := by
  obtain ⟨hle, hsize⟩ := h.sizes
  have hpos : 0 < cb.capacity := by omega
  have hall : T.scalar = true ∨ ∀ i, k ≤ i → i < cb.size + n →
      cb.isUninitialized (slot cb.capacity cb.first i) = (view cb.buff cb.first i).isNone := by
    cases hT : T.scalar with
    | true => exact .inl rfl
    | false =>
      refine .inr (((h.disciplined hT).insert_flags_iff (by omega) (by omega)).mpr ?_)
      exact hc.resolve_left (by simp [hT])
  obtain ⟨e, rfl⟩ := Nat.exists_eq_add_one_of_ne_zero (by omega : n ≠ 0)
  obtain ⟨s₁, hs₁, hlen₁, hview₁⟩ := h.insertN_shift (e := e) hk.le hroom (wrapper 0)
    (hall.imp_right fun hall i h₁ h₂ => hall _ (by omega) (by omega))
  obtain ⟨s₂, hs₂, hlen₂, hview₂⟩ := fill_spec (T := T) (b := cb.first) (s := s₁)
    cb.isUninitialized wrapper (e + 1) 0 k hlen₁ (by omega) (hall.imp_right fun hall i h₁ h₂ => by
      rw [hall i h₁ (by omega), hview₁ i h₁ (by omega), if_neg (by omega)])
  have hcells : cb.insertNCells T (cb.iterAt k) (e + 1) wrapper = .ok s₂ := by
    unfold insertNCells
    rw [iterAt_of_lt (by omega)]
    dsimp only
    rw [Nat.add_sub_cancel, hs₁]
    simp only [ok_bind]
    rw [hs₂]
    rfl
  have hview : ∀ i, k ≤ i → i < k + cb.capacity → view s₂ cb.first i =
      if i < k + (items wrapper (e + 1)).length then (items wrapper (e + 1))[i - k]?
      else if i < l.length + (items wrapper (e + 1)).length
        then l[i - (items wrapper (e + 1)).length]? else view cb.buff cb.first i := by
    intro i h₁ h₂
    rw [hview₂ i h₁ h₂, length_items]
    by_cases hin : i < k + (e + 1)
    · rw [if_pos hin, if_pos hin, getElem?_items _ (by omega), Nat.zero_add]
    · rw [if_neg hin, if_neg hin, hview₁ i h₁ h₂]
      by_cases hold : i < l.length + (e + 1)
      · rw [if_pos (by omega), if_pos hold, getD_eq_getElem _ _ (by omega),
          List.getElem?_eq_getElem (by omega)]
      · rw [if_neg (by omega), if_neg hold]
  have hrepr := h.of_insert hk.le rfl (by rw [length_items]; omega) hpos hlen₂ hview rfl
  rw [length_items] at hrepr
  rw [CircularBuffer.insertN, hcells, ok_bind, h.insertN_pointers hpos (by omega)]
  exact ⟨_, rfl, hrepr⟩

theorem Repr.insertN_right (h : cb.Repr T l) (hT : T.scalar = false) (hk : k < l.length)
    (hn : 0 < n) (hroom : n + (l.length - k) ≤ cb.capacity) {wrapper : ℕ → α}
    {cb' : CircularBuffer α} (hcb' : cb.insertN T (cb.iterAt k) n wrapper = .ok cb') :
    cb.InsertRight n := by
  obtain ⟨hle, hsize⟩ := h.sizes
  obtain ⟨e, rfl⟩ := Nat.exists_eq_add_one_of_ne_zero (by omega : n ≠ 0)
  obtain ⟨hlast, hdest⟩ := h.insertN_start hk.le hroom
  rw [← (h.disciplined hT).insert_flags_iff (k := k) (by omega) (by omega)]
  obtain ⟨buff, hbuff, -⟩ := bind_eq_ok_iff.mp hcb'
  unfold insertNCells at hbuff
  rw [iterAt_of_lt (by omega)] at hbuff
  dsimp only at hbuff
  rw [Nat.add_sub_cancel] at hbuff
  obtain ⟨⟨s₁, p⟩, hs₁, hbuff⟩ := bind_eq_ok_iff.mp hbuff
  obtain ⟨r, hr, -⟩ := bind_eq_ok_iff.mp hbuff
  have hback := backward_flags hT id (fun _ dest => cb.isUninitialized dest) k e (l.length - k)
    false (cb.capacity + 1) cb.length_buff (by omega) (fun i h₁ h₂ => h.view_isSome (by omega))
    (by rw [← hlast, ← hdest]; exact hs₁)
  obtain ⟨s₂, hs₂, hlen, hview⟩ := h.insertN_shift hk.le hroom (wrapper 0) (.inr hback)
  rw [hs₁] at hs₂
  cases hs₂
  have hfill := fill_flags hT cb.isUninitialized wrapper (e + 1) 0 k hlen (by omega) hr
  intro i h₁ h₂
  rcases Nat.lt_or_ge i (k + (e + 1)) with hlt | hge
  · rw [hfill i h₁ hlt, hview i h₁ (by omega), if_neg (by omega)]
  · have hi := hback (i - (e + 1)) (by omega) (by omega)
    rwa [Nat.sub_add_cancel (by omega)] at hi

/-- **`insert_n`** returns exactly when it is right about the cells, and then leaves them
disciplined. -/
theorem Disciplined.insertN_iff (h : cb.Disciplined) (hT : T.scalar = false) (hk : k < cb.size)
    (hn : 0 < n) (hroom : n + (cb.size - k) ≤ cb.capacity) (wrapper : ℕ → α) :
    (∃ cb', cb.insertN T (cb.iterAt k) n wrapper = .ok cb' ∧ cb'.Disciplined) ↔
      cb.InsertRight n := by
  have hle := h.size_le
  obtain ⟨l, hl⟩ := h.repr T
  have hsize := hl.size_eq
  constructor
  · rintro ⟨cb', hcb', -⟩
    exact hl.insertN_right (k := k) hT (by omega) hn (by omega) hcb'
  · intro hright
    obtain ⟨cb', hcb', -, hr⟩ := hl.insertN (k := k) (by omega) hn (by omega) wrapper (.inr hright)
    exact ⟨cb', hcb', hr.disciplined hT⟩

/-- The cells `rinsert_n` constructs before the first element are those it finds raw. -/
def RinsertRight (cb : CircularBuffer α) (pos n : ℕ) : Prop :=
  ¬ (0 < pos ∧ 0 < n ∧ 0 < cb.first ∧ cb.first < cb.last)

theorem Disciplined.rinsert_flags_iff (h : cb.Disciplined) (hk : k ≤ cb.size) (h0 : 0 < k)
    (hn : 0 < n) (hroom : n + k ≤ cb.capacity) :
    (∀ i < k + n, cb.isUninitialized (slot cb.capacity (sub cb.capacity cb.first n) i) =
      (view cb.buff (sub cb.capacity cb.first n) i).isNone) ↔ cb.RinsertRight k n := by
  have hle := h.size_le
  have hpos : 0 < cb.capacity := by omega
  have hf := h.first_lt_of_pos hpos
  have hend := slot_cases hf hle
  rw [← h.last_eq] at hend
  have hslot : ∀ i, slot cb.capacity (sub cb.capacity cb.first n) i =
      slot cb.capacity cb.first (cb.capacity - n + i) := fun i => by
    rw [sub_eq_slot hf (by omega), slot_slot]
  constructor
  · rintro hall ⟨-, -, hfirst, hlin⟩
    -- the cell right before the first element
    have hi := hall (n - 1) (by omega)
    rw [hslot, h.view_sub_first hpos (by omega), h.flag_iff (by omega) (by omega)] at hi
    omega
  · intro hright i hi
    rw [RinsertRight] at hright
    rw [hslot, h.view_sub_first hpos (by omega)]
    rcases Nat.lt_or_ge i n with hlt | hge
    · exact (h.flag_iff (by omega) (by omega)).mpr (by omega)
    · rw [show cb.capacity - n + i = i - n + cb.capacity by omega, slot_add_self,
        view_add_length cb.length_buff]
      exact (h.flag_iff (by omega) (by omega)).mpr (by omega)

theorem Layout.rinsert_copy (h : cb.Layout) {k : ℕ} (hk : k ≤ cb.size) :
    ((cb.capacity : ℤ) - cb.diff (cb.iterAt k) cb.begin).toNat = cb.capacity - k := by
  have hle := h.size_le
  rw [h.begin_eq, h.diff_iterAt hk (Nat.zero_le _)]
  omega

section RinsertCells
variable {k n : ℕ}

theorem Repr.rinsertNCells_eq (h : cb.Repr T l) (hk : k ≤ l.length) (h0 : 0 < k)
    (hroom : n + k ≤ cb.capacity) (wrapper : ℕ → α) :
    cb.rinsertNCells T (cb.iterAt k) n wrapper = (do
      let b := sub cb.capacity cb.first n
      let (buff, dest) ← forward T id (fun _ dest => cb.isUninitialized dest)
        (slot cb.capacity b (0 + n + k)) (cb.capacity + 1) false cb.buff
        (slot cb.capacity b (0 + n)) (slot cb.capacity b 0)
      let (buff, _) ← fill T cb.isUninitialized wrapper n 0 buff dest
      .ok buff) := by
  obtain ⟨hle, hsize⟩ := h.sizes
  have hpos : 0 < cb.capacity := by omega
  unfold CircularBuffer.rinsertNCells
  rw [if_neg fun hc =>
      absurd ((h.iterAt_inj (by omega) (by omega)).mp (hc.trans h.begin_eq)) (by omega),
    h.mapPointer_iterAt (by omega)]
  simp only
  rw [Nat.zero_add, h.slot_sub_first hpos (by omega), slot_zero (h.sub_first_lt hpos (by omega)),
    show slot cb.capacity (sub cb.capacity cb.first n) n = cb.first from
      (h.slot_sub_first hpos (by omega) 0).trans h.slot_first_zero]

/-- The elements before the position, seen from the new first cell. -/
theorem Repr.view_rinsert (h : cb.Repr T l) (hk : k ≤ l.length) (h0 : 0 < k)
    (hroom : n + k ≤ cb.capacity) (v : α) {i : ℕ} (h₁ : 0 + n ≤ i) (h₂ : i < 0 + n + k) :
    view cb.buff (sub cb.capacity cb.first n) i = some (l.getD (i - n) v) := by
  obtain ⟨hle, hsize⟩ := h.sizes
  rw [h.view_sub_first (by omega) (by omega), show cb.capacity - n + i = i - n + cb.capacity by omega,
    view_add_length cb.length_buff, h.view_eq (by omega), getD_eq_getElem _ _ (by omega)]

theorem Repr.rinsertN_shift (h : cb.Repr T l) (hk : k ≤ l.length) (h0 : 0 < k) (hn : 0 < n)
    (hroom : n + k ≤ cb.capacity) (v : α)
    (hc : T.scalar = true ∨ ∀ i, 0 ≤ i → i < 0 + k →
      cb.isUninitialized (slot cb.capacity (sub cb.capacity cb.first n) i) =
        (view cb.buff (sub cb.capacity cb.first n) i).isNone) :
    ∃ s, forward T id (fun _ dest => cb.isUninitialized dest)
        (slot cb.capacity (sub cb.capacity cb.first n) (0 + n + k)) (cb.capacity + 1) false cb.buff
        (slot cb.capacity (sub cb.capacity cb.first n) (0 + n))
        (slot cb.capacity (sub cb.capacity cb.first n) 0) =
          .ok (s, slot cb.capacity (sub cb.capacity cb.first n) (0 + k)) ∧ s.length = cb.capacity ∧
      ∀ i < cb.capacity, view s (sub cb.capacity cb.first n) i =
        if i < k then l[i]? else view cb.buff (sub cb.capacity cb.first n) i := by
  obtain ⟨s, hs, hlen, hview⟩ := forward_spec (T := T) (b := sub cb.capacity cb.first n)
    (s := cb.buff) id (fun _ dest => cb.isUninitialized dest) hn (fun i => l.getD (i - n) v) k 0
    false (cb.capacity + 1) cb.length_buff (by omega) (by omega)
    (fun i h₁ h₂ => h.view_rinsert hk h0 hroom v h₁ h₂) hc
  refine ⟨s, hs, hlen, fun i hi => ?_⟩
  rw [hview i (Nat.zero_le _) (by omega), Option.map_id_fun, id, ite_self, Nat.zero_add]
  split
  · rw [Nat.add_sub_cancel, getD_eq_getElem _ _ (by omega),
      List.getElem?_eq_getElem (by omega)]
  · rfl

/-- The cells of `rinsert_n` behind the first element, where it is right about them. -/
theorem Repr.rinsertNCells (h : cb.Repr T l) (hk : k ≤ l.length) (h0 : 0 < k) (hn : 0 < n)
    (hroom : n + k ≤ cb.capacity) (wrapper : ℕ → α)
    (hc : T.scalar = true ∨ cb.RinsertRight k n) :
    ∃ buff, cb.rinsertNCells T (cb.iterAt k) n wrapper = .ok buff ∧ buff.length = cb.capacity ∧
      ∀ i < cb.capacity, view buff (sub cb.capacity cb.first n) i = if i < k then l[i]?
        else if i < k + n then (items wrapper n)[i - k]?
        else view cb.buff (sub cb.capacity cb.first n) i := by
  have hsize := h.size_eq
  have hall : T.scalar = true ∨ ∀ i < k + n,
      cb.isUninitialized (slot cb.capacity (sub cb.capacity cb.first n) i) =
        (view cb.buff (sub cb.capacity cb.first n) i).isNone := by
    cases hT : T.scalar with
    | true => exact .inl rfl
    | false =>
      refine .inr (((h.disciplined hT).rinsert_flags_iff (by omega) h0 hn hroom).mpr ?_)
      exact hc.resolve_left (by simp [hT])
  obtain ⟨s₁, hs₁, hlen₁, hview₁⟩ := h.rinsertN_shift hk h0 hn hroom (wrapper 0)
    (hall.imp_right fun hall i h₁ h₂ => hall i (by omega))
  obtain ⟨s₂, hs₂, hlen₂, hview₂⟩ := fill_spec (T := T) (b := sub cb.capacity cb.first n) (s := s₁)
    cb.isUninitialized wrapper n 0 (0 + k) hlen₁ (by omega) (hall.imp_right fun hall i h₁ h₂ => by
      rw [hall i (by omega), hview₁ i (by omega), if_neg (by omega)])
  refine ⟨s₂, ?_, hlen₂, fun i hi => ?_⟩
  · rw [h.rinsertNCells_eq hk h0 hroom]
    dsimp only
    rw [hs₁]
    simp only [ok_bind]
    rw [hs₂]
    rfl
  · rcases Nat.lt_or_ge i k with hlt | hge
    · rw [if_pos hlt, ← view_add_length hlen₂, hview₂ _ (by omega) (by omega), if_neg (by omega),
        view_add_length hlen₁, hview₁ i hi, if_pos hlt]
    · rw [if_neg (by omega), hview₂ i (by omega) (by omega)]
      by_cases hin : i < k + n
      · rw [if_pos (by omega), if_pos hin, getElem?_items _ (by omega), Nat.zero_add, Nat.zero_add]
      · rw [if_neg (by omega), if_neg hin, hview₁ i hi, if_neg (by omega)]

theorem Repr.rinsertNCells_right (h : cb.Repr T l) (hT : T.scalar = false) (hk : k ≤ l.length)
    (h0 : 0 < k) (hn : 0 < n) (hroom : n + k ≤ cb.capacity) {wrapper : ℕ → α}
    {buff : List (Option α)} (hbuff : cb.rinsertNCells T (cb.iterAt k) n wrapper = .ok buff) :
    cb.RinsertRight k n := by
  have hsize := h.size_eq
  rw [← (h.disciplined hT).rinsert_flags_iff (by omega) h0 hn hroom]
  rw [h.rinsertNCells_eq hk h0 hroom] at hbuff
  dsimp only at hbuff
  obtain ⟨⟨s₁, p⟩, hs₁, hbuff⟩ := bind_eq_ok_iff.mp hbuff
  obtain ⟨r, hr, -⟩ := bind_eq_ok_iff.mp hbuff
  have hforward := forward_flags hT id (fun _ dest => cb.isUninitialized dest) hn k 0 false
    (cb.capacity + 1) cb.length_buff (by omega)
    (fun i h₁ h₂ => by rw [h.view_rinsert hk h0 hroom (wrapper 0) h₁ h₂]; rfl) hs₁
  obtain ⟨s₂, hs₂, hlen, hview⟩ := h.rinsertN_shift hk h0 hn hroom (wrapper 0) (.inr hforward)
  rw [hs₁] at hs₂
  cases hs₂
  have hfill := fill_flags hT cb.isUninitialized wrapper n 0 (0 + k) hlen (by omega) hr
  intro i hi
  rcases Nat.lt_or_ge i k with hlt | hge
  · exact hforward i (Nat.zero_le _) (by omega)
  · rw [hfill i (by omega) (by omega), hview i (by omega), if_neg (by omega)]

end RinsertCells

theorem RinsertRight.min_iff (hk : k < cb.capacity) :
    cb.RinsertRight k (min n (cb.capacity - k)) ↔ cb.RinsertRight k n := by
  rw [RinsertRight, RinsertRight]
  omega

theorem Repr.rinsertN_eq (h : cb.Repr T l) (hk : k ≤ l.length) (hk' : k < cb.capacity)
    (hn : 0 < n) (wrapper : ℕ → α) :
    cb.rinsertN T (cb.iterAt k) n wrapper = (do
      let n := min n (cb.capacity - k)
      let cons := cb.constructCount n
      let buff ← cb.rinsertNCells T (cb.iterAt k) n wrapper
      .ok { buff := buff, first := sub cb.capacity cb.first n,
            last := sub cb.capacity cb.last (n - cons), size := cb.size + cons }) := by
  have hmin : (if cb.capacity - k < n then cb.capacity - k else n) = min n (cb.capacity - k) := by
    split <;> omega
  unfold CircularBuffer.rinsertN
  dsimp only
  rw [h.rinsert_copy (h.size_eq ▸ hk), if_neg (by omega), if_neg (by omega), hmin]

theorem Repr.of_rinsertN (h : cb.Repr T l) {k m : ℕ} (hk : k ≤ l.length)
    (hroom : m + k ≤ cb.capacity) (hm : 0 < m) {wrapper : ℕ → α} {buff : List (Option α)}
    (hlen : buff.length = cb.capacity)
    (hview : ∀ i < cb.capacity, view buff (sub cb.capacity cb.first m) i = if i < k then l[i]?
      else if i < k + m then (items wrapper m)[i - k]?
      else view cb.buff (sub cb.capacity cb.first m) i) :
    let cb' : CircularBuffer α :=
      { buff := buff, first := sub cb.capacity cb.first m,
        last := sub cb.capacity cb.last (m - cb.constructCount m),
        size := cb.size + cb.constructCount m }
    cb'.capacity = cb.capacity ∧ cb'.Repr T ((splice k (items wrapper m) l).take cb.capacity) := by
  have hpos : 0 < cb.capacity := by omega
  have hstart : slot cb.capacity (sub cb.capacity cb.first m) (items wrapper m).length =
      cb.first := by
    rw [length_items]
    exact (h.slot_sub_first hpos (by omega) 0).trans h.slot_first_zero
  have hrepr := h.of_rinsert hk (h.sub_first_lt (n := m) hpos (by omega)) hstart hlen
    (fun i hi => by rw [hview i hi, length_items]) rfl
  rw [length_items] at hrepr
  dsimp only
  rw [h.rinsertN_pointers hpos (by omega)]
  exact hrepr

/-- **`rinsert_n`** of scalars, or right about the cells: as if before the position and then cut to
the first ones. -/
theorem Repr.rinsertN (h : cb.Repr T l) (hk : k ≤ l.length) (hk' : k < cb.capacity) (hn : 0 < n)
    (wrapper : ℕ → α) (hc : T.scalar = true ∨ cb.RinsertRight k n) :
    ∃ cb', cb.rinsertN T (cb.iterAt k) n wrapper = .ok cb' ∧ cb'.capacity = cb.capacity ∧
      cb'.Repr T ((splice k (items wrapper (min n (cb.capacity - k))) l).take cb.capacity) := by
  rw [h.rinsertN_eq hk hk' hn]
  dsimp only
  rcases Nat.eq_zero_or_pos k with rfl | h0
  · obtain ⟨buff, hbuff, hlen, hview⟩ := h.rinsertNCells_begin (n := min n (cb.capacity - 0))
      (by omega) (by omega) wrapper
    rw [← h.begin_eq, hbuff, ok_bind]
    refine ⟨_, rfl, h.of_rinsertN hk (by omega) (by omega) hlen fun i hi => ?_⟩
    rw [hview i hi, if_neg (Nat.not_lt_zero i)]
    simp only [Nat.zero_add, Nat.sub_zero]
  · obtain ⟨buff, hbuff, hlen, hview⟩ := h.rinsertNCells (n := min n (cb.capacity - k)) hk h0
      (by omega) (by omega) wrapper (hc.imp_right (RinsertRight.min_iff hk').mpr)
    rw [hbuff, ok_bind]
    exact ⟨_, rfl, h.of_rinsertN hk (by omega) (by omega) hlen hview⟩

theorem Repr.rinsertN_right (h : cb.Repr T l) (hT : T.scalar = false) (hk : k ≤ l.length)
    (hk' : k < cb.capacity) {wrapper : ℕ → α} {cb' : CircularBuffer α}
    (hcb' : cb.rinsertN T (cb.iterAt k) n wrapper = .ok cb') : cb.RinsertRight k n := by
  rcases Nat.eq_zero_or_pos n with rfl | hn
  · exact fun hc => absurd hc.2.1 (lt_irrefl 0)
  rcases Nat.eq_zero_or_pos k with rfl | h0
  · exact fun hc => absurd hc.1 (lt_irrefl 0)
  rw [h.rinsertN_eq hk hk' hn] at hcb'
  obtain ⟨buff, hbuff, -⟩ := bind_eq_ok_iff.mp hcb'
  exact (RinsertRight.min_iff hk').mp
    (h.rinsertNCells_right hT hk h0 (by omega) (by omega) hbuff)

/-- **`rinsert_n`** returns exactly when it is right about the cells, and then leaves them
disciplined. -/
theorem Disciplined.rinsertN_iff (h : cb.Disciplined) (hT : T.scalar = false) {k : ℕ}
    (hk : k < cb.size) (n : ℕ) (wrapper : ℕ → α) :
    (∃ cb', cb.rinsertN T (cb.iterAt k) n wrapper = .ok cb' ∧ cb'.Disciplined) ↔
      cb.RinsertRight k n := by
  have hle := h.size_le
  obtain ⟨l, hl⟩ := h.repr T
  have hsize := hl.size_eq
  constructor
  · rintro ⟨cb', hcb', -⟩
    exact hl.rinsertN_right hT (by omega) (by omega) hcb'
  · intro hright
    rcases Nat.eq_zero_or_pos n with rfl | hn
    · exact ⟨cb, if_pos rfl, h⟩
    · obtain ⟨cb', hcb', -, hr⟩ := hl.rinsertN (k := k) (by omega) (by omega) hn wrapper
        (.inr hright)
      exact ⟨cb', hcb', hr.disciplined hT⟩

/-! ### Linearization -/

/-- **`linearize`** always is right about the cells. -/
theorem Disciplined.linearize (h : cb.Disciplined) (hT : T.scalar = false) :
    ∃ cb', cb.linearize T = .ok cb' ∧ cb'.Disciplined := by
  obtain ⟨l, hl⟩ := h.repr T
  obtain ⟨cb', hcb', -, hr⟩ := hl.linearize
  exact ⟨cb', hcb', hr.disciplined hT⟩

/-! ### Runs -/

/-- A call; a position is an index from `begin()`. -/
inductive Step (α : Type) where
  | op (op : Op α)
  | insertN (pos n : ℕ) (wrapper : ℕ → α)
  | rinsertN (pos n : ℕ) (wrapper : ℕ → α)
  | linearize

/-- The code of a call. -/
def Step.apply (T : ValueType α) (cb : CircularBuffer α) : Step α → Except Fault (CircularBuffer α)
  | op o => o.apply T cb
  | insertN pos n wrapper => do
    let it ← cb.plus cb.begin pos
    cb.insertN T it n wrapper
  | rinsertN pos n wrapper => do
    let it ← cb.plus cb.begin pos
    cb.rinsertN T it n wrapper
  | linearize => cb.linearize T

/-- What a call asks of the buffer it finds: that its assertions hold, that `insert_n` is called
with an `n` there is room for behind the position, and that the insertions are right about the
cells. -/
def Step.Meets (cb : CircularBuffer α) : Step α → Prop
  | op o => ∃ l st, cb.elements = .ok l ∧ o.spec (cb.capacity, l) = some st
  | insertN pos n _ => pos < cb.size ∧ 0 < n ∧ n + (cb.size - pos) ≤ cb.capacity ∧ cb.InsertRight n
  | rinsertN pos n _ => pos < cb.size ∧ cb.RinsertRight pos n
  | linearize => True

/-- A run. -/
def runSteps (T : ValueType α) (cb : CircularBuffer α) (steps : List (Step α)) :
    Except Fault (CircularBuffer α) :=
  steps.foldlM (Step.apply T) cb

/-- Every call of a run meets what it asks in the state before it. -/
def MeetsAll (T : ValueType α) : CircularBuffer α → List (Step α) → Prop
  | _, [] => True
  | cb, step :: rest => step.Meets cb ∧ ∀ cb', step.apply T cb = .ok cb' → MeetsAll T cb' rest

theorem Disciplined.step (h : cb.Disciplined) (hT : T.scalar = false) (step : Step α)
    (hm : step.Meets cb) : ∃ cb', step.apply T cb = .ok cb' ∧ cb'.Disciplined := by
  cases step with
  | op o =>
    obtain ⟨l, st, hl, hs⟩ := hm
    obtain ⟨l', hl'⟩ := h.repr T
    rw [hl'.elements, Except.ok.injEq] at hl
    subst hl
    obtain ⟨cb', hcb', -, hr⟩ := o.apply_refines hl' hs
    exact ⟨cb', hcb', hr.disciplined hT⟩
  | insertN pos n wrapper =>
    obtain ⟨hk, hn, hroom, hright⟩ := hm
    rw [Step.apply, h.plus_begin hk.le, ok_bind]
    exact (h.insertN_iff hT hk hn hroom wrapper).mpr hright
  | rinsertN pos n wrapper =>
    obtain ⟨hk, hright⟩ := hm
    rw [Step.apply, h.plus_begin hk.le, ok_bind]
    exact (h.rinsertN_iff hT hk n wrapper).mpr hright
  | linearize => exact h.linearize hT

theorem Disciplined.run (h : cb.Disciplined) (hT : T.scalar = false) (steps : List (Step α))
    (hm : MeetsAll T cb steps) : ∃ cb', cb.runSteps T steps = .ok cb' ∧ cb'.Disciplined := by
  have hrun := Runs.foldlM_keeps (f := Step.apply T)
    (I := fun cb steps => cb.Disciplined ∧ MeetsAll T cb steps) ?_ ⟨h, hm⟩
  · obtain ⟨cb', hcb', hd, -⟩ := hrun
    exact ⟨cb', hcb', hd⟩
  · rintro cb step rest ⟨h, hfirst, hrest⟩
    obtain ⟨cb', hcb', hd⟩ := h.step hT step hfirst
    exact ⟨cb', hcb', hd, hrest cb' hcb'⟩

/-- **The storage along a run.**  A run from a new buffer whose calls meet their conditions returns
and leaves exactly the elements' cells constructed; there `linearize` is right about every cell, and
`insert_n` and `rinsert_n` are right exactly under their conditions. -/
theorem storage_discipline (hT : T.scalar = false) (bufferCapacity : ℕ) (steps : List (Step α))
    (hm : MeetsAll T (ofCapacity bufferCapacity) steps) :
    ∃ cb, (ofCapacity bufferCapacity).runSteps T steps = .ok cb ∧ cb.Disciplined ∧
      (∃ cb', cb.linearize T = .ok cb' ∧ cb'.Disciplined) ∧
      (∀ pos < cb.size, ∀ n (wrapper : ℕ → α), 0 < n → n + (cb.size - pos) ≤ cb.capacity →
        ((∃ cb', cb.insertN T (cb.iterAt pos) n wrapper = .ok cb' ∧ cb'.Disciplined) ↔
          cb.InsertRight n)) ∧
      ∀ pos < cb.size, ∀ n (wrapper : ℕ → α),
        ((∃ cb', cb.rinsertN T (cb.iterAt pos) n wrapper = .ok cb' ∧ cb'.Disciplined) ↔
          cb.RinsertRight pos n) := by
  have h₀ := (repr_ofCapacity T bufferCapacity).disciplined hT
  obtain ⟨cb, hcb, h⟩ := h₀.run hT steps hm
  exact ⟨cb, hcb, h, h.linearize hT,
    fun pos hpos n wrapper hn hroom => h.insertN_iff hT hpos hn hroom wrapper,
    fun pos hpos n wrapper => h.rinsertN_iff hT hpos n wrapper⟩

/-- Two elements and one put in between them. -/
theorem storage_discipline_between :
    ∃ cb, (ofCapacity 3 : CircularBuffer ℕ).runSteps ⟨false, id⟩
      [.op (.pushBack 1), .op (.pushBack 2), .insertN 1 1 fun _ => 9] = .ok cb ∧
      cb.Disciplined := by
  have ⟨cb, h, hd, _⟩ := storage_discipline (T := (⟨false, id⟩ : ValueType ℕ)) rfl 3
    [.op (.pushBack 1), .op (.pushBack 2), .insertN 1 1 fun _ => 9] (by
      refine ⟨⟨[], _, rfl, rfl⟩, fun cb h => ?_⟩
      obtain rfl : ⟨[some 1, none, none], 0, 1, 1⟩ = cb := Except.ok.inj h
      refine ⟨⟨[1], _, rfl, rfl⟩, fun cb h => ?_⟩
      obtain rfl : ⟨[some 1, some 2, none], 0, 2, 2⟩ = cb := Except.ok.inj h
      exact ⟨⟨by decide, by decide, by decide, fun h => absurd h.2 (by decide)⟩, fun _ _ => trivial⟩)
  exact ⟨cb, h, hd⟩

/-- Three elements in the middle of six cells: both insertions assign to the raw cells before
them. -/
theorem storage_discipline_assigns_raw :
    ∃ cb, (ofCapacity 6 : CircularBuffer ℕ).runSteps ⟨false, id⟩
      [.op (.pushBack 1), .op (.pushBack 2), .op (.pushBack 3), .op (.pushBack 4),
        .op (.pushBack 5), .op .popFront, .op .popFront] = .ok cb ∧
      (cb.first, cb.last, cb.size) = (2, 5, 3) ∧
      cb.insertFill ⟨false, id⟩ (cb.iterAt 1) 3 (.value 9) = .error .assignRaw ∧
      cb.rinsertFill ⟨false, id⟩ (cb.iterAt 1) 1 (.value 9) = .error .assignRaw :=
  ⟨⟨[none, none, some 3, some 4, some 5, none], 2, 5, 3⟩, by decide, by decide, by decide, by decide⟩

end SourceLibs.CircularBuffer
