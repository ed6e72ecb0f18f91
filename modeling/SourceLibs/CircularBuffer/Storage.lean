import SourceLibs.Support.RingCells

/-!
# CircularBuffer — storage

The memory of `circular_buffer/base.hpp`: a cell of `[m_buff, m_end)` holds a constructed element or
is raw.  Pointers are distances from `m_buff`.  An access that C++ leaves undefined is a `Fault`; so
is an assertion that fails and a loop that does not end.

* `increment_slot`, `decrement_slot`, `add_slot`, `sub_slot`: the pointer arithmetic, as distances.
* `constructOrReplace_ok_iff`: a write that is right about the cell.
* `forward_spec`, `backward_spec`: the two loops that move elements, and what they leave.
* `fill_spec`: the loop that writes new ones.
-/

namespace SourceLibs

/-- What a run can meet. -/
inductive Fault where
  | assertion
  | outOfRange
  | constructLive
  | assignRaw
  | readRaw
  | destroyRaw
  | endless
  deriving DecidableEq, Repr

/-- `value_type`: is it a scalar, and what does a move leave behind (the element itself where
`move_if_noexcept` copies)? -/
structure ValueType (α : Type) where
  scalar : Bool
  moved : α → α

end SourceLibs

namespace SourceLibs.CircularBuffer

open RingCells

variable {α : Type}

theorem ok_bind {β γ : Type} (x : β) (f : β → Except Fault γ) :
    (Except.ok x >>= f) = f x := rfl

/-! ### Pointers -/

/-- The next cell. -/
def increment (cap p : ℕ) : ℕ := if p + 1 = cap then 0 else p + 1

/-- The cell before. -/
def decrement (cap p : ℕ) : ℕ := (if p = 0 then cap else p) - 1

/-- `n` cells on. -/
def add (cap p n : ℕ) : ℕ := if n < cap - p then p + n else p + n - cap

/-- `n` cells back. -/
def sub (cap p n : ℕ) : ℕ := if p < n then p + cap - n else p - n

section Pointers
variable {cap b p i n : ℕ}

theorem increment_eq_slot (hp : p < cap) : increment cap p = slot cap p 1 := by
  unfold increment slot
  split
  · rename_i h
    rw [h, Nat.mod_self]
  · rw [Nat.mod_eq_of_lt (by omega)]

theorem add_eq_slot (hp : p < cap) (hn : n ≤ cap) : add cap p n = slot cap p n := by
  unfold add slot
  split
  · rw [Nat.mod_eq_of_lt (by omega)]
  · rw [Nat.mod_eq_sub_mod (by omega), Nat.mod_eq_of_lt (by omega)]

theorem sub_eq_slot (hp : p < cap) (hn : n ≤ cap) : sub cap p n = slot cap p (cap - n) := by
  unfold sub slot
  split
  · rw [show p + (cap - n) = p + cap - n by omega, Nat.mod_eq_of_lt (by omega)]
  · rw [show p + (cap - n) = p - n + cap by omega, Nat.add_mod_right, Nat.mod_eq_of_lt (by omega)]

theorem decrement_eq_slot (hp : p < cap) : decrement cap p = slot cap p (cap - 1) := by
  unfold decrement slot
  split
  · rename_i h
    rw [h, Nat.zero_add, Nat.mod_eq_of_lt (by omega)]
  · rw [show p + (cap - 1) = p - 1 + cap by omega, Nat.add_mod_right, Nat.mod_eq_of_lt (by omega)]

theorem increment_slot (hc : 0 < cap) : increment cap (slot cap b i) = slot cap b (i + 1) := by
  rw [increment_eq_slot (slot_lt hc), slot_slot]

theorem decrement_slot (hc : 0 < cap) : decrement cap (slot cap b (i + 1)) = slot cap b i := by
  rw [decrement_eq_slot (slot_lt hc), slot_slot, show i + 1 + (cap - 1) = i + cap by omega,
    slot_add_self]

theorem slot_decrement (hp : p < cap) : slot cap (decrement cap p) 1 = p := by
  rw [decrement_eq_slot hp, slot_slot, Nat.sub_add_cancel (by omega), slot_self, slot_zero hp]

theorem increment_decrement (hp : p < cap) : increment cap (decrement cap p) = p := by
  unfold increment decrement
  split <;> split <;> omega

theorem decrement_lt (hp : p < cap) : decrement cap p < cap := by
  rw [decrement_eq_slot hp]
  exact slot_lt (by omega)

theorem add_slot (hc : 0 < cap) (hn : n ≤ cap) : add cap (slot cap b i) n = slot cap b (i + n) := by
  rw [add_eq_slot (slot_lt hc) hn, slot_slot]

theorem sub_slot (hc : 0 < cap) (hn : n ≤ cap) : sub cap (slot cap b (i + n)) n = slot cap b i := by
  rw [sub_eq_slot (slot_lt hc) hn, slot_slot, show i + n + (cap - n) = i + cap by omega,
    slot_add_self]

end Pointers

/-! ### Cells -/

section Cells
variable (T : ValueType α)

/-- `*p`. -/
def read (s : List (Option α)) (p : ℕ) : Except Fault α :=
  match s[p]? with
  | none => .error .outOfRange
  | some none => .error .readRaw
  | some (some v) => .ok v

/-- A `const value_type&`: an object outside the storage, a cell of it, or a cell of a storage that
has been given up. -/
inductive Item (α : Type) where
  | value (v : α)
  | cell (p : ℕ)
  | freed

/-- What is read through the reference at the time of reading. -/
def Item.get (s : List (Option α)) : Item α → Except Fault α
  | value v => .ok v
  | cell p => read s p
  | freed => .error .outOfRange

/-- Items that are objects of their own. -/
instance : Coe (ℕ → α) (ℕ → Item α) := ⟨fun wrapper i => .value (wrapper i)⟩

/-- `*p`, of which `leave` stays behind: `T.moved` for a move, `id` for a copy. -/
def take (leave : α → α) (s : List (Option α)) (p : ℕ) : Except Fault (α × List (Option α)) := do
  let v ← read s p
  .ok (v, s.set p (some (leave v)))

/-- `allocator_traits::construct`. -/
def construct (s : List (Option α)) (p : ℕ) (item : α) : Except Fault (List (Option α)) :=
  match s[p]? with
  | none => .error .outOfRange
  | some none => .ok (s.set p (some item))
  | some (some _) => if T.scalar then .ok (s.set p (some item)) else .error .constructLive

/-- `replace`: assign to an element. -/
def replace (s : List (Option α)) (p : ℕ) (item : α) : Except Fault (List (Option α)) :=
  match s[p]? with
  | none => .error .outOfRange
  | some none => if T.scalar then .ok (s.set p (some item)) else .error .assignRaw
  | some (some _) => .ok (s.set p (some item))

def constructOrReplace (cons : Bool) (s : List (Option α)) (pos : ℕ) (item : α) :
    Except Fault (List (Option α)) :=
  if cons then construct T s pos item else replace T s pos item

/-- `destroy_item`; the destructor of a scalar does nothing. -/
def destroyItem (s : List (Option α)) (p : ℕ) : Except Fault (List (Option α)) :=
  match s[p]? with
  | none => .error .outOfRange
  | some none => if T.scalar then .ok s else .error .destroyRaw
  | some (some _) => .ok (if T.scalar then s else s.set p none)

end Cells

/-- The cell `p` after its element is gone. -/
def wipe (T : ValueType α) (s : List (Option α)) (p : ℕ) : List (Option α) :=
  if T.scalar then s else s.set p none

section Specs
variable {T : ValueType α} {s : List (Option α)} {n b i j : ℕ} {v : α}

theorem getElem?_slot (hs : s.length = n) (hn : 0 < n) :
    s[slot n b i]? = some (view s b i) := by
  subst hs
  have hlt : slot s.length b i < s.length := slot_lt hn
  rw [List.getElem?_eq_getElem hlt, view, List.getD_eq_getElem _ _ hlt]

theorem read_slot (hs : s.length = n) (hn : 0 < n) (h : view s b i = some v) :
    read s (slot n b i) = .ok v := by
  rw [read, getElem?_slot hs hn, h]

theorem take_slot (leave : α → α) (hs : s.length = n) (hn : 0 < n) (h : view s b i = some v) :
    take leave s (slot n b i) = .ok (v, s.set (slot n b i) (some (leave v))) := by
  rw [take, read_slot hs hn h]
  rfl

/-- A write that is right about the cell, or of a scalar. -/
theorem constructOrReplace_slot (hs : s.length = n) (hn : 0 < n) {c : Bool}
    (h : T.scalar = true ∨ c = (view s b i).isNone) :
    constructOrReplace T c s (slot n b i) v = .ok (s.set (slot n b i) (some v)) := by
  unfold constructOrReplace construct replace
  rw [getElem?_slot hs hn]
  rcases h with h | rfl
  · cases c <;> cases view s b i <;> simp [h]
  · cases view s b i <;> simp

/-- No other write of an element that is not a scalar is defined. -/
theorem constructOrReplace_slot_error (hs : s.length = n) (hn : 0 < n) (hT : T.scalar = false)
    {c : Bool} (h : c ≠ (view s b i).isNone) :
    ∃ e, constructOrReplace T c s (slot n b i) v = .error e := by
  unfold constructOrReplace construct replace
  rw [getElem?_slot hs hn]
  cases c <;> cases hv : view s b i <;> simp [hv, hT] at h ⊢

theorem construct_slot (hs : s.length = n) (hn : 0 < n)
    (h : T.scalar = true ∨ view s b i = none) :
    construct T s (slot n b i) v = .ok (s.set (slot n b i) (some v)) := by
  have hw := constructOrReplace_slot (v := v) hs hn (h.imp_right fun h =>
    show true = (view s b i).isNone by rw [h]; rfl)
  exact hw

theorem replace_slot (hs : s.length = n) (hn : 0 < n)
    (h : T.scalar = true ∨ (view s b i).isSome) :
    replace T s (slot n b i) v = .ok (s.set (slot n b i) (some v)) := by
  have hw := constructOrReplace_slot (v := v) hs hn (h.imp_right fun h =>
    show false = (view s b i).isNone by rw [Option.isNone_eq_false_iff.mpr h])
  exact hw

theorem destroyItem_slot (hs : s.length = n) (hn : 0 < n)
    (h : T.scalar = true ∨ (view s b i).isSome) :
    destroyItem T s (slot n b i) = .ok (wipe T s (slot n b i)) := by
  unfold destroyItem wipe
  rw [getElem?_slot hs hn]
  cases hv : view s b i with
  | none =>
    rcases h with h | h
    · simp [h]
    · simp [hv] at h
  | some v => rfl

@[simp] theorem length_wipe (T : ValueType α) (s : List (Option α)) (p : ℕ) :
    (wipe T s p).length = s.length := by
  unfold wipe
  split <;> simp

theorem view_wipe (T : ValueType α) (hs : s.length = n) (b : ℕ) (hi : i < j + n)
    (hj : j < i + n) :
    view (wipe T s (slot n b j)) b i =
      if i = j ∧ T.scalar = false then none else view s b i := by
  unfold wipe
  cases hT : T.scalar with
  | false => simp [view_set hs none b hi hj]
  | true => simp

end Specs

/-! ### Loops -/

section Loops
variable (T : ValueType α) (leave : α → α) (cons : Bool → ℕ → Bool)

/-- `while (src != stop) { construct_or_replace(…, dest, *src); increment(src); increment(dest); }`.
Whether a cell is constructed may depend on a flag `c` that the first turn clears. -/
def forward (stop : ℕ) : ℕ → Bool → List (Option α) → ℕ → ℕ → Except Fault (List (Option α) × ℕ)
  | 0, _, _, _, _ => .error .endless
  | fuel + 1, c, s, src, dest =>
    if src = stop then .ok (s, dest)
    else do
      let (v, s) ← take leave s src
      let s ← constructOrReplace T (cons c dest) s dest v
      forward stop fuel false s (increment s.length src) (increment s.length dest)

/-- `while (src != stop) { decrement(src); construct_or_replace(…, dest, *src); decrement(dest); }`. -/
def backward (stop : ℕ) : ℕ → Bool → List (Option α) → ℕ → ℕ → Except Fault (List (Option α) × ℕ)
  | 0, _, _, _, _ => .error .endless
  | fuel + 1, c, s, src, dest =>
    if src = stop then .ok (s, dest)
    else do
      let src := decrement s.length src
      let (v, s) ← take leave s src
      let s ← constructOrReplace T (cons c dest) s dest v
      backward stop fuel false s src (decrement s.length dest)

/-- `for (; ii < n; ++ii, increment(p)) construct_or_replace(…, p, *wrapper());`, `k` turns from
`ii` on. -/
def fill (cons : ℕ → Bool) (wrapper : ℕ → Item α) :
    ℕ → ℕ → List (Option α) → ℕ → Except Fault (List (Option α) × ℕ)
  | 0, _, s, p => .ok (s, p)
  | k + 1, ii, s, p => do
    let v ← (wrapper ii).get s
    let s ← constructOrReplace T (cons p) s p v
    fill cons wrapper k (ii + 1) s (increment s.length p)

end Loops

/-! ### What the loops do -/

section LoopSpecs
variable {T : ValueType α} {s : List (Option α)} {b : ℕ}

/-- One element moved: the cells of a turn after it. -/
theorem view_transfer {n t i j k : ℕ} (hs : s.length = n) (v u : α) (hi : t ≤ i ∧ i < t + n)
    (hj : t ≤ j ∧ j < t + n) (hk : t ≤ k ∧ k < t + n) :
    view ((s.set (slot n b j) (some u)).set (slot n b i) (some v)) b k =
      if k = i then some v else if k = j then some u else view s b k := by
  rw [view_set (by rwa [List.length_set]) _ b (by omega) (by omega),
    view_set hs _ b (by omega) (by omega)]

/-- One turn of a loop that moves: read at `j`, write at `i`. -/
theorem transfer_ok (leave : α → α) {n t i j : ℕ} {v : α} {c : Bool} (hs : s.length = n)
    (hi : t ≤ i ∧ i < t + n) (hj : t ≤ j ∧ j < t + n) (hij : i ≠ j) (hv : view s b j = some v)
    (hc : T.scalar = true ∨ c = (view s b i).isNone) :
    take leave s (slot n b j) = .ok (v, s.set (slot n b j) (some (leave v))) ∧
      constructOrReplace T c (s.set (slot n b j) (some (leave v))) (slot n b i) v =
        .ok ((s.set (slot n b j) (some (leave v))).set (slot n b i) (some v)) := by
  have hn : 0 < n := by omega
  refine ⟨take_slot leave hs hn hv, constructOrReplace_slot (by rwa [List.length_set]) hn ?_⟩
  rwa [view_set hs _ b (by omega) (by omega), if_neg hij]

/-- **The forward loop** moves the `m` elements from `t + d` on down by `d`. -/
theorem forward_spec (leave : α → α) (cons : Bool → ℕ → Bool) {n d : ℕ} (hd : 0 < d)
    (x : ℕ → α) (m t : ℕ) (c : Bool) (fuel : ℕ) (hlen : s.length = n) (hn : d + m ≤ n) (hfuel : m < fuel)
    (hx : ∀ i, t + d ≤ i → i < t + d + m → view s b i = some (x i))
    (hc : T.scalar = true ∨ ∀ i, t ≤ i → i < t + m →
      cons (c && i = t) (slot n b i) = (view s b i).isNone) :
    ∃ s', forward T leave cons (slot n b (t + d + m)) fuel c s (slot n b (t + d)) (slot n b t) =
        .ok (s', slot n b (t + m)) ∧ s'.length = n ∧
      ∀ i, t ≤ i → i < t + n → view s' b i = if i < t + m then some (x (i + d))
        else if t + d ≤ i ∧ i < t + d + m then (view s b i).map leave else view s b i := by
  induction m generalizing t c fuel s with
  | zero =>
    obtain ⟨fuel, rfl⟩ := Nat.exists_eq_add_one_of_ne_zero (by omega : fuel ≠ 0)
    refine ⟨s, by simp [forward], hlen, fun i _ _ => ?_⟩
    rw [if_neg (by omega), if_neg (by omega)]
  | succ m ih =>
    obtain ⟨fuel, rfl⟩ := Nat.exists_eq_add_one_of_ne_zero (by omega : fuel ≠ 0)
    have hpos : 0 < n := by omega
    have hne : ¬ slot n b (t + d) = slot n b (t + d + (m + 1)) := fun h =>
      absurd ((slot_eq_iff_of_le (by omega) (by omega)).mp h) (by omega)
    obtain ⟨htake, hwrite⟩ := transfer_ok (T := T) leave (b := b) (t := t) (i := t)
      (j := t + d) (c := cons c (slot n b t)) hlen (by omega) (by omega) (by omega)
      (hx (t + d) le_rfl (by omega))
      (hc.imp_right fun h => by simpa using h t le_rfl (by omega))
    have hview := fun k (hk : t ≤ k ∧ k < t + n) => view_transfer (b := b) (t := t) (i := t)
      (j := t + d) hlen (x (t + d)) (leave (x (t + d))) (by omega) (by omega) hk
    obtain ⟨s', hs', hlen', hv'⟩ := ih (s := (s.set (slot n b (t + d))
      (some (leave (x (t + d))))).set (slot n b t) (some (x (t + d)))) (t + 1) false fuel
      (by simpa using hlen) (by omega) (by omega)
      (fun i h₁ h₂ => by
        rw [hview i (by omega), if_neg (by omega), if_neg (by omega), hx i (by omega) (by omega)])
      (hc.imp_right fun h i h₁ h₂ => by
        have hi := h i (by omega) (by omega)
        rw [decide_eq_false (by omega), Bool.and_false] at hi
        rw [Bool.false_and, hi, hview i (by omega), if_neg (by omega)]
        split
        · rename_i he
          rw [he, hx (t + d) le_rfl (by omega)]
          rfl
        · rfl)
    refine ⟨s', ?_, hlen', fun i hi hit => ?_⟩
    · rw [forward, if_neg hne, htake]
      simp only [ok_bind, hwrite, List.length_set, hlen, increment_slot hpos]
      rw [show t + d + 1 = t + 1 + d by omega, show t + d + (m + 1) = t + 1 + d + m by omega,
        show t + (m + 1) = t + 1 + m by omega]
      exact hs'
    · rcases Nat.eq_or_lt_of_le hi with rfl | hlt
      · -- the cell just written is not written again
        rw [← view_add_length hlen', hv' _ (by omega) (by omega), if_neg (by omega),
          if_neg (by omega), view_add_length (by simpa using hlen), hview t (by omega), if_pos rfl,
          if_pos (by omega)]
      · rw [hv' i hlt (by omega), hview i (by omega), if_neg (by omega : ¬ i = t)]
        by_cases hin : i < t + (m + 1)
        · rw [if_pos (by omega), if_pos hin]
        rw [if_neg (by omega), if_neg hin]
        by_cases hsrc : i = t + d
        · subst hsrc
          rw [if_neg (by omega), if_pos rfl, if_pos (by omega), hx _ le_rfl (by omega)]
          rfl
        rw [if_neg hsrc]
        by_cases hmid : t + d ≤ i ∧ i < t + d + (m + 1)
        · rw [if_pos (by omega), if_pos hmid]
        · rw [if_neg (by omega), if_neg hmid]

/-- **The backward loop** moves the `m` elements from `t` on up by `e + 1`. -/
theorem backward_spec (leave : α → α) (cons : Bool → ℕ → Bool) {n : ℕ} (x : ℕ → α)
    (t e m : ℕ) (c : Bool) (fuel : ℕ) (hlen : s.length = n) (hn : e + 1 + m ≤ n) (hfuel : m < fuel)
    (hx : ∀ i, t ≤ i → i < t + m → view s b i = some (x i))
    (hc : T.scalar = true ∨ ∀ i, t ≤ i → i < t + m →
      cons (c && i + 1 = t + m) (slot n b (i + (e + 1))) = (view s b (i + (e + 1))).isNone) :
    ∃ s', backward T leave cons (slot n b t) fuel c s (slot n b (t + m)) (slot n b (t + e + m)) =
        .ok (s', slot n b (t + e)) ∧ s'.length = n ∧
      ∀ i, t ≤ i → i < t + n → view s' b i =
        if t + e < i ∧ i < t + e + 1 + m then some (x (i - (e + 1)))
        else if i < t + m then (view s b i).map leave else view s b i := by
  induction m generalizing c fuel s with
  | zero =>
    obtain ⟨fuel, rfl⟩ := Nat.exists_eq_add_one_of_ne_zero (by omega : fuel ≠ 0)
    refine ⟨s, by simp [backward], hlen, fun i _ _ => ?_⟩
    rw [if_neg (by omega), if_neg (by omega)]
  | succ m ih =>
    obtain ⟨fuel, rfl⟩ := Nat.exists_eq_add_one_of_ne_zero (by omega : fuel ≠ 0)
    have hpos : 0 < n := by omega
    have hne : ¬ slot n b (t + m + 1) = slot n b t := fun h =>
      absurd ((slot_eq_iff_of_le (by omega) (by omega)).mp h.symm) (by omega)
    obtain ⟨htake, hwrite⟩ := transfer_ok (T := T) leave (b := b) (t := t) (i := t + e + m + 1)
      (j := t + m) (c := cons c (slot n b (t + e + m + 1))) hlen (by omega) (by omega) (by omega)
      (hx (t + m) (by omega) (by omega)) (hc.imp_right fun h => by
        have := h (t + m) (by omega) (by omega)
        rw [show t + m + (e + 1) = t + e + m + 1 by omega] at this
        simpa [Nat.add_assoc] using this)
    have hview := fun k (hk : t ≤ k ∧ k < t + n) => view_transfer (b := b) (t := t)
      (i := t + e + m + 1) (j := t + m) hlen (x (t + m)) (leave (x (t + m))) (by omega) (by omega)
      hk
    obtain ⟨s', hs', hlen', hv'⟩ := ih (s := (s.set (slot n b (t + m))
      (some (leave (x (t + m))))).set (slot n b (t + e + m + 1)) (some (x (t + m)))) false fuel
      (by simpa using hlen) (by omega) (by omega)
      (fun i h₁ h₂ => by
        rw [hview i (by omega), if_neg (by omega), if_neg (by omega), hx i (by omega) (by omega)])
      (hc.imp_right fun h i h₁ h₂ => by
        have hi := h i (by omega) (by omega)
        rw [decide_eq_false (by omega), Bool.and_false] at hi
        rw [Bool.false_and, hi, hview _ (by omega), if_neg (by omega)]
        split
        · rename_i he
          rw [he, hx (t + m) (by omega) (by omega)]
          rfl
        · rfl)
    refine ⟨s', ?_, hlen', fun i hi hit => ?_⟩
    · rw [backward, ← Nat.add_assoc, ← Nat.add_assoc, if_neg hne]
      simp only [hlen, decrement_slot hpos, htake, ok_bind, hwrite, List.length_set]
      exact hs'
    · rw [hv' i hi hit, hview i (by omega)]
      by_cases hdest : i = t + e + m + 1
      · subst hdest
        rw [if_neg (by omega), if_neg (by omega), if_pos rfl, if_pos (by omega),
          show t + e + m + 1 - (e + 1) = t + m by omega]
      by_cases hin : t + e < i ∧ i < t + e + 1 + (m + 1)
      · rw [if_pos (by omega), if_pos hin]
      rw [if_neg (by omega), if_neg hin, if_neg hdest]
      by_cases hsrc : i = t + m
      · subst hsrc
        rw [if_neg (by omega), if_pos rfl, if_pos (by omega), hx _ (by omega) (by omega)]
        rfl
      rw [if_neg hsrc]
      by_cases hlow : i < t + m
      · rw [if_pos hlow, if_pos (by omega)]
      · rw [if_neg hlow, if_neg (by omega)]

/-- **The filling loop** writes `k` new elements from `t` on. -/
theorem fill_spec (cons : ℕ → Bool) {n : ℕ} (wrapper : ℕ → α) (k ii t : ℕ) (hlen : s.length = n)
    (hn : k ≤ n)
    (hc : T.scalar = true ∨ ∀ i, t ≤ i → i < t + k →
      cons (slot n b i) = (view s b i).isNone) :
    ∃ s', fill T cons wrapper k ii s (slot n b t) = .ok (s', slot n b (t + k)) ∧ s'.length = n ∧
      ∀ i, t ≤ i → i < t + n → view s' b i =
        if i < t + k then some (wrapper (ii + (i - t))) else view s b i := by
  induction k generalizing ii t s with
  | zero =>
    refine ⟨s, rfl, hlen, fun i _ _ => ?_⟩
    rw [if_neg (by omega)]
  | succ k ih =>
    have hpos : 0 < n := by omega
    have hwrite := constructOrReplace_slot (T := T) (v := wrapper ii) (b := b) (i := t) hlen hpos
      (c := cons (slot n b t)) (hc.imp_right fun h => h t le_rfl (by omega))
    have hview := fun i (hi : t ≤ i ∧ i < t + n) =>
      view_set (i := i) (j := t) hlen (some (wrapper ii)) b (by omega) (by omega)
    obtain ⟨s', hs', hlen', hv'⟩ := ih (s := s.set (slot n b t) (some (wrapper ii)))
      (ii + 1) (t + 1) (by simpa using hlen) (by omega)
      (hc.imp_right fun h i h₁ h₂ => by
        rw [h i (by omega) (by omega), hview i (by omega), if_neg (by omega)])
    refine ⟨s', ?_, hlen', fun i hi hit => ?_⟩
    · rw [fill, Item.get, ok_bind, hwrite]
      simp only [ok_bind, List.length_set, hlen, increment_slot hpos]
      rw [show t + (k + 1) = t + 1 + k by omega]
      exact hs'
    · rcases Nat.eq_or_lt_of_le hi with rfl | hlt
      · rw [← view_add_length hlen', hv' _ (by omega) (by omega), if_neg (by omega),
          view_add_length (by simpa using hlen), hview t (by omega), if_pos rfl, if_pos (by omega),
          Nat.sub_self, Nat.add_zero]
      · rw [hv' i hlt (by omega), hview i (by omega), if_neg (by omega : ¬ i = t)]
        by_cases hin : i < t + (k + 1)
        · rw [if_pos (by omega), if_pos hin, show ii + 1 + (i - (t + 1)) = ii + (i - t) by omega]
        · rw [if_neg (by omega), if_neg hin]

/-- A filling loop whose item is a cell it does not write. -/
theorem fill_cell (cons : ℕ → Bool) {n : ℕ} {v : α} (k ii : ℕ) {t j : ℕ} (hlen : s.length = n)
    (hj : view s b j = some v) (htj : t + k ≤ j) (hjn : j < t + n)
    (hc : T.scalar = true ∨ ∀ i, t ≤ i → i < t + k →
      cons (slot n b i) = (view s b i).isNone) :
    fill T cons (fun _ => .cell (slot n b j)) k ii s (slot n b t) =
      fill T cons (fun _ => .value v) k ii s (slot n b t) := by
  induction k generalizing ii t s with
  | zero => rfl
  | succ k ih =>
    have hpos : 0 < n := by omega
    have hwrite := constructOrReplace_slot (T := T) (v := v) (b := b) (i := t) hlen hpos
      (c := cons (slot n b t)) (hc.imp_right fun h => h t le_rfl (by omega))
    have hview := fun i (hi : t ≤ i ∧ i < t + n) =>
      view_set (i := i) (j := t) hlen (some v) b (by omega) (by omega)
    rw [fill, fill, Item.get, Item.get, read_slot hlen hpos hj]
    simp only [ok_bind, hwrite, List.length_set, hlen, increment_slot hpos]
    exact ih (ii + 1) (by simpa using hlen) (by rw [hview j (by omega), if_neg (by omega), hj])
      (by omega) (by omega) (hc.imp_right fun h i h₁ h₂ => by
        rw [h i (by omega) (by omega), hview i (by omega), if_neg (by omega)])

end LoopSpecs

end SourceLibs.CircularBuffer
