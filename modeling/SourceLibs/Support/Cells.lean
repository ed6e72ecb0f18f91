import Mathlib.Data.List.Basic
import Mathlib.Algebra.Order.Ring.Nat

/-!
# Support — an array that is kept sorted by hand

An array is a list of cells, of which the first hold a list; a cell that was never written holds
nothing.  A loop that reads such a cell, or writes past the end, returns nothing.

* `copy_spec`, `shiftUp_spec`: the loops that make room for another element.
* `insert_holds`: what the array holds then.
* `pack_spec`: the loop that removes elements.
* `search_spec`: binary search.
-/

namespace SourceLibs.Cells
open List

variable {β : Type*}

/-- `cells[i]`. -/
def read (cells : List (Option β)) (i : ℕ) : Option β := cells[i]?.join

/-- `c[i] = b`. -/
def write (c : List (Option β)) (i : ℕ) (b : β) : Option (List (Option β)) :=
  if i < c.length then some (c.set i (some b)) else none

/-- `n` times `dst[i + offset] = src[i]`, upwards. -/
def copy (src : List (Option β)) (offset : ℕ) : ℕ → ℕ → List (Option β) → Option (List (Option β))
  | 0, _, dst     => some dst
  | n + 1, i, dst =>
    match read src i with
    | none   => none
    | some b =>
      match write dst (i + offset) b with
      | none     => none
      | some dst => copy src offset n (i + 1) dst

/-- `n` times `c[i] = c[i - 1]`, downwards, the last time to `c[before + 1]`. -/
def shiftUp (before : ℕ) : ℕ → List (Option β) → Option (List (Option β))
  | 0, c     => some c
  | n + 1, c =>
    match read c (before + n) with
    | none   => none
    | some b =>
      match write c (before + n + 1) b with
      | none   => none
      | some c => shiftUp before n c

/-- From `c[i]` on `n` elements are moved down to `c[j]`, without some. -/
def pack (out : β → Bool) : ℕ → ℕ → ℕ → List (Option β) → Option (List (Option β) × ℕ)
  | 0, _, j, c     => some (c, j)
  | n + 1, i, j, c =>
    match read c i with
    | none   => none
    | some b =>
      if out b then pack out n (i + 1) j c
      else if i ≠ j then
        match write c j b with
        | none   => none
        | some c => pack out n (i + 1) (j + 1) c
      else pack out n (i + 1) (j + 1) c

/-- Binary search between `begin` and `stop - 1`: the element, or the place where it would be. -/
def search (c : List (Option β)) (cmp : β → Ordering) : ℕ → ℕ → ℕ → Option (Option β × ℕ)
  | 0, _, _               => none
  | fuel + 1, start, stop =>
    if start < stop then
      let mid := (start + (stop - 1)) / 2
      match read c mid with
      | none   => none
      | some b =>
        match cmp b with
        | .eq => some (some b, mid)
        | .lt => search c cmp fuel (mid + 1) stop
        | .gt => search c cmp fuel start mid
    else some (none, start)

/-- The first cells of an array hold a list. -/
def Holds (c : List (Option β)) (l : List β) : Prop := ∀ j < l.length, read c j = l[j]?

section
variable {c c' src dst : List (Option β)} {l : List β} {i j n : ℕ} {b : β}

theorem write_spec (h : i < c.length) (b : β) : ∃ c', write c i b = some c' ∧ c'.length = c.length ∧
    read c' i = some b ∧ ∀ j, j ≠ i → read c' j = read c j := by
  refine ⟨c.set i (some b), if_pos h, length_set, ?_, fun j hj => ?_⟩
  · rw [read, List.getElem?_set_self h]
    rfl
  · rw [read, List.getElem?_set_ne (Ne.symm hj)]
    rfl

theorem Holds.read (h : Holds c l) (hj : j < l.length) : ∃ b, read c j = some b ∧ l[j]? = some b :=
  ⟨l[j], (h j hj).trans (List.getElem?_eq_getElem hj), List.getElem?_eq_getElem hj⟩

theorem Holds.length_le (h : Holds c l) : l.length ≤ c.length := by
  by_contra hlt
  obtain ⟨b, hb, -⟩ := h.read (Nat.not_le.mp hlt)
  rw [Cells.read, List.getElem?_eq_none le_rfl] at hb
  exact nomatch hb

theorem holds_nil (c : List (Option β)) : Holds c [] := fun _ hj => absurd hj (Nat.not_lt_zero _)

/-! ### Making room -/

/-- **A copy**, moved by an offset. -/
theorem copy_spec (h : Holds src l) (offset n : ℕ) : ∀ (i : ℕ) (dst : List (Option β)),
    i + n ≤ l.length → i + n + offset ≤ dst.length →
    ∃ dst', copy src offset n i dst = some dst' ∧ dst'.length = dst.length ∧
      (∀ j, i ≤ j → j < i + n → read dst' (j + offset) = l[j]?) ∧
      ∀ j, j < i + offset ∨ i + n + offset ≤ j → read dst' j = read dst j := by
  induction n with
  | zero =>
    intro i dst _ _
    exact ⟨dst, rfl, rfl, fun j hj hj' => absurd hj' (Nat.not_lt.mpr hj), fun _ _ => rfl⟩
  | succ n ih =>
    intro i dst hl hdst
    obtain ⟨b, hread, hb⟩ := h.read (show i < l.length by omega)
    obtain ⟨c, hwrite, hlen, hself, hother⟩ := write_spec (show i + offset < dst.length by omega) b
    obtain ⟨dst', hcopy, hlen', hin, hout⟩ := ih (i + 1) c (by omega) (by omega)
    refine ⟨dst', ?_, hlen'.trans hlen, fun j hj hj' => ?_, fun j hj => ?_⟩
    · rw [copy, hread]
      dsimp only
      rw [hwrite]
      exact hcopy
    · rcases hj.eq_or_lt with rfl | hlt
      · rw [hout _ (.inl (by omega)), hself, hb]
      · exact hin j hlt (by omega)
    · rw [hout j (by omega), hother j (by omega)]

/-- **A shift** by one cell. -/
theorem shiftUp_spec (before : ℕ) (n : ℕ) : ∀ (c : List (Option β)),
    (∀ j, before ≤ j → j < before + n → read c j = l[j]?) → before + n ≤ l.length →
    before + n < c.length →
    ∃ c', shiftUp before n c = some c' ∧ c'.length = c.length ∧
      (∀ j, before ≤ j → j < before + n → read c' (j + 1) = l[j]?) ∧
      ∀ j, j ≤ before ∨ before + n < j → read c' j = read c j := by
  induction n with
  | zero =>
    intro c _ _ _
    exact ⟨c, rfl, rfl, fun j hj hj' => absurd hj' (Nat.not_lt.mpr hj), fun _ _ => rfl⟩
  | succ n ih =>
    intro c hc hl hlen
    have hlt : before + n < l.length := by omega
    have hb := List.getElem?_eq_getElem hlt
    obtain ⟨c₁, hwrite, hlen₁, hself, hother⟩ :=
      write_spec (show before + n + 1 < c.length by omega) l[before + n]
    obtain ⟨c', hshift, hlen', hin, hout⟩ := ih c₁
      (fun j hj hj' => by rw [hother j (by omega), hc j hj (by omega)]) (by omega) (by omega)
    refine ⟨c', ?_, hlen'.trans hlen₁, fun j hj hj' => ?_, fun j hj => ?_⟩
    · rw [shiftUp, hc (before + n) (by omega) (by omega), hb]
      dsimp only
      rw [hwrite]
      exact hshift
    · rcases (show j ≤ before + n by omega).eq_or_lt with rfl | hlt'
      · rw [hout _ (.inr (by omega)), hself, hb]
      · exact hin j hj hlt'
    · rw [hout j (by omega), hother j (by omega)]

/-- **Another element**, between the first ones and the rest moved up by one. -/
theorem insert_holds {p : ℕ} (hp : p ≤ l.length) (hlow : ∀ j < p, read c j = l[j]?)
    (hself : read c p = some b) (hhigh : ∀ j, p ≤ j → j < l.length → read c (j + 1) = l[j]?) :
    Holds c (l.take p ++ b :: l.drop p) := by
  intro j hj
  have htake : (l.take p).length = p := length_take_of_le hp
  rw [length_append, length_cons, htake, length_drop] at hj
  rcases Nat.lt_trichotomy j p with hlt | rfl | hgt
  · rw [List.getElem?_append_left (by omega), List.getElem?_take_of_lt hlt]
    exact hlow j hlt
  · rw [List.getElem?_append_right (by omega), htake, Nat.sub_self, List.getElem?_cons_zero]
    exact hself
  · obtain ⟨k, rfl⟩ : ∃ k, j = k + 1 := ⟨j - 1, by omega⟩
    rw [List.getElem?_append_right (by omega), htake, show k + 1 - p = k - p + 1 by omega,
      List.getElem?_cons_succ, List.getElem?_drop, Nat.add_sub_of_le (by omega)]
    exact hhigh k (by omega) (by omega)

/-! ### Removing -/

/-- **Packing** keeps what is not taken out, in order. -/
theorem pack_spec (out : β → Bool) (n : ℕ) : ∀ (i : ℕ) (kept : List β) (c : List (Option β)),
    Holds c kept → kept.length ≤ i → i + n = l.length → l.length ≤ c.length →
    (∀ j, i ≤ j → j < l.length → read c j = l[j]?) →
    ∃ c', pack out n i kept.length c =
        some (c', (kept ++ (l.drop i).filter fun b => !out b).length) ∧ c'.length = c.length ∧
      Holds c' (kept ++ (l.drop i).filter fun b => !out b) := by
  induction n with
  | zero =>
    intro i kept c hkept _ hi _ _
    rw [drop_of_length_le (by omega), filter_nil, append_nil]
    exact ⟨c, rfl, rfl, hkept⟩
  | succ n ih =>
    intro i kept c hkept hik hi hlen hc
    have hlt : i < l.length := by omega
    have hread : read c i = some l[i] := (hc i le_rfl hlt).trans (List.getElem?_eq_getElem hlt)
    rw [drop_eq_getElem_cons hlt]
    cases hout : out l[i] with
    | true =>
      obtain ⟨c', hpack, hlen', hholds⟩ :=
        ih (i + 1) kept c hkept (by omega) (by omega) hlen fun j hj => hc j (by omega)
      rw [filter_cons_of_neg (by simp [hout])]
      refine ⟨c', ?_, hlen', hholds⟩
      rw [pack, hread]
      dsimp only
      rw [hout, if_pos rfl]
      exact hpack
    | false =>
      rw [filter_cons_of_pos (by simp [hout]), append_cons]
      have hlen₁ : (kept ++ [l[i]]).length = kept.length + 1 := by simp
      have hholds₁ : ∀ c₁ : List (Option β), (∀ j < kept.length, read c₁ j = read c j) →
          read c₁ kept.length = some l[i] → Holds c₁ (kept ++ [l[i]]) := by
        intro c₁ hlow hself j hj
        rcases (show j ≤ kept.length by omega).eq_or_lt with rfl | hlt'
        · rw [hself, List.getElem?_concat_length]
        · rw [hlow j hlt', hkept j hlt', List.getElem?_append_left hlt']
      by_cases hne : i = kept.length
      · -- The element stays where it is.
        obtain ⟨c', hpack, hlen', hholds⟩ := ih (i + 1) (kept ++ [l[i]]) c
          (hholds₁ c (fun _ _ => rfl) (hne ▸ hread)) (by omega) (by omega) hlen
          fun j hj => hc j (by omega)
        refine ⟨c', ?_, hlen', hholds⟩
        rw [pack, hread]
        dsimp only
        rw [hout, if_neg Bool.false_ne_true, if_neg (not_not.mpr hne), ← hlen₁]
        exact hpack
      · obtain ⟨c₁, hwrite, hlenw, hself, hother⟩ :=
          write_spec (show kept.length < c.length by omega) l[i]
        obtain ⟨c', hpack, hlen', hholds⟩ := ih (i + 1) (kept ++ [l[i]]) c₁
          (hholds₁ c₁ (fun j hj => hother j (by omega)) hself) (by omega) (by omega)
          (by omega) fun j hj hj' => by rw [hother j (by omega), hc j (by omega) hj']
        refine ⟨c', ?_, hlen'.trans hlenw, hholds⟩
        rw [pack, hread]
        dsimp only
        rw [hout, if_neg Bool.false_ne_true, if_pos hne, hwrite]
        dsimp only
        rw [← hlen₁]
        exact hpack

/-! ### Searching -/

/-- The comparison goes from less to greater along the list, and is equal once at most. -/
def Monotone (cmp : β → Ordering) (l : List β) : Prop :=
  l.Pairwise fun a b => (cmp b ≠ .gt → cmp a = .lt) ∧ (cmp a ≠ .lt → cmp b = .gt)

/-- What a search has found. -/
inductive Found (cmp : β → Ordering) (l : List β) : Option β × ℕ → Prop where
  | here {b : β} {p : ℕ} : l[p]? = some b → cmp b = .eq → Found cmp l (some b, p)
  | place {p : ℕ} : p ≤ l.length → (∀ b ∈ l.take p, cmp b = .lt) → (∀ b ∈ l.drop p, cmp b = .gt) →
      Found cmp l (none, p)

/-- **Binary search.** -/
theorem search_spec (h : Holds c l) {cmp : β → Ordering} (hm : Monotone cmp l) (fuel : ℕ) :
    ∀ start stop : ℕ, start ≤ stop → stop ≤ l.length → stop - start < fuel →
      (∀ j b, j < start → l[j]? = some b → cmp b = .lt) →
      (∀ j b, stop ≤ j → l[j]? = some b → cmp b = .gt) →
      ∃ r, search c cmp fuel start stop = some r ∧ Found cmp l r := by
  have hpair : ∀ {i j : ℕ} {a b : β}, i < j → l[i]? = some a → l[j]? = some b →
      (cmp b ≠ .gt → cmp a = .lt) ∧ (cmp a ≠ .lt → cmp b = .gt) := by
    intro i j a b hij ha hb
    obtain ⟨hi, rfl⟩ := List.getElem?_eq_some_iff.mp ha
    obtain ⟨hj, rfl⟩ := List.getElem?_eq_some_iff.mp hb
    exact pairwise_iff_getElem.mp hm i j hi hj hij
  induction fuel with
  | zero => exact fun _ _ _ _ hlt => absurd hlt (Nat.not_lt_zero _)
  | succ fuel ih =>
    intro start stop hle hstop hfuel hlow hhigh
    rw [search]
    by_cases hlt : start < stop
    · rw [if_pos hlt]
      dsimp only
      obtain ⟨mid, hmid⟩ : ∃ mid, (start + (stop - 1)) / 2 = mid := ⟨_, rfl⟩
      rw [hmid]
      obtain ⟨b, hread, hb⟩ := h.read (show mid < l.length by omega)
      rw [hread]
      dsimp only
      cases hcmp : cmp b with
      | eq => exact ⟨_, rfl, .here hb hcmp⟩
      | lt =>
        refine ih (mid + 1) stop (by omega) hstop (by omega) (fun j a hj ha => ?_) hhigh
        rcases (show j ≤ mid by omega).eq_or_lt with rfl | hjm
        · exact Option.some.inj (ha.symm.trans hb) ▸ hcmp
        · exact (hpair hjm ha hb).1 (by simp [hcmp])
      | gt =>
        refine ih start mid (by omega) (by omega) (by omega) hlow fun j a hj ha => ?_
        rcases hj.eq_or_lt with rfl | hjm
        · exact Option.some.inj (ha.symm.trans hb) ▸ hcmp
        · exact (hpair hjm hb ha).2 (by simp [hcmp])
    · rw [if_neg hlt]
      refine ⟨_, rfl, .place (hle.trans hstop) (fun b hb => ?_) fun b hb => ?_⟩
      · obtain ⟨j, hj⟩ := mem_iff_getElem?.mp hb
        rw [List.getElem?_take] at hj
        split at hj
        · next hjs => exact hlow j b hjs hj
        · exact nomatch hj
      · obtain ⟨j, hj⟩ := mem_iff_getElem?.mp hb
        rw [List.getElem?_drop] at hj
        exact hhigh (start + j) b (by omega) hj

end

end SourceLibs.Cells
