import Mathlib.Order.ConditionallyCompleteLattice.Indexed
import SourceLibs.Support.Memory
import Mathlib.Data.Finset.Sort
import Mathlib.Data.Int.ConditionallyCompleteOrder

/-!
# Redis — integer sets

`intset.c`.  A sorted array of integers in one block of memory, all of one width.  The width is the
least that every value added so far fits into: a wider value re-encodes the array in place, from back
to front, and then stands at one of its ends.

An `int64_t` is an integer in range.  `fresh` is what `zrealloc` finds in new memory.  Sizes in bytes
are `uint32_t`; positions stay far below that.

* `intsetSearch_spec`: the position of a value, or the one it belongs to.
* `upgradeLoop_spec`: re-encoding reads every value before its bytes are overwritten.
* `intset_run`: over every run, an integer set is a finite set.
-/

namespace SourceLibs.IntegerSet
open List Option Memory

/-- `INTSET_ENC_INT16` and so on. -/
inductive Encoding where
  | int16
  | int32
  | int64
  deriving DecidableEq

/-- `sizeof`. -/
def Encoding.size : Encoding → ℕ
  | .int16 => 2
  | .int32 => 4
  | .int64 => 8

abbrev Int64t := { v : ℤ // -(2 ^ 63) ≤ v ∧ v < 2 ^ 63 }

/-- The block: its header and its contents. -/
structure Intset where
  encoding : Encoding
  length : ℕ
  contents : List UInt8

/-- `_intsetValueEncoding`: the least that holds the value. -/
def intsetValueEncoding (v : ℤ) : Encoding :=
  if v < -(2 ^ 31) ∨ v > 2 ^ 31 - 1 then .int64
  else if v < -(2 ^ 15) ∨ v > 2 ^ 15 - 1 then .int32
  else .int16

def intsetGetEncoded (is : Intset) (pos : ℕ) (enc : Encoding) : ℤ :=
  intOfBytes (slice is.contents (pos * enc.size) enc.size)

/-- `_intsetGet`; `intsetGet` is the one with a bound. -/
def intsetGetAt (is : Intset) (pos : ℕ) : ℤ := intsetGetEncoded is pos is.encoding

def intsetSet (is : Intset) (pos : ℕ) (value : ℤ) : Intset :=
  { is with
    contents := overwrite is.contents (pos * is.encoding.size) (bytesOfInt is.encoding.size value) }

def intsetNew : Intset := ⟨.int16, 0, []⟩

section

variable (fresh : ℕ → UInt8)

def intsetResize (is : Intset) (len : ℕ) : Intset :=
  let size := len * is.encoding.size % 2 ^ 32
  { is with
    contents := is.contents.take size ++ (List.range (size - is.contents.length)).map fresh }

/-- The loop of `intsetSearch`: `min`, `mid` and `cur` at its end. -/
def searchLoop (get : ℕ → ℤ) (value : ℤ) : ℕ → ℤ → ℤ → ℤ → ℤ → ℤ × ℤ × ℤ
  | 0, min, _, mid, cur => (min, mid, cur)
  | fuel + 1, min, max, mid, cur =>
    if max ≥ min then
      let mid := (min + max) / 2
      let cur := get mid.toNat
      if value > cur then searchLoop get value fuel (mid + 1) max mid cur
      else if value < cur then searchLoop get value fuel min (mid - 1) mid cur
      else (min, mid, cur)
    else (min, mid, cur)

/-- `intsetSearch`: whether the value was found, and `*pos`. -/
def intsetSearch (is : Intset) (value : ℤ) : Bool × ℕ :=
  if is.length = 0 then (false, 0)
  else if value > intsetGetAt is (is.length - 1) then (false, is.length)
  else if value < intsetGetAt is 0 then (false, 0)
  else
    let (min, mid, cur) :=
      searchLoop (intsetGetAt is) value (is.length + 1) 0 (is.length - 1) (-1) (-1)
    if value = cur then (true, mid.toNat) else (false, min.toNat)

/-- The loop of `intsetUpgradeAndAdd`. -/
def upgradeLoop (curenc : Encoding) (prepend : ℕ) : ℕ → Intset → Intset
  | 0, is => is
  | length + 1, is =>
    upgradeLoop curenc prepend length
      (intsetSet is (length + prepend) (intsetGetEncoded is length curenc))

/-- `intsetUpgradeAndAdd`: the value is at one end. -/
def intsetUpgradeAndAdd (is : Intset) (value : ℤ) : Intset :=
  let curenc := is.encoding
  let length := is.length
  let prepend := if value < 0 then 1 else 0
  let is := { is with encoding := intsetValueEncoding value }
  let is := intsetResize fresh is (is.length + 1)
  let is := upgradeLoop curenc prepend length is
  let is := if prepend ≠ 0 then intsetSet is 0 value else intsetSet is is.length value
  { is with length := is.length + 1 }

/-- `intsetMoveTail`, with the byte count of `memmove`. -/
def intsetMoveTail (is : Intset) (src dst : ℕ) : Intset :=
  let bytes := (is.length - src) * is.encoding.size % 2 ^ 32
  { is with
    contents := overwrite is.contents (dst * is.encoding.size)
      (slice is.contents (src * is.encoding.size) bytes) }

/-- `intsetAdd`, with `*success`. -/
def intsetAdd (is : Intset) (value : Int64t) : Intset × Bool :=
  if (intsetValueEncoding value.1).size > is.encoding.size then
    (intsetUpgradeAndAdd fresh is value.1, true)
  else
    match intsetSearch is value.1 with
    | (true, _) => (is, false)
    | (false, pos) =>
      let is := intsetResize fresh is (is.length + 1)
      let is := if pos < is.length then intsetMoveTail is pos (pos + 1) else is
      let is := intsetSet is pos value.1
      ({ is with length := is.length + 1 }, true)

/-- `intsetRemove`, with `*success`. -/
def intsetRemove (is : Intset) (value : Int64t) : Intset × Bool :=
  if (intsetValueEncoding value.1).size ≤ is.encoding.size then
    match intsetSearch is value.1 with
    | (true, pos) =>
      let len := is.length
      let is := if pos < len - 1 then intsetMoveTail is (pos + 1) pos else is
      let is := intsetResize fresh is (len - 1)
      ({ is with length := len - 1 }, true)
    | (false, _) => (is, false)
  else (is, false)

end

def intsetFind (is : Intset) (value : Int64t) : Bool :=
  decide ((intsetValueEncoding value.1).size ≤ is.encoding.size) && (intsetSearch is value.1).1

/-- `intsetGet`: `*value`, where the function returns 1. -/
def intsetGet (is : Intset) (pos : ℕ) : Option ℤ :=
  if pos < is.length then some (intsetGetAt is pos) else none

/-! ### Widths -/

/-- The value fits into the width. -/
def Encoding.Fits (e : Encoding) (v : ℤ) : Prop :=
  -(2 ^ (8 * e.size - 1)) ≤ v ∧ v < 2 ^ (8 * e.size - 1)

theorem Encoding.size_pos (e : Encoding) : 0 < e.size := by
  cases e <;> decide

theorem size_intsetValueEncoding_le (v : Int64t) (e : Encoding) :
    (intsetValueEncoding v.1).size ≤ e.size ↔ e.Fits v.1 := by
  obtain ⟨v, hlo, hhi⟩ := v
  rw [intsetValueEncoding, Encoding.Fits]
  dsimp only
  split
  · cases e <;> simp only [Encoding.size] <;> norm_num <;> omega
  · split
    · cases e <;> simp only [Encoding.size] <;> norm_num <;> omega
    · cases e <;> simp only [Encoding.size] <;> norm_num <;> omega

variable {v : ℤ}

theorem Encoding.Fits.mono {e e' : Encoding} (h : e.Fits v) (hle : e.size ≤ e'.size) :
    e'.Fits v := by
  have hpow : (2 : ℤ) ^ (8 * e.size - 1) ≤ 2 ^ (8 * e'.size - 1) :=
    pow_le_pow_right₀ (by norm_num) (by omega)
  exact ⟨(neg_le_neg hpow).trans h.1, h.2.trans_le hpow⟩

/-- A value that does not fit is smaller or larger than all that do. -/
theorem Encoding.Fits.outside {e : Encoding} {u v : ℤ} (hu : e.Fits u) (hv : ¬ e.Fits v) :
    if v < 0 then v < u else u < v := by
  have hpos : (0 : ℤ) < 2 ^ (8 * e.size - 1) := pow_pos (by norm_num) _
  rw [Encoding.Fits, not_and_or, not_le, not_lt] at hv
  obtain ⟨h₁, h₂⟩ := hu
  split <;> omega

/-! ### The array in the block -/

/-- The block holds the values of `l`. -/
structure Holds (is : Intset) (l : List ℤ) : Prop where
  length_eq : is.length = l.length
  bytes : is.contents.length = l.length * is.encoding.size
  entry : ∀ {i v}, l[i]? = some v → intsetGetAt is i = v
  fits : ∀ v ∈ l, is.encoding.Fits v

/-- It holds them in increasing order. -/
structure Repr (is : Intset) (l : List ℤ) : Prop extends Holds is l where
  sorted : l.Pairwise (· < ·)

theorem mul_add_le {i j : ℕ} (h : i < j) (e : ℕ) : i * e + e ≤ j * e := by
  rw [← Nat.succ_mul]
  exact Nat.mul_le_mul_right e h

variable {is : Intset} {l : List ℤ}

/-- The value written at a position is read back. -/
theorem getAt_set_self {pos : ℕ} {v : ℤ} (hpos : pos * is.encoding.size + is.encoding.size ≤
    is.contents.length) (hv : is.encoding.Fits v) : intsetGetAt (intsetSet is pos v) pos = v := by
  have hlen : (bytesOfInt is.encoding.size v).length = is.encoding.size := length_bytesOfInt _ v
  have hslice : slice (overwrite is.contents (pos * is.encoding.size) (bytesOfInt is.encoding.size v))
      (pos * is.encoding.size) (bytesOfInt is.encoding.size v).length =
      bytesOfInt is.encoding.size v :=
    slice_overwrite_self (by omega)
  rw [hlen] at hslice
  rw [intsetGetAt, intsetGetEncoded, intsetSet]
  dsimp only
  rw [hslice, intOfBytes_bytesOfInt is.encoding.size_pos hv.1 hv.2]

/-- A part of the block that is not written is read as before. -/
theorem getEncoded_set_of_disjoint {pos j : ℕ} {v : ℤ} {e : Encoding}
    (hpos : pos * is.encoding.size + is.encoding.size ≤ is.contents.length)
    (hj : j * e.size + e.size ≤ pos * is.encoding.size ∨
      pos * is.encoding.size + is.encoding.size ≤ j * e.size) :
    intsetGetEncoded (intsetSet is pos v) j e = intsetGetEncoded is j e := by
  have hlen : (bytesOfInt is.encoding.size v).length = is.encoding.size := length_bytesOfInt _ v
  rw [intsetGetEncoded, intsetGetEncoded, intsetSet]
  dsimp only
  rcases hj with hj | hj
  · rw [slice_overwrite_of_le (by omega) hj]
  · rw [slice_overwrite_of_ge (by omega) (by omega)]

theorem getAt_set_of_ne {pos j : ℕ}
    (hpos : pos * is.encoding.size + is.encoding.size ≤ is.contents.length) (hj : j ≠ pos) :
    intsetGetAt (intsetSet is pos v) j = intsetGetAt is j := by
  refine getEncoded_set_of_disjoint hpos ?_
  rcases Nat.lt_or_gt_of_ne hj with hj | hj
  · exact Or.inl (mul_add_le hj _)
  · exact Or.inr (mul_add_le hj _)

theorem length_contents_set {pos : ℕ}
    (hpos : pos * is.encoding.size + is.encoding.size ≤ is.contents.length) :
    (intsetSet is pos v).contents.length = is.contents.length := by
  rw [intsetSet]
  exact length_overwrite (by rw [length_bytesOfInt]; omega)

/-! ### `intsetSearch` -/

/-- Where a value is, or where it belongs. -/
def Located (l : List ℤ) (v : ℤ) (r : Bool × ℕ) : Prop :=
  (r.1 = true ∧ l[r.2]? = some v) ∨
    (r.1 = false ∧ r.2 ≤ l.length ∧ (∀ i u, i < r.2 → l[i]? = some u → u < v) ∧
      ∀ i u, r.2 ≤ i → l[i]? = some u → v < u)

theorem lt_of_getElem? (hs : l.Pairwise (· < ·)) {i j : ℕ} {u v : ℤ} (hi : l[i]? = some u)
    (hj : l[j]? = some v) (hij : i < j) : u < v := by
  obtain ⟨hi', rfl⟩ := List.getElem?_eq_some_iff.mp hi
  obtain ⟨hj', rfl⟩ := List.getElem?_eq_some_iff.mp hj
  exact pairwise_iff_getElem.mp hs i j hi' hj' hij

/-- **The loop**: what is below `min` is smaller, what is above `max` is larger. -/
theorem searchLoop_spec {get : ℕ → ℤ} (hget : ∀ {i v}, l[i]? = some v → get i = v)
    (hs : l.Pairwise (· < ·)) (v : ℤ) (fuel : ℕ) :
    ∀ min max mid cur : ℤ, 0 ≤ min → max < l.length → min ≤ max + 1 → max - min + 1 ≤ fuel →
      (∀ (i : ℕ) (u : ℤ), (i : ℤ) < min → l[i]? = some u → u < v) →
      (∀ (i : ℕ) (u : ℤ), max < (i : ℤ) → l[i]? = some u → v < u) → (cur = v → min ≤ max) →
      let r := searchLoop get v fuel min max mid cur
      Located l v (if v = r.2.2 then (true, r.2.1.toNat) else (false, r.1.toNat)) := by
  have hdone : ∀ min max mid cur : ℤ, 0 ≤ min → max < l.length → min = max + 1 →
      (∀ (i : ℕ) (u : ℤ), (i : ℤ) < min → l[i]? = some u → u < v) →
      (∀ (i : ℕ) (u : ℤ), max < (i : ℤ) → l[i]? = some u → v < u) → cur ≠ v →
      Located l v (if v = cur then (true, mid.toNat) else (false, min.toNat)) := by
    intro min max mid cur hmin hmax heq hlow hhigh hcur
    rw [if_neg (Ne.symm hcur)]
    refine Or.inr ⟨rfl, by dsimp only; omega, fun i u hi hu => hlow i u ?_ hu,
      fun i u hi hu => hhigh i u ?_ hu⟩
    · dsimp only at hi
      omega
    · dsimp only at hi
      omega
  induction fuel with
  | zero =>
    intro min max mid cur hmin hmax hle hfuel hlow hhigh hcur
    exact hdone min max mid cur hmin hmax (by omega) hlow hhigh fun e => by
      have := hcur e
      omega
  | succ fuel ih =>
    intro min max mid cur hmin hmax hle hfuel hlow hhigh hcur
    rw [searchLoop]
    by_cases hge : max ≥ min
    · rw [if_pos hge]
      dsimp only
      obtain ⟨m, hm⟩ : ∃ m : ℕ, (min + max) / 2 = m := ⟨((min + max) / 2).toNat, by omega⟩
      rw [hm, Int.toNat_natCast]
      obtain ⟨u, hu⟩ : ∃ u, l[m]? = some u := ⟨_, List.getElem?_eq_getElem (by omega)⟩
      rw [hget hu]
      by_cases hgt : v > u
      · rw [if_pos hgt]
        refine ih _ _ _ _ (by omega) hmax (by omega) (by omega) (fun i u' hi hu' => ?_) hhigh
          (by omega)
        rcases Nat.lt_trichotomy i m with him | rfl | him
        · exact (lt_of_getElem? hs hu' hu him).trans hgt
        · rw [hu, some_inj] at hu'
          exact hu' ▸ hgt
        · omega
      rw [if_neg hgt]
      by_cases hlt : v < u
      · rw [if_pos hlt]
        refine ih _ _ _ _ hmin (by omega) (by omega) (by omega) hlow (fun i u' hi hu' => ?_)
          (by omega)
        rcases Nat.lt_trichotomy i m with him | rfl | him
        · omega
        · rw [hu, some_inj] at hu'
          exact hu' ▸ hlt
        · exact hlt.trans (lt_of_getElem? hs hu hu' him)
      · rw [if_neg hlt]
        have hvu : v = u := by omega
        dsimp only
        rw [if_pos hvu, Int.toNat_natCast]
        exact Or.inl ⟨rfl, hvu ▸ hu⟩
    · rw [if_neg hge]
      exact hdone min max mid cur hmin hmax (by omega) hlow hhigh fun e => hge (hcur e)

theorem intsetSearch_spec (h : Repr is l) (v : ℤ) : Located l v (intsetSearch is v) := by
  have hlen := h.length_eq
  rw [intsetSearch]
  by_cases hz : is.length = 0
  · rw [if_pos hz]
    have hnil : l = [] := length_eq_zero_iff.mp (by omega)
    exact Or.inr ⟨rfl, Nat.zero_le _, fun i u hi => absurd hi (Nat.not_lt_zero i),
      fun i u _ hu => by rw [hnil] at hu; cases hu⟩
  rw [if_neg hz]
  obtain ⟨last, hlast⟩ : ∃ u, l[is.length - 1]? = some u := ⟨_, List.getElem?_eq_getElem (by omega)⟩
  obtain ⟨first, hfirst⟩ : ∃ u, l[0]? = some u := ⟨_, List.getElem?_eq_getElem (by omega)⟩
  rw [h.entry hlast, h.entry hfirst]
  by_cases hgt : v > last
  · rw [if_pos hgt]
    refine Or.inr ⟨rfl, by dsimp only; omega, fun i u _ hu => ?_, fun i u hi hu => ?_⟩
    · have hi := (List.getElem?_eq_some_iff.mp hu).1
      rcases Nat.lt_or_ge i (is.length - 1) with hil | hil
      · exact (lt_of_getElem? h.sorted hu hlast hil).trans hgt
      · rw [show i = is.length - 1 by omega, hlast, some_inj] at hu
        exact hu ▸ hgt
    · have hlt := (List.getElem?_eq_some_iff.mp hu).1
      dsimp only at hi
      omega
  rw [if_neg hgt]
  by_cases hlt : v < first
  · rw [if_pos hlt]
    refine Or.inr ⟨rfl, Nat.zero_le _, fun i u hi => absurd hi (Nat.not_lt_zero i),
      fun i u _ hu => ?_⟩
    rcases Nat.eq_zero_or_pos i with rfl | hi
    · rw [hfirst, some_inj] at hu
      exact hu ▸ hlt
    · exact hlt.trans (lt_of_getElem? h.sorted hfirst hu hi)
  rw [if_neg hlt]
  -- `v` may be the first value of `cur`, but the loop runs at least once.
  refine searchLoop_spec h.entry h.sorted v (is.length + 1) 0 (is.length - 1) (-1) (-1) le_rfl
    (by omega) (by omega) (by omega) (fun i u hi => ?_) (fun i u hi hu => ?_) fun _ => by omega
  · omega
  · have hlt := (List.getElem?_eq_some_iff.mp hu).1
    omega

theorem Located.found_iff {r : Bool × ℕ} (h : Located l v r) : r.1 = decide (v ∈ l) := by
  rcases h with ⟨hr, hget⟩ | ⟨hr, -, hlow, hhigh⟩
  · rw [hr, eq_comm, decide_eq_true_eq]
    exact mem_of_getElem? hget
  · rw [hr, eq_comm, decide_eq_false_iff_not]
    intro hv
    obtain ⟨i, hi⟩ := mem_iff_getElem?.mp hv
    rcases Nat.lt_or_ge i r.2 with hlt | hge
    · exact lt_irrefl v (hlow i v hlt hi)
    · exact lt_irrefl v (hhigh i v hge hi)

/-! ### Adding -/

variable {fresh : ℕ → UInt8}

theorem length_contents_resize (len : ℕ) (h : len * is.encoding.size < 2 ^ 32) :
    (intsetResize fresh is len).contents.length = len * is.encoding.size := by
  rw [intsetResize, Nat.mod_eq_of_lt h]
  dsimp only
  rw [length_append, length_take, length_map, length_range]
  omega

theorem getEncoded_resize {len j : ℕ} {e : Encoding} (h : len * is.encoding.size < 2 ^ 32)
    (hj : j * e.size + e.size ≤ is.contents.length)
    (hlen : j * e.size + e.size ≤ len * is.encoding.size) :
    intsetGetEncoded (intsetResize fresh is len) j e = intsetGetEncoded is j e := by
  rw [intsetGetEncoded, intsetGetEncoded, intsetResize, Nat.mod_eq_of_lt h]
  dsimp only
  congr 1
  refine slice_eq_slice fun k hk => ?_
  rw [List.getElem?_append_left (by rw [length_take]; omega),
    List.getElem?_take_of_lt (by omega)]

/-- **Re-encoding**, from back to front: a value is read before its bytes are overwritten. -/
theorem upgradeLoop_spec (curenc : Encoding) (prepend k : ℕ) :
    ∀ is : Intset, curenc.size ≤ is.encoding.size →
      (k + prepend) * is.encoding.size ≤ is.contents.length → k ≤ l.length →
      (∀ {i v}, i < k → l[i]? = some v → intsetGetEncoded is i curenc = v) →
      (∀ v ∈ l, is.encoding.Fits v) →
      let is' := upgradeLoop curenc prepend k is
      is'.encoding = is.encoding ∧ is'.length = is.length ∧
        is'.contents.length = is.contents.length ∧
        (∀ {i v}, i < k → l[i]? = some v → intsetGetAt is' (i + prepend) = v) ∧
        ∀ j, k + prepend ≤ j → intsetGetAt is' j = intsetGetAt is j := by
  induction k with
  | zero =>
    intro is _ _ _ _ _
    exact ⟨rfl, rfl, rfl, fun hi => absurd hi (Nat.not_lt_zero _), fun _ _ => rfl⟩
  | succ k ih =>
    intro is hsize hlen hk hold hfits
    obtain ⟨v, hv⟩ : ∃ v, l[k]? = some v := ⟨_, List.getElem?_eq_getElem (by omega)⟩
    have hpos : (k + prepend) * is.encoding.size + is.encoding.size ≤ is.contents.length := by
      rw [Nat.add_right_comm, Nat.succ_mul] at hlen
      exact hlen
    rw [upgradeLoop, hold (Nat.lt_succ_self k) hv]
    have hlen' := length_contents_set (v := v) hpos
    have hread : ∀ {i u}, i < k → l[i]? = some u →
        intsetGetEncoded (intsetSet is (k + prepend) v) i curenc = u := by
      intro i u hi hu
      have hle : i * curenc.size + curenc.size ≤ (k + prepend) * is.encoding.size :=
        calc i * curenc.size + curenc.size ≤ k * curenc.size := mul_add_le hi _
          _ ≤ (k + prepend) * is.encoding.size := Nat.mul_le_mul (by omega) hsize
      rw [getEncoded_set_of_disjoint hpos (Or.inl hle)]
      exact hold (by omega) hu
    obtain ⟨h₁, h₂, h₃, h₄, h₅⟩ := ih (intsetSet is (k + prepend) v) hsize
      (by rw [hlen']; exact le_trans (Nat.le_add_right ..) hpos) (by omega) hread hfits
    refine ⟨h₁, h₂, h₃.trans hlen', fun {i u} hi hu => ?_, fun j hj => ?_⟩
    · rcases Nat.lt_succ_iff_lt_or_eq.mp hi with hi | rfl
      · exact h₄ hi hu
      · rw [h₅ _ le_rfl, getAt_set_self hpos (hfits v (mem_of_getElem? hv))]
        rw [hv, some_inj] at hu
        exact hu
    · rw [h₅ j (by omega), getAt_set_of_ne hpos (by omega)]

theorem sorted_insertIdx (hs : l.Pairwise (· < ·)) {p : ℕ} (hp : p ≤ l.length)
    (hlow : ∀ i u, i < p → l[i]? = some u → u < v) (hhigh : ∀ i u, p ≤ i → l[i]? = some u → v < u) :
    (l.insertIdx p v).Pairwise (· < ·) := by
  rw [pairwise_iff_getElem]
  intro i j hi hj hij
  have hget : ∀ {k u}, (l.insertIdx p v)[k]? = some u →
      (k < p ∧ l[k]? = some u) ∨ (k = p ∧ u = v) ∨ (p < k ∧ l[k - 1]? = some u) := by
    intro k u hk
    rw [List.getElem?_insertIdx] at hk
    split at hk
    · exact Or.inl ⟨‹_›, hk⟩
    · split at hk
      · rw [if_pos (by omega), some_inj] at hk
        exact Or.inr (Or.inl ⟨‹_›, hk.symm⟩)
      · exact Or.inr (Or.inr ⟨by omega, hk⟩)
  rcases hget (List.getElem?_eq_getElem hi) with ⟨hip, hiu⟩ | ⟨hip, hiu⟩ | ⟨hip, hiu⟩ <;>
    rcases hget (List.getElem?_eq_getElem hj) with ⟨hjp, hju⟩ | ⟨hjp, hju⟩ | ⟨hjp, hju⟩
  · exact lt_of_getElem? hs hiu hju hij
  · exact (hlow i _ hip hiu).trans_eq hju.symm
  · exact lt_of_getElem? hs hiu hju (by omega)
  · omega
  · omega
  · exact hiu.trans_lt (hhigh (j - 1) _ (by omega) hju)
  · omega
  · omega
  · exact lt_of_getElem? hs hiu hju (by omega)

theorem mul_size_lt {n : ℕ} (h : n < 2 ^ 28) (e : Encoding) : n * e.size < 2 ^ 32 := by
  have hsize : e.size ≤ 8 := by cases e <;> decide
  calc n * e.size ≤ n * 8 := Nat.mul_le_mul_left n hsize
    _ < 2 ^ 32 := by omega

variable (is) in
/-- **Moving the tail**: the values from `src` on are read at `dst`. -/
theorem getAt_moveTail (src dst : ℕ) (hlen : (is.length - src) * is.encoding.size < 2 ^ 32)
    (hsrc : src ≤ is.length) (hbytes : is.length * is.encoding.size ≤ is.contents.length)
    (hdst : (dst + (is.length - src)) * is.encoding.size ≤ is.contents.length) :
    (intsetMoveTail is src dst).contents.length = is.contents.length ∧
      (∀ j < dst, intsetGetAt (intsetMoveTail is src dst) j = intsetGetAt is j) ∧
      ∀ k < is.length - src,
        intsetGetAt (intsetMoveTail is src dst) (dst + k) = intsetGetAt is (src + k) := by
  have hsum : src * is.encoding.size + (is.length - src) * is.encoding.size =
      is.length * is.encoding.size := by
    rw [← Nat.add_mul, Nat.add_sub_cancel' hsrc]
  rw [Nat.add_mul] at hdst
  have hslice : (slice is.contents (src * is.encoding.size)
      ((is.length - src) * is.encoding.size)).length = (is.length - src) * is.encoding.size :=
    length_slice (by omega)
  rw [intsetMoveTail, Nat.mod_eq_of_lt hlen]
  refine ⟨length_overwrite (by omega), fun j hj => ?_, fun k hk => ?_⟩
  · rw [intsetGetAt, intsetGetAt, intsetGetEncoded, intsetGetEncoded]
    dsimp only
    rw [slice_overwrite_of_le (by omega) (mul_add_le hj _)]
  · have hle := mul_add_le hk is.encoding.size
    rw [intsetGetAt, intsetGetAt, intsetGetEncoded, intsetGetEncoded]
    dsimp only
    rw [Nat.add_mul, slice_overwrite_of_mem (by omega) (by omega), slice_slice hle, Nat.add_mul]

theorem add_holds (h : Holds is l) {p : ℕ} (hp : p ≤ l.length) (hv : is.encoding.Fits v)
    (hsize : l.length + 1 < 2 ^ 28) :
    let is₁ := intsetResize fresh is (is.length + 1)
    let is₂ := if p < is₁.length then intsetMoveTail is₁ p (p + 1) else is₁
    let is₃ := intsetSet is₂ p v
    Holds { is₃ with length := is₃.length + 1 } (l.insertIdx p v) := by
  intro is₁ is₂ is₃
  have hlen : is₁.length = l.length := h.length_eq
  have henc : is₁.encoding = is.encoding := rfl
  have hbytes₁ : is₁.contents.length = (l.length + 1) * is.encoding.size := by
    show (intsetResize fresh is (is.length + 1)).contents.length = _
    rw [h.length_eq]
    exact length_contents_resize _ (mul_size_lt hsize _)
  have hget₁ : ∀ j < l.length, intsetGetAt is₁ j = intsetGetAt is j := by
    intro j hj
    have hle := mul_add_le hj is.encoding.size
    refine getEncoded_resize ?_ ?_ ?_
    · rw [h.length_eq]
      exact mul_size_lt hsize _
    · rw [h.bytes]
      exact hle
    · rw [h.length_eq, Nat.succ_mul]
      exact hle.trans (Nat.le_add_right ..)
  -- After the tail is moved, place `p` is free.
  obtain ⟨henc₂, hlen₂, hbytes₂, hlow₂, hhigh₂⟩ : is₂.encoding = is.encoding ∧ is₂.length = l.length ∧
      is₂.contents.length = (l.length + 1) * is.encoding.size ∧
      (∀ j < p, intsetGetAt is₂ j = intsetGetAt is j) ∧
      ∀ k, p + k < l.length → intsetGetAt is₂ (p + 1 + k) = intsetGetAt is (p + k) := by
    by_cases hplt : p < is₁.length
    · have heq : is₂ = intsetMoveTail is₁ p (p + 1) := if_pos hplt
      obtain ⟨h₁, h₂, h₃⟩ := getAt_moveTail is₁ p (p + 1)
        (by rw [hlen, henc]; exact mul_size_lt (by omega) _) hplt.le
        (by rw [hlen, henc, hbytes₁]; exact Nat.mul_le_mul_right _ (by omega))
        (by rw [hlen, henc, hbytes₁]; exact Nat.mul_le_mul_right _ (by omega))
      rw [heq]
      refine ⟨rfl, hlen, h₁.trans hbytes₁, fun j hj => ?_, fun k hk => ?_⟩
      · rw [h₂ j (by omega), hget₁ j (by omega)]
      · rw [h₃ k (by omega), hget₁ (p + k) hk]
    · have heq : is₂ = is₁ := if_neg hplt
      rw [heq]
      exact ⟨rfl, hlen, hbytes₁, fun j hj => hget₁ j (by omega), fun k hk => by omega⟩
  have hpos : p * is₂.encoding.size + is₂.encoding.size ≤ is₂.contents.length := by
    rw [henc₂, hbytes₂]
    exact mul_add_le (by omega) _
  refine ⟨?_, ?_, fun {i u} hu => ?_, fun u hu => ?_⟩
  · rw [length_insertIdx_of_le_length hp]
    exact congrArg (· + 1) hlen₂
  · rw [length_insertIdx_of_le_length hp]
    show is₃.contents.length = _ * is₂.encoding.size
    rw [length_contents_set hpos, hbytes₂, henc₂]
  · show intsetGetAt is₃ i = u
    rw [List.getElem?_insertIdx] at hu
    split at hu
    · rw [getAt_set_of_ne hpos (by omega), hlow₂ i ‹_›, h.entry hu]
    · split at hu
      · rename_i hip
        rw [if_pos (by omega), some_inj] at hu
        rw [hip, getAt_set_self hpos (henc₂ ▸ hv)]
        exact hu
      · obtain ⟨k, rfl⟩ : ∃ k, i = p + 1 + k := ⟨i - (p + 1), by omega⟩
        rw [show p + 1 + k - 1 = p + k by omega] at hu
        have hlt := (List.getElem?_eq_some_iff.mp hu).1
        rw [getAt_set_of_ne hpos (by omega), hhigh₂ k hlt, h.entry hu]
  · show is₂.encoding.Fits u
    rw [henc₂]
    rcases (mem_insertIdx hp).mp hu with rfl | hu
    · exact hv
    · exact h.fits u hu

variable (fresh) in
/-- **`intsetUpgradeAndAdd`** puts a wider value at one of the ends. -/
theorem intsetUpgradeAndAdd_spec (h : Repr is l) {v : Int64t} (hv : ¬ is.encoding.Fits v.1)
    (hsize : l.length + 1 < 2 ^ 28) :
    let is' := intsetUpgradeAndAdd fresh is v.1
    is'.encoding = intsetValueEncoding v.1 ∧
      Repr is' (l.insertIdx (if v.1 < 0 then 0 else l.length) v.1) := by
  have hle : is.encoding.size ≤ (intsetValueEncoding v.1).size := by
    rw [← size_intsetValueEncoding_le] at hv
    omega
  have hvfits : (intsetValueEncoding v.1).Fits v.1 := (size_intsetValueEncoding_le v _).mp le_rfl
  have hfits : ∀ u ∈ l, (intsetValueEncoding v.1).Fits u := fun u hu => (h.fits u hu).mono hle
  have hprepend : (if v.1 < 0 then 1 else 0) ≤ 1 := by split <;> omega
  rw [intsetUpgradeAndAdd]
  dsimp only
  generalize hp : (if v.1 < 0 then 1 else 0) = prepend at *
  have hlt := mul_size_lt hsize (intsetValueEncoding v.1)
  -- The block is larger, and its old part is as before.
  obtain ⟨is₁, his₁⟩ : ∃ is₁, intsetResize fresh { is with encoding := intsetValueEncoding v.1 }
      (is.length + 1) = is₁ := ⟨_, rfl⟩
  have henc₁ : is₁.encoding = intsetValueEncoding v.1 := by rw [← his₁, intsetResize]
  have hlen₁ : is₁.length = l.length := by
    rw [← his₁, intsetResize]
    exact h.length_eq
  have hbytes₁ : is₁.contents.length = (l.length + 1) * (intsetValueEncoding v.1).size := by
    rw [← his₁, h.length_eq]
    exact length_contents_resize _ hlt
  have hread : ∀ {i u}, i < l.length → l[i]? = some u →
      intsetGetEncoded is₁ i is.encoding = u := by
    intro i u hi hu
    have hmul := mul_add_le hi is.encoding.size
    have hold : l.length * is.encoding.size ≤ (l.length + 1) * (intsetValueEncoding v.1).size :=
      Nat.mul_le_mul (by omega) hle
    rw [← his₁, getEncoded_resize]
    · exact h.entry hu
    · rw [h.length_eq]
      exact hlt
    · rw [h.bytes]
      exact hmul
    · rw [h.length_eq]
      exact hmul.trans hold
  obtain ⟨henc₂, hlen₂, hbytes₂, hentry₂, -⟩ := upgradeLoop_spec is.encoding prepend
    l.length is₁ (by rw [henc₁]; exact hle)
    (by rw [henc₁, hbytes₁]; exact Nat.mul_le_mul_right _ (by omega)) le_rfl hread
    (by rw [henc₁]; exact hfits)
  rw [his₁, h.length_eq]
  generalize upgradeLoop is.encoding prepend l.length is₁ = is₂ at *
  rw [henc₁] at henc₂
  rw [hbytes₁] at hbytes₂
  rw [hlen₁] at hlen₂
  -- The value goes to the place that is left.
  have hplace : (if prepend ≠ 0 then intsetSet is₂ 0 v.1 else intsetSet is₂ is₂.length v.1) =
      intsetSet is₂ (if v.1 < 0 then 0 else l.length) v.1 := by
    rw [← hp, hlen₂]
    split <;> rfl
  rw [hplace]
  generalize hq : (if v.1 < 0 then 0 else l.length) = q
  have hql : q ≤ l.length ∧ (∀ i < l.length, i + prepend = if i < q then i else i + 1) := by
    rw [← hq, ← hp]
    split
    · exact ⟨Nat.zero_le _, fun i _ => (if_neg (Nat.not_lt_zero i)).symm⟩
    · exact ⟨le_rfl, fun i hi => (if_pos hi).symm⟩
  have hpos : q * is₂.encoding.size + is₂.encoding.size ≤ is₂.contents.length := by
    rw [henc₂, hbytes₂]
    exact mul_add_le (by omega) _
  refine ⟨henc₂, ⟨?_, ?_, fun {i u} hu => ?_, fun u hu => ?_⟩, ?_⟩
  · rw [length_insertIdx_of_le_length hql.1]
    exact congrArg (· + 1) hlen₂
  · rw [length_insertIdx_of_le_length hql.1]
    show (intsetSet is₂ q v.1).contents.length = _ * is₂.encoding.size
    rw [length_contents_set hpos, hbytes₂, henc₂]
  · show intsetGetAt (intsetSet is₂ q v.1) i = u
    rw [List.getElem?_insertIdx] at hu
    split at hu
    · rename_i hiq
      have hil := (List.getElem?_eq_some_iff.mp hu).1
      have hentry := hentry₂ hil hu
      rw [hql.2 i hil, if_pos hiq] at hentry
      rw [getAt_set_of_ne hpos (by omega), hentry]
    · split at hu
      · rename_i hiq
        rw [if_pos (by omega), some_inj] at hu
        rw [hiq, getAt_set_self hpos (henc₂ ▸ hvfits)]
        exact hu
      · have hil := (List.getElem?_eq_some_iff.mp hu).1
        have hentry := hentry₂ hil hu
        rw [hql.2 _ hil, if_neg (by omega), Nat.sub_add_cancel (by omega)] at hentry
        rw [getAt_set_of_ne hpos (by omega), hentry]
  · show is₂.encoding.Fits u
    rw [henc₂]
    rcases (mem_insertIdx hql.1).mp hu with rfl | hu
    · exact hvfits
    · exact hfits u hu
  · refine sorted_insertIdx h.sorted hql.1 (fun i u hi hu => ?_) fun i u hi hu => ?_
    · have hout := (h.fits u (mem_of_getElem? hu)).outside hv
      rw [← hq] at hi
      split at hi
      · exact absurd hi (Nat.not_lt_zero i)
      · rwa [if_neg ‹_›] at hout
    · have hout := (h.fits u (mem_of_getElem? hu)).outside hv
      have hil := (List.getElem?_eq_some_iff.mp hu).1
      rw [← hq] at hi
      split at hi
      · rwa [if_pos ‹_›] at hout
      · omega

theorem toFinset_insertIdx {p : ℕ} (hp : p ≤ l.length) (v : ℤ) :
    (l.insertIdx p v).toFinset = insert v l.toFinset := by
  ext u
  rw [Finset.mem_insert, List.mem_toFinset, List.mem_toFinset, mem_insertIdx hp]

/-- The wider of two encodings. -/
def Encoding.max (e e' : Encoding) : Encoding := if e'.size > e.size then e' else e

variable (fresh) in
theorem intsetAdd_spec (h : Repr is l) (v : Int64t) (hsize : (insert v.1 l.toFinset).card < 2 ^ 28) :
    let r := intsetAdd fresh is v
    r.1.encoding = is.encoding.max (intsetValueEncoding v.1) ∧ r.2 = decide (v.1 ∉ l) ∧
      ∃ l', Repr r.1 l' ∧ l'.toFinset = insert v.1 l.toFinset := by
  have hcard : ∀ {x : ℤ}, x ∉ l → (insert x l.toFinset).card = l.length + 1 := by
    intro x hx
    rw [Finset.card_insert_of_notMem (by rwa [List.mem_toFinset]),
      toFinset_card_of_nodup (h.sorted.imp fun hab => hab.ne)]
  rw [intsetAdd, Encoding.max]
  by_cases hgt : (intsetValueEncoding v.1).size > is.encoding.size
  · rw [if_pos hgt, if_pos hgt]
    have hv : ¬ is.encoding.Fits v.1 := by
      rw [← size_intsetValueEncoding_le]
      omega
    have hnot : v.1 ∉ l := fun hmem => hv (h.fits _ hmem)
    rw [hcard hnot] at hsize
    obtain ⟨henc, hrepr⟩ := intsetUpgradeAndAdd_spec fresh h hv hsize
    refine ⟨henc, by simp [hnot], _, hrepr, toFinset_insertIdx ?_ _⟩
    split <;> omega
  rw [if_neg hgt, if_neg hgt]
  have hv : is.encoding.Fits v.1 := (size_intsetValueEncoding_le v _).mp (by omega)
  have hloc := intsetSearch_spec h v.1
  have hfound := hloc.found_iff
  generalize intsetSearch is v.1 = r at *
  obtain ⟨found, pos⟩ := r
  dsimp only at hfound
  cases found with
  | true =>
    have hmem : v.1 ∈ l := by simpa using hfound.symm
    exact ⟨rfl, by simp [hmem], l, h, (Finset.insert_eq_of_mem (List.mem_toFinset.mpr hmem)).symm⟩
  | false =>
    have hnot : v.1 ∉ l := by simpa using hfound.symm
    rw [hcard hnot] at hsize
    obtain ⟨hfalse, -⟩ | ⟨-, hp, hlow, hhigh⟩ := hloc
    · cases hfalse
    have henc : ∀ is₁ : Intset, (if pos < is₁.length then intsetMoveTail is₁ pos (pos + 1)
        else is₁).encoding = is₁.encoding := by
      intro is₁
      split <;> rfl
    refine ⟨henc _, by simp [hnot], _, ⟨add_holds h.toHolds hp hv hsize, ?_⟩,
      toFinset_insertIdx hp _⟩
    exact sorted_insertIdx h.sorted hp hlow hhigh

/-! ### Removing -/

theorem remove_holds (h : Holds is l) {p : ℕ} (hp : p < l.length) (hsize : l.length < 2 ^ 28) :
    let is₁ := if p < is.length - 1 then intsetMoveTail is (p + 1) p else is
    let is₂ := intsetResize fresh is₁ (is.length - 1)
    Holds { is₂ with length := is.length - 1 } (l.eraseIdx p) := by
  intro is₁ is₂
  have hlen := h.length_eq
  obtain ⟨henc₁, hbytes₁, hlow₁, hhigh₁⟩ : is₁.encoding = is.encoding ∧
      is₁.contents.length = l.length * is.encoding.size ∧
      (∀ j < p, intsetGetAt is₁ j = intsetGetAt is j) ∧
      ∀ k, p + 1 + k < l.length → intsetGetAt is₁ (p + k) = intsetGetAt is (p + 1 + k) := by
    by_cases hplt : p < is.length - 1
    · have heq : is₁ = intsetMoveTail is (p + 1) p := if_pos hplt
      obtain ⟨h₁, h₂, h₃⟩ := getAt_moveTail is (p + 1) p
        (mul_size_lt (by omega) _) (by omega) (by rw [hlen, h.bytes])
        (by rw [h.bytes]; exact Nat.mul_le_mul_right _ (by omega))
      rw [heq]
      exact ⟨rfl, h₁.trans h.bytes, h₂, fun k hk => h₃ k (by omega)⟩
    · have heq : is₁ = is := if_neg hplt
      rw [heq]
      exact ⟨rfl, h.bytes, fun _ _ => rfl, fun k hk => by omega⟩
  have hlt : (is.length - 1) * is₁.encoding.size < 2 ^ 32 := mul_size_lt (by omega) _
  have herase : (l.eraseIdx p).length = l.length - 1 := length_eraseIdx_of_lt hp
  have hget₂ : ∀ j < l.length - 1, intsetGetAt is₂ j = intsetGetAt is₁ j := by
    intro j hj
    refine getEncoded_resize hlt ?_ ?_
    · show j * is₁.encoding.size + is₁.encoding.size ≤ _
      rw [hbytes₁, henc₁]
      exact mul_add_le (by omega) _
    · exact mul_add_le (by omega) _
  refine ⟨by rw [herase, ← hlen], ?_, fun {i u} hu => ?_, fun u hu => ?_⟩
  · rw [herase, ← hlen]
    exact length_contents_resize _ hlt
  · show intsetGetAt is₂ i = u
    have hi := (List.getElem?_eq_some_iff.mp hu).1
    rw [herase] at hi
    rw [hget₂ i hi]
    rcases Nat.lt_or_ge i p with hip | hip
    · rw [List.getElem?_eraseIdx_of_lt hip] at hu
      rw [hlow₁ i hip, h.entry hu]
    · obtain ⟨k, rfl⟩ : ∃ k, i = p + k := ⟨i - p, by omega⟩
      rw [List.getElem?_eraseIdx_of_ge hip, show p + k + 1 = p + 1 + k by omega] at hu
      rw [hhigh₁ k (by omega), h.entry hu]
  · show is₁.encoding.Fits u
    rw [henc₁]
    exact h.fits u (mem_of_mem_eraseIdx hu)

variable (fresh) in
theorem intsetRemove_spec (h : Repr is l) (v : Int64t) (hsize : l.toFinset.card < 2 ^ 28) :
    let r := intsetRemove fresh is v
    r.1.encoding = is.encoding ∧ r.2 = decide (v.1 ∈ l) ∧
      ∃ l', Repr r.1 l' ∧ l'.toFinset = l.toFinset.erase v.1 := by
  have hnodup : l.Nodup := h.sorted.imp fun hab => hab.ne
  have hkeep : v.1 ∉ l → l.toFinset = l.toFinset.erase v.1 := fun hnot =>
    (Finset.erase_eq_of_notMem (by rwa [List.mem_toFinset])).symm
  rw [intsetRemove]
  by_cases hle : (intsetValueEncoding v.1).size ≤ is.encoding.size
  · rw [if_pos hle]
    have hloc := intsetSearch_spec h v.1
    have hfound := hloc.found_iff
    generalize intsetSearch is v.1 = r at *
    obtain ⟨found, pos⟩ := r
    dsimp only at hfound
    cases found with
    | true =>
      have hmem : v.1 ∈ l := by simpa using hfound.symm
      obtain ⟨-, hget⟩ | ⟨hfalse, -⟩ := hloc
      · obtain ⟨hp, hpv⟩ := List.getElem?_eq_some_iff.mp hget
        have henc : (if pos < is.length - 1 then intsetMoveTail is (pos + 1) pos
            else is).encoding = is.encoding := by
          split <;> rfl
        rw [toFinset_card_of_nodup hnodup] at hsize
        have heq : l.eraseIdx pos = l.erase v.1 := by
          rw [← hpv, hnodup.erase_getElem]
        refine ⟨henc, by simp [hmem], _, ⟨remove_holds h.toHolds hp hsize, ?_⟩, ?_⟩
        · exact h.sorted.sublist (eraseIdx_sublist ..)
        · ext u
          rw [heq, List.mem_toFinset, hnodup.mem_erase_iff, Finset.mem_erase, List.mem_toFinset]
      · cases hfalse
    | false =>
      have hnot : v.1 ∉ l := by simpa using hfound.symm
      exact ⟨rfl, by simp [hnot], l, h, hkeep hnot⟩
  · rw [if_neg hle]
    have hnot : v.1 ∉ l := fun hmem => hle ((size_intsetValueEncoding_le v _).mpr (h.fits _ hmem))
    exact ⟨rfl, by simp [hnot], l, h, hkeep hnot⟩

theorem intsetFind_spec (h : Repr is l) (v : Int64t) : intsetFind is v = decide (v.1 ∈ l) := by
  rw [intsetFind, (intsetSearch_spec h v.1).found_iff]
  by_cases hmem : v.1 ∈ l
  · have hle := (size_intsetValueEncoding_le v _).mpr (h.fits _ hmem)
    simp [hmem, hle]
  · simp [hmem]

/-! ### Runs -/

/-- A call. -/
inductive Op where
  | add (v : Int64t)
  | remove (v : Int64t)

/-- One call, with `*success`. -/
def step (fresh : ℕ → UInt8) (is : Intset) : Op → Intset × Bool
  | .add v => intsetAdd fresh is v
  | .remove v => intsetRemove fresh is v

/-- What the call does to a finite set. -/
def Op.apply (S : Finset ℤ) : Op → Finset ℤ
  | .add v => insert v.1 S
  | .remove v => S.erase v.1

/-- The encoding a call asks for. -/
def Op.widen (e : Encoding) : Op → Encoding
  | .add v => e.max (intsetValueEncoding v.1)
  | .remove _ => e

/-- An integer set that is the finite set `S`. -/
structure IsSet (is : Intset) (S : Finset ℤ) : Prop where
  length_eq : is.length = S.card
  sorted : (List.range is.length).map (intsetGetAt is) = S.sort (· ≤ ·)
  fits : ∀ v ∈ S, is.encoding.Fits v
  find : ∀ v, intsetFind is v = decide (v.1 ∈ S)
  get : ∀ pos, intsetGet is pos = (S.sort (· ≤ ·))[pos]?

theorem Repr.isSet (h : Repr is l) : IsSet is l.toFinset := by
  have hsort : l.toFinset.sort (· ≤ ·) = l :=
    (toFinset_sort (· ≤ ·) (h.sorted.imp fun hab => hab.ne)).mpr (h.sorted.imp fun hab => hab.le)
  have hget : ∀ pos, intsetGet is pos = l[pos]? := by
    intro pos
    rw [intsetGet, h.length_eq]
    by_cases hpos : pos < l.length
    · rw [if_pos hpos, List.getElem?_eq_getElem hpos, h.entry (List.getElem?_eq_getElem hpos)]
    · rw [if_neg hpos, List.getElem?_eq_none (by omega)]
  refine ⟨?_, ?_, fun v hv => h.fits v (List.mem_toFinset.mp hv), fun v => ?_, fun pos => ?_⟩
  · rw [h.length_eq, toFinset_card_of_nodup (h.sorted.imp fun hab => hab.ne)]
  · rw [hsort, h.length_eq]
    refine ext_getElem (by simp) fun i hi hi' => ?_
    rw [getElem_map, getElem_range, h.entry (List.getElem?_eq_getElem hi')]
  · rw [intsetFind_spec h v]
    simp
  · rw [hsort, hget]

/-- Every call returns, with fewer than `2 ^ 28` members, what the finite set says. -/
def Refines (fresh : ℕ → UInt8) : Intset → Finset ℤ → Encoding → List Op → Prop
  | is, S, e, [] => IsSet is S ∧ is.encoding = e
  | is, S, e, op :: ops =>
    IsSet is S ∧ is.encoding = e ∧ (step fresh is op).2 = decide (op.apply S ≠ S) ∧
      Refines fresh (step fresh is op).1 (op.apply S) (op.widen e) ops

/-- The set has fewer than `2 ^ 28` members all along. -/
def Small : Finset ℤ → List Op → Prop
  | S, [] => S.card < 2 ^ 28
  | S, op :: ops => S.card < 2 ^ 28 ∧ Small (op.apply S) ops

instance Small.decidable : (S : Finset ℤ) → (ops : List Op) → Decidable (Small S ops)
  | S, [] => inferInstanceAs (Decidable (S.card < 2 ^ 28))
  | S, op :: ops =>
    have : Decidable (Small (op.apply S) ops) := Small.decidable (op.apply S) ops
    inferInstanceAs (Decidable (S.card < 2 ^ 28 ∧ _))

theorem Small.card {S : Finset ℤ} {ops : List Op} (h : Small S ops) : S.card < 2 ^ 28 := by
  cases ops with
  | nil => exact h
  | cons _ _ => exact h.1

variable (fresh) in
/-- **One call.** -/
theorem step_spec (h : Repr is l) (op : Op) (hsize : l.toFinset.card < 2 ^ 28)
    (hsize' : (op.apply l.toFinset).card < 2 ^ 28) :
    (step fresh is op).1.encoding = op.widen is.encoding ∧
      (step fresh is op).2 = decide (op.apply l.toFinset ≠ l.toFinset) ∧
      ∃ l', Repr (step fresh is op).1 l' ∧ l'.toFinset = op.apply l.toFinset := by
  cases op with
  | add v =>
    obtain ⟨henc, hsucc, hl⟩ := intsetAdd_spec fresh h v hsize'
    refine ⟨henc, hsucc.trans ?_, hl⟩
    rw [decide_eq_decide, Op.apply, ne_eq, Finset.insert_eq_self, List.mem_toFinset]
  | remove v =>
    obtain ⟨henc, hsucc, hl⟩ := intsetRemove_spec fresh h v hsize
    refine ⟨henc, hsucc.trans ?_, hl⟩
    rw [decide_eq_decide, Op.apply, ne_eq, Finset.erase_eq_self, List.mem_toFinset, not_not]

theorem run_spec (ops : List Op) :
    ∀ {is : Intset} {l : List ℤ}, Repr is l → Small l.toFinset ops →
      Refines fresh is l.toFinset is.encoding ops := by
  induction ops with
  | nil => exact fun h _ => ⟨h.isSet, rfl⟩
  | cons op ops ih =>
    intro is l h hsmall
    obtain ⟨henc, hsucc, l', hl', heq⟩ := step_spec fresh h op hsmall.1 hsmall.2.card
    refine ⟨h.isSet, rfl, hsucc, ?_⟩
    rw [← heq, ← henc]
    exact ih hl' (heq ▸ hsmall.2)

theorem repr_intsetNew : Repr intsetNew [] :=
  ⟨⟨rfl, rfl, (nomatch ·), fun _ => (nomatch ·)⟩, List.Pairwise.nil⟩

/-- **An integer set is a finite set**, in every state of a run from `intsetNew`. -/
theorem intset_run (fresh : ℕ → UInt8) (ops : List Op) (h : Small ∅ ops) :
    Refines fresh intsetNew ∅ .int16 ops :=
  run_spec ops repr_intsetNew h

/-- A value that needs 32 bits is put before one that needs 16, and one of 64 bits behind it. -/
theorem intset_run_upgrades :
    let ops : List Op := [.add ⟨5, by decide⟩, .add ⟨-70000, by decide⟩, .add ⟨5, by decide⟩,
      .add ⟨5000000000, by decide⟩, .remove ⟨5, by decide⟩]
    Small ∅ ops ∧ Refines (fun _ => 0) intsetNew ∅ .int16 ops := by
  intro ops
  have hsmall : Small ∅ ops := by decide
  exact ⟨hsmall, intset_run (fun _ => 0) ops hsmall⟩

end SourceLibs.IntegerSet
