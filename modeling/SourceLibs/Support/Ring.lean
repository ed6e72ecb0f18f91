import SourceLibs.Support.Memory

/-!
# Support — a ring that is overwritten

A list used as a ring holds the newest elements of a history: the element written last is right before
the index `idx`, the one before it one place further back, around the start of the list.

* `Holds.write`: a block that does not cross the end of the list is written at `idx`.
* `Holds.read`, `Holds.read_wrap`: the newest `n` elements are one block or two.
-/

namespace SourceLibs.Ring
open List Memory

variable {β : Type*}

/-- The place of the element `k` before the newest. -/
def back (size idx k : ℕ) : ℕ := if k < idx then idx - 1 - k else idx + size - 1 - k

/-- The last `m` elements of `h` are the newest in the ring. -/
structure Holds (buf : List β) (idx m : ℕ) (h : List β) : Prop where
  lt : idx < buf.length
  fits : m ≤ buf.length
  le : m ≤ h.length
  entry : ∀ k < m, buf[back buf.length idx k]? = h[h.length - 1 - k]?

theorem Holds.empty {buf : List β} {idx : ℕ} (hlt : idx < buf.length) (h : List β) :
    Holds buf idx 0 h :=
  ⟨hlt, Nat.zero_le _, Nat.zero_le _, fun _ hk => absurd hk (Nat.not_lt_zero _)⟩

/-- **Writing a block** up to the end of the ring. -/
theorem Holds.write {buf h : List β} {idx m : ℕ} (hh : Holds buf idx m h) {c : List β}
    (hc : 0 < c.length) (hle : idx + c.length ≤ buf.length) :
    Holds (overwrite buf idx c) (if idx + c.length = buf.length then 0 else idx + c.length)
      (min (m + c.length) buf.length) (h ++ c) := by
  have hlt := hh.lt
  have hlen := hh.le
  refine ⟨?_, ?_, ?_, fun k hk => ?_⟩
  · rw [length_overwrite hle]
    split <;> omega
  · rw [length_overwrite hle]
    exact min_le_right _ _
  · rw [length_append]
    omega
  · rw [length_overwrite hle, length_append]
    have hk₁ : k < m + c.length := lt_of_lt_of_le hk (min_le_left _ _)
    have hk₂ : k < buf.length := lt_of_lt_of_le hk (min_le_right _ _)
    by_cases hkc : k < c.length
    · -- The element is in the block.
      have hpos : back buf.length (if idx + c.length = buf.length then 0 else idx + c.length) k =
          idx + (c.length - 1 - k) := by
        rw [back]
        split <;> split <;> omega
      rw [hpos, getElem?_overwrite_of_mem hle (by omega), List.getElem?_append_right (by omega)]
      congr 1
      omega
    · -- It was written before, and the block does not reach it.
      have hold := hh.entry (k - c.length) (by omega)
      have hpos : back buf.length (if idx + c.length = buf.length then 0 else idx + c.length) k =
          back buf.length idx (k - c.length) := by
        rw [back, back]
        split <;> split <;> split <;> omega
      have hout : back buf.length idx (k - c.length) < idx ∨
          idx + c.length ≤ back buf.length idx (k - c.length) := by
        rw [back]
        split <;> omega
      rw [hpos, List.getElem?_append_left (by omega)]
      rcases hout with hout | hout
      · rw [getElem?_overwrite_of_lt hle hout, hold]
        congr 1
        omega
      · rw [getElem?_overwrite_of_ge hle hout, hold]
        congr 1
        omega

theorem Holds.mono {buf h : List β} {idx m n : ℕ} (hh : Holds buf idx m h) (hn : n ≤ m) :
    Holds buf idx n h :=
  ⟨hh.lt, Nat.le_trans hn hh.fits, Nat.le_trans hn hh.le, fun k hk => hh.entry k (by omega)⟩

/-- **The newest elements** that do not go back past the start of the list. -/
theorem Holds.read {buf h : List β} {idx n : ℕ} (hh : Holds buf idx n h) (hn : n ≤ idx) :
    (buf.drop (idx - n)).take n = h.drop (h.length - n) := by
  have hlt := hh.lt
  have hle := hh.le
  refine ext_getElem? fun t => ?_
  by_cases ht : t < n
  · have hentry := hh.entry (n - 1 - t) (by omega)
    rw [back, if_pos (by omega)] at hentry
    rw [List.getElem?_take_of_lt ht, List.getElem?_drop, List.getElem?_drop]
    convert hentry using 2 <;> omega
  · rw [List.getElem?_eq_none (by rw [length_take, length_drop]; omega),
      List.getElem?_eq_none (by rw [length_drop]; omega)]

/-- **The newest elements** that go back past the start of the list. -/
theorem Holds.read_wrap {buf h : List β} {idx n : ℕ} (hh : Holds buf idx n h) (hn : idx ≤ n) :
    buf.drop (idx + buf.length - n) ++ buf.take idx = h.drop (h.length - n) := by
  have hlt := hh.lt
  have hle := hh.le
  have hfits := hh.fits
  have hlen : (buf.drop (idx + buf.length - n)).length = n - idx := by
    rw [length_drop]
    omega
  refine ext_getElem? fun t => ?_
  by_cases ht : t < n
  · have hentry := hh.entry (n - 1 - t) (by omega)
    rw [back] at hentry
    rw [List.getElem?_drop]
    by_cases hti : t < n - idx
    · rw [if_neg (by omega)] at hentry
      rw [List.getElem?_append_left (by omega), List.getElem?_drop]
      convert hentry using 2 <;> omega
    · rw [if_pos (by omega)] at hentry
      rw [List.getElem?_append_right (by omega), hlen, List.getElem?_take_of_lt (by omega)]
      convert hentry using 2 <;> omega
  · rw [List.getElem?_eq_none (by rw [length_append, hlen, length_take]; omega),
      List.getElem?_eq_none (by rw [length_drop]; omega)]

end SourceLibs.Ring
