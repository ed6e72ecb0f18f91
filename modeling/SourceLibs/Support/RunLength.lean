import Mathlib.Data.List.Basic
import Mathlib.Data.Nat.Notation

/-!
# Support — run-length encodings

An array as a row of runs, each a value and how often it is repeated.

* `valueAt_cons_of_le`, `exists_valueAt`: the run that covers a position.
-/

namespace SourceLibs.RunLength

variable {α : Type*}

/-- How many positions the runs cover. -/
def total : List (α × ℕ) → ℕ
  | []           => 0
  | (_, n) :: rs => n + total rs

/-- The value at a position. -/
def valueAt : List (α × ℕ) → ℕ → Option α
  | [], _           => none
  | (a, n) :: rs, i => if i < n then some a else valueAt rs (i - n)

variable {rs : List (α × ℕ)} {a : α} {i n : ℕ}

theorem valueAt_cons_of_lt (h : i < n) : valueAt ((a, n) :: rs) i = some a := if_pos h

theorem valueAt_cons_of_le (h : n ≤ i) : valueAt ((a, n) :: rs) i = valueAt rs (i - n) :=
  if_neg (Nat.not_lt.mpr h)

/-- **Every position** that the runs cover has a value. -/
theorem exists_valueAt (h : i < total rs) : ∃ a, valueAt rs i = some a := by
  induction rs generalizing i with
  | nil => exact absurd h (Nat.not_lt_zero i)
  | cons r rs ih =>
    obtain ⟨a, n⟩ := r
    rw [total] at h
    by_cases hi : i < n
    · exact ⟨a, valueAt_cons_of_lt hi⟩
    · rw [valueAt_cons_of_le (Nat.not_lt.mp hi)]
      exact ih (by omega)

theorem mem_of_valueAt (h : valueAt rs i = some a) : ∃ n, (a, n) ∈ rs := by
  induction rs generalizing i with
  | nil => cases h
  | cons r rs ih =>
    obtain ⟨b, n⟩ := r
    by_cases hi : i < n
    · rw [valueAt_cons_of_lt hi] at h
      exact ⟨n, Option.some.inj h ▸ List.mem_cons_self⟩
    · rw [valueAt_cons_of_le (Nat.not_lt.mp hi)] at h
      obtain ⟨m, hm⟩ := ih h
      exact ⟨m, List.mem_cons_of_mem _ hm⟩

end SourceLibs.RunLength
