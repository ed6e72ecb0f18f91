import Mathlib.Data.List.Induction

/-!
# Support — lines

A stream of lines, each with a terminator that is in none of them, and what has arrived of it.

* `exists_cut`: what has arrived is some of the lines and a part without a terminator.
* `exists_cut_line`: one of the lines, in what has arrived after such a part.
-/

namespace SourceLibs.Lines
open List

variable {α : Type*} (sep : α)

/-- The lines with their terminators. -/
@[simp] def join : List (List α) → List α
  | []      => []
  | l :: ls => l ++ sep :: join ls

variable {sep} {ls ls' : List (List α)} {l part tail q r : List α}

theorem join_append (ls ls' : List (List α)) : join sep (ls ++ ls') = join sep ls ++ join sep ls' := by
  induction ls with
  | nil => rfl
  | cons l ls ih => rw [List.cons_append, join, join, ih, List.append_assoc, List.cons_append]

/-- Lines end in a terminator, if there are any. -/
theorem getLast?_join (ls : List (List α)) :
    (join sep ls).getLast? = if ls = [] then none else some sep := by
  induction ls using reverseRecOn with
  | nil => rfl
  | append_singleton ls l =>
    rw [join_append, join, join, getLast?_append, getLast?_append, getLast?_singleton,
      if_neg (append_ne_nil_of_right_ne_nil _ (cons_ne_nil _ _))]
    rfl

theorem split_first (hq : sep ∉ q) (h : q ++ r = l ++ sep :: tail) :
    ∃ a, l = q ++ a ∧ r = a ++ sep :: tail := by
  rcases append_eq_append_iff.mp h with ⟨a, hl, hr⟩ | ⟨a, hq', htail⟩
  · exact ⟨a, hl, hr⟩
  · cases a with
    | nil => exact ⟨[], by rw [hq', append_nil, append_nil], htail.symm⟩
    | cons b a =>
      obtain ⟨hb, -⟩ := List.cons.inj htail
      rw [hq', ← hb] at hq
      exact absurd (mem_append_right l mem_cons_self) hq

/-- **What has arrived** is some of the lines and a part without a terminator. -/
theorem exists_cut (hls : ∀ l ∈ ls, sep ∉ l) (htail : sep ∉ tail)
    (h : q ++ r = join sep ls ++ tail) :
    ∃ done rest part, ls = done ++ rest ∧ q = join sep done ++ part ∧ sep ∉ part
      ∧ part ++ r = join sep rest ++ tail := by
  induction ls generalizing q with
  | nil =>
    refine ⟨[], [], q, rfl, rfl, fun hmem => htail ?_, h⟩
    rw [join, nil_append] at h
    exact h ▸ mem_append_left r hmem
  | cons l ls ih =>
    by_cases hq : sep ∈ q
    · rw [join, List.append_assoc, List.cons_append] at h
      obtain ⟨hl, hrest⟩ := forall_mem_cons.mp hls
      obtain ⟨a, hqa, htl⟩ : ∃ a, q = l ++ sep :: a ∧ a ++ r = join sep ls ++ tail := by
        rcases append_eq_append_iff.mp h with ⟨a, rfl, -⟩ | ⟨a, hqa, ha⟩
        · exact absurd (mem_append_left a hq) hl
        · cases a with
          | nil =>
            rw [append_nil] at hqa
            exact absurd (hqa ▸ hq) hl
          | cons b a =>
            obtain ⟨rfl, htl⟩ := List.cons.inj ha
            exact ⟨a, hqa, htl.symm⟩
      obtain ⟨done, rest, part, rfl, rfl, hpart, hr⟩ := ih hrest htl
      refine ⟨l :: done, rest, part, rfl, ?_, hpart, hr⟩
      rw [hqa, join, List.append_assoc, List.cons_append]
    · exact ⟨[], l :: ls, q, rfl, rfl, hq, h⟩

/-- **A line** that ends in what has arrived after a part without a terminator. -/
theorem exists_cut_line {done done' : List (List α)} (hq : sep ∉ q)
    (h : q ++ r = join sep (done ++ l :: done') ++ part) :
    ∃ a, q ++ a = join sep done ++ l ∧ r = a ++ sep :: (join sep done' ++ part) := by
  rw [join_append, join, List.append_assoc, List.append_assoc, List.cons_append,
    ← List.append_assoc] at h
  obtain ⟨a, ha, hr⟩ := split_first hq h
  exact ⟨a, ha.symm, hr⟩

end SourceLibs.Lines
