import Mathlib.Data.List.Basic

/-!
# Support — patterns with wildcards

A pattern is a list of elements, each of which takes one letter that it accepts or any number of letters.

* `matches_one_iff`, `matches_many_iff`: the language of a pattern by its first element.
* `matches_many_many_iff`, `matches_many_nil_iff`: wildcards in a row, and the empty word.
-/

namespace SourceLibs.Wildcard

variable {α : Type*}

/-- An element of a pattern: any number of letters, or one of those it accepts. -/
inductive Element (α : Type*) where
  | many
  | one (accepts : α → Bool)

/-- The word is matched by the pattern. -/
inductive Matches : List (Element α) → List α → Prop where
  | nil : Matches [] []
  | one {accepts : α → Bool} {es : List (Element α)} {a : α} {s : List α} (h : accepts a = true)
      (hs : Matches es s) : Matches (.one accepts :: es) (a :: s)
  | many {es : List (Element α)} {s : List α} (before : List α) (hs : Matches es s) :
      Matches (.many :: es) (before ++ s)

variable {es : List (Element α)} {s : List α} {a : α} {accepts : α → Bool}

theorem matches_empty_iff : Matches ([] : List (Element α)) s ↔ s = [] :=
  ⟨fun h => by cases h; rfl, fun h => h ▸ .nil⟩

theorem matches_one_iff : Matches (.one accepts :: es) (a :: s) ↔ accepts a = true ∧ Matches es s :=
  ⟨fun h => by cases h with | one h hs => exact ⟨h, hs⟩, fun h => .one h.1 h.2⟩

theorem not_matches_one_nil : ¬ Matches (.one accepts :: es) ([] : List α) := nofun

/-- **A wildcard** takes the letters before a suffix. -/
theorem matches_many_iff : Matches (.many :: es) s ↔ ∃ t, t <:+ s ∧ Matches es t := by
  constructor
  · intro h
    cases h with
    | many before hs => exact ⟨_, List.suffix_append _ _, hs⟩
  · rintro ⟨t, ⟨before, rfl⟩, ht⟩
    exact .many before ht

theorem matches_many_many_iff : Matches (.many :: .many :: es) s ↔ Matches (.many :: es) s := by
  rw [matches_many_iff, matches_many_iff]
  constructor
  · rintro ⟨t, ht, h⟩
    obtain ⟨u, hu, hes⟩ := matches_many_iff.mp h
    exact ⟨u, hu.trans ht, hes⟩
  · rintro ⟨t, ht, h⟩
    exact ⟨t, ht, .many [] h⟩

theorem matches_many_nil_iff : Matches (.many :: es) ([] : List α) ↔ Matches es [] := by
  rw [matches_many_iff]
  constructor
  · rintro ⟨t, ht, h⟩
    rwa [List.suffix_nil.mp ht] at h
  · exact fun h => ⟨[], List.suffix_rfl, h⟩

end SourceLibs.Wildcard
