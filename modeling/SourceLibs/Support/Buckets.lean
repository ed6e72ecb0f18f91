import Mathlib.Data.List.Basic

/-!
# Support — buckets

A list of buckets, each element in the bucket that `place` says.

* `exists_perm_set`: writing one bucket exchanges its elements and no others.
* `Filed.mem_flatten_iff`: an element is looked for in one bucket only.
-/

namespace SourceLibs.Buckets
open List

variable {β : Type*} {table : List (List β)} {i : ℕ} {b : List β}

/-- What is not in bucket `i` stays, whatever is written there. -/
theorem exists_perm_set (h : table[i]? = some b) :
    ∃ rest, table.flatten.Perm (b ++ rest) ∧ ∀ b', (table.set i b').flatten.Perm (b' ++ rest) := by
  obtain ⟨hlt, hget⟩ := List.getElem?_eq_some_iff.mp h
  have htable : table = table.take i ++ b :: table.drop (i + 1) := by
    rw [← hget, getElem_cons_drop, take_append_drop]
  refine ⟨(table.take i).flatten ++ (table.drop (i + 1)).flatten, ?_, fun b' => ?_⟩
  · conv_lhs => rw [htable, flatten_append, flatten_cons]
    exact perm_append_comm_assoc ..
  · rw [set_eq_take_cons_drop b' hlt, flatten_append, flatten_cons]
    exact perm_append_comm_assoc ..

/-- Every element is in its place. -/
def Filed (place : β → ℕ) (table : List (List β)) : Prop :=
  ∀ i b, table[i]? = some b → ∀ e ∈ b, place e = i

variable {place : β → ℕ}

theorem Filed.set (h : Filed place table) {b' : List β} (hb : ∀ e ∈ b', place e = i) :
    Filed place (table.set i b') := by
  intro j b hj e he
  rw [List.getElem?_set] at hj
  split at hj
  · next heq =>
      split at hj
      · obtain rfl := Option.some.inj hj
        exact heq ▸ hb e he
      · exact absurd hj (by simp)
  · exact h j b hj e he

theorem Filed.replicate (n : ℕ) : Filed place (List.replicate n ([] : List β)) := by
  intro i b hb e he
  obtain rfl : b = [] := eq_of_mem_replicate (mem_of_getElem? hb)
  exact absurd he not_mem_nil

theorem Filed.mem_flatten_iff (h : Filed place table) {e : β} (hb : table[place e]? = some b) :
    e ∈ table.flatten ↔ e ∈ b := by
  constructor
  · intro he
    obtain ⟨b', hb', heb'⟩ := mem_flatten.mp he
    obtain ⟨j, hj⟩ := mem_iff_getElem?.mp hb'
    obtain rfl := h j b' hj e heb'
    rw [hb] at hj
    exact Option.some.inj hj ▸ heb'
  · exact fun he => mem_flatten.mpr ⟨b, mem_of_getElem? hb, he⟩

theorem exists_ne_nil (h : table.flatten ≠ []) : ∃ (i : ℕ) (b : List β), table[i]? = some b ∧ b ≠ [] := by
  obtain ⟨b, hb, hne⟩ : ∃ b ∈ table, b ≠ [] := by
    by_contra hno
    push Not at hno
    exact h (flatten_eq_nil_iff.mpr hno)
  obtain ⟨i, hi⟩ := mem_iff_getElem?.mp hb
  exact ⟨i, b, hi, hne⟩

end SourceLibs.Buckets
