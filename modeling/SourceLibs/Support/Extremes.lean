import Mathlib.Data.List.Basic
import Mathlib.Order.Defs.LinearOrder
import Mathlib.Order.Interval.Set.Defs
import Mathlib.Order.Lattice

/-!
# Support — the first and the last element of an interval

The elements of an ascending list that are in an interval: its lower end holds from some place on, and
its upper end up to some place.

* `isFirst_of_cut`, `isLast_of_cut`: the first and the last one are at the places where the ends change.
-/

namespace SourceLibs.Extremes
open List

variable {β : Type*} {P G L : β → Prop} {l pre suf : List β}

/-- `r` is the first element of the list of which `P` holds; there is none if `r` is nothing. -/
def IsFirst (P : β → Prop) (l : List β) : Option β → Prop
  | none   => ∀ x ∈ l, ¬ P x
  | some x => ∃ pre suf, l = pre ++ x :: suf ∧ P x ∧ ∀ y ∈ pre, ¬ P y

/-- `r` is the last element of the list of which `P` holds; there is none if `r` is nothing. -/
def IsLast (P : β → Prop) (l : List β) : Option β → Prop
  | none   => ∀ x ∈ l, ¬ P x
  | some x => ∃ pre suf, l = pre ++ x :: suf ∧ P x ∧ ∀ y ∈ suf, ¬ P y

/-- Where the condition holds, it holds of all that comes later. -/
def Upward (G : β → Prop) (l : List β) : Prop := l.Pairwise fun x y => G x → G y

/-- Where the condition holds, it holds of all that comes earlier. -/
def Downward (L : β → Prop) (l : List β) : Prop := l.Pairwise fun x y => L y → L x

theorem Downward.not (h : Downward L l) : Upward (fun x => ¬ L x) l :=
  h.imp fun himp hx hy => hx (himp hy)

/-- What holds of the last element of the list holds of none before it if it fails there. -/
theorem Upward.not_of_last (h : Upward G l) (hlast : ∀ x, l.getLast? = some x → ¬ G x) :
    ∀ x ∈ l, ¬ G x := by
  rcases eq_nil_or_concat' l with rfl | ⟨m, y, rfl⟩
  · exact fun x hx => absurd hx not_mem_nil
  · intro x hx hGx
    have hy : ¬ G y := hlast y getLast?_concat
    rcases mem_append.mp hx with hxm | hxy
    · exact hy ((pairwise_append.mp h).2.2 x hxm y mem_cons_self hGx)
    · exact hy (mem_singleton.mp hxy ▸ hGx)

theorem Upward.of_head (h : Upward G l) (hhead : ∀ x, l.head? = some x → G x) : ∀ x ∈ l, G x := by
  cases l with
  | nil => exact fun x hx => absurd hx not_mem_nil
  | cons y m =>
    intro x hx
    have hy : G y := hhead y rfl
    rcases mem_cons.mp hx with rfl | hxm
    · exact hy
    · exact (pairwise_cons.mp h).1 x hxm hy

/-- **A cut** of the list at the place where the condition begins to hold. -/
theorem Upward.cut (h : Upward G (pre ++ suf)) (hlast : ∀ x, pre.getLast? = some x → ¬ G x)
    (hhead : ∀ x, suf.head? = some x → G x) : (∀ x ∈ pre, ¬ G x) ∧ ∀ x ∈ suf, G x :=
  ⟨Upward.not_of_last (pairwise_append.mp h).1 hlast,
    Upward.of_head (pairwise_append.mp h).2.1 hhead⟩

/-- **The first element**: after the cut of the lower end, if the upper end holds there. -/
theorem isFirst_of_cut (hpre : ∀ x ∈ pre, ¬ G x) (hsuf : ∀ x ∈ suf, G x) (hL : Downward L (pre ++ suf))
    {r : Option β} (hsome : ∀ x, r = some x → suf.head? = some x ∧ L x)
    (hnone : r = none → ∀ x, suf.head? = some x → ¬ L x) :
    IsFirst (fun x => G x ∧ L x) (pre ++ suf) r := by
  cases r with
  | some x =>
    obtain ⟨hhead, hLx⟩ := hsome x rfl
    obtain ⟨suf, rfl⟩ := head?_eq_some_iff.mp hhead
    exact ⟨pre, suf, rfl, ⟨hsuf x mem_cons_self, hLx⟩, fun y hy hyP => hpre y hy hyP.1⟩
  | none =>
    have hnot : ∀ x ∈ suf, ¬ L x :=
      Upward.of_head (pairwise_append.mp hL.not).2.1 (hnone rfl)
    rintro x hx ⟨hGx, hLx⟩
    rcases mem_append.mp hx with hxpre | hxsuf
    · exact hpre x hxpre hGx
    · exact hnot x hxsuf hLx

/-- **The last element**: before the cut of the upper end, if the lower end holds there. -/
theorem isLast_of_cut (hpre : ∀ x ∈ pre, L x) (hsuf : ∀ x ∈ suf, ¬ L x) (hG : Upward G (pre ++ suf))
    {r : Option β} (hsome : ∀ x, r = some x → pre.getLast? = some x ∧ G x)
    (hnone : r = none → ∀ x, pre.getLast? = some x → ¬ G x) :
    IsLast (fun x => G x ∧ L x) (pre ++ suf) r := by
  cases r with
  | some x =>
    obtain ⟨hlast, hGx⟩ := hsome x rfl
    obtain ⟨m, rfl⟩ := getLast?_eq_some_iff.mp hlast
    refine ⟨m, suf, by simp, ⟨hGx, hpre x (by simp)⟩, fun y hy hyP => hsuf y hy hyP.2⟩
  | none =>
    have hnot : ∀ x ∈ pre, ¬ G x :=
      Upward.not_of_last (pairwise_append.mp hG).1 (hnone rfl)
    rintro x hx ⟨hGx, hLx⟩
    rcases mem_append.mp hx with hxpre | hxsuf
    · exact hnot x hxpre hGx
    · exact hsuf x hxsuf hLx

theorem isFirst_none_iff : IsFirst P l none ↔ ¬ ∃ x ∈ l, P x := by
  rw [IsFirst]
  push Not
  exact Iff.rfl

theorem isLast_none_iff : IsLast P l none ↔ ¬ ∃ x ∈ l, P x := isFirst_none_iff

section Interval
variable [LinearOrder β] {lo hi x y : β} {lopen hopen : Bool}

/-- At or above the lower end, or above it only. -/
def above (lo : β) (lopen : Bool) : Set β := if lopen then Set.Ioi lo else Set.Ici lo

/-- At or below the upper end, or below it only. -/
def below (hi : β) (hopen : Bool) : Set β := if hopen then Set.Iio hi else Set.Iic hi

theorem above_mono (hxy : x ≤ y) (hx : x ∈ above lo lopen) : y ∈ above lo lopen := by
  cases lopen with
  | true => exact lt_of_lt_of_le (show lo < x from hx) hxy
  | false => exact le_trans (show lo ≤ x from hx) hxy

theorem below_anti (hxy : x ≤ y) (hy : y ∈ below hi hopen) : x ∈ below hi hopen := by
  cases hopen with
  | true => exact lt_of_le_of_lt hxy (show y < hi from hy)
  | false => exact le_trans hxy (show y ≤ hi from hy)

/-- **A range that is always empty.** -/
theorem not_mem_of_empty (h : hi < lo ∨ (lo = hi ∧ (lopen = true ∨ hopen = true))) :
    ¬ (x ∈ above lo lopen ∧ x ∈ below hi hopen) := by
  rintro ⟨hlow, hhigh⟩
  have hlo : lo ≤ x := by
    cases lopen with
    | true => exact le_of_lt (show lo < x from hlow)
    | false => exact hlow
  have hhi : x ≤ hi := by
    cases hopen with
    | true => exact le_of_lt (show x < hi from hhigh)
    | false => exact hhigh
  rcases h with hlt | ⟨rfl, rfl | rfl⟩
  · exact absurd (le_trans hlo hhi) (not_le.mpr hlt)
  · exact absurd (show lo < x from hlow) (not_lt.mpr hhi)
  · exact absurd (show x < lo from hhigh) (not_lt.mpr hlo)

end Interval

end SourceLibs.Extremes
