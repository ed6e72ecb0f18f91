import SourceLibs.Support.Arrangements
import Mathlib.Data.List.Induction

/-!
# SGI STL — next_permutation and prev_permutation

Both scan from the end for an element that is followed by a greater (a less) one, exchange it with the
last such element, and reverse what is behind.  An access outside the range has no result.

* `reverse_spec`, `scan_spec`: the loops, for either kind of iterator.
* `permutation_advances`: the step that both make.
* `permutations_exact`: the next and the previous arrangement, and all of them.
-/

namespace SourceLibs.Permutations
open Arrangements Compare List

variable {α : Type}

def iterSwap (l : List α) (i j : ℕ) : Option (List α) := do
  let a ← l[i]?
  let b ← l[j]?
  some ((l.set i b).set j a)

/-- `reverse` of some elements from a place on.  Only the random access form exchanges the one in the
middle with itself. -/
def reverse (randomAccess : Bool) : List α → ℕ → ℕ → Option (List α)
  | l, _, 0         => some l
  | l, first, 1     => if randomAccess then iterSwap l first first else some l
  | l, first, n + 2 =>
    (iterSwap l first (first + n + 1)).bind fun l => reverse randomAccess l (first + 1) n

/-- The scan for the element to exchange, which has no bound. -/
def scan (comp : α → α → Bool) (l : List α) (i : ℕ) : ℕ → Option ℕ
  | 0     => none
  | j + 1 => do
    let a ← l[i]?
    let b ← l[j]?
    if comp a b then some j else scan comp l i j

/-- The loop of `next_permutation`, where `ii` is the number. -/
def permutationLoop (comp : α → α → Bool) (randomAccess : Bool) (l : List α) : ℕ → Option (List α × Bool)
  | 0     => none
  | i + 1 => do
    let a ← l[i]?
    let b ← l[i + 1]?
    if comp a b then
      let j ← scan comp l i l.length
      let l ← iterSwap l i j
      let l ← reverse randomAccess l (i + 1) (l.length - (i + 1))
      some (l, true)
    else if i = 0 then
      let l ← reverse randomAccess l 0 l.length
      some (l, false)
    else permutationLoop comp randomAccess l i

/-- What both do, with the comparison of an element and one behind it. -/
def permutation (comp : α → α → Bool) (randomAccess : Bool) (l : List α) : Option (List α × Bool) :=
  if l.length = 0 then some (l, false)
  else if l.length = 1 then some (l, false)
  else permutationLoop comp randomAccess l (l.length - 1)

/-- `next_permutation`; without a comparison it compares by `<`. -/
def nextPermutation (comp : α → α → Bool) (randomAccess : Bool) (l : List α) : Option (List α × Bool) :=
  permutation comp randomAccess l

/-- `prev_permutation`; without a comparison it compares by `<`. -/
def prevPermutation (comp : α → α → Bool) (randomAccess : Bool) (l : List α) : Option (List α × Bool) :=
  permutation (fun a b => comp b a) randomAccess l

/-- A step to the least arrangement that is greater, which the other function takes back; or the first
arrangement, when there is none. -/
def Steps (comp : α → α → Bool) (lt : List α → List α → Prop) (sorted : List α → Prop)
    (f g : List α → Option (List α × Bool)) (x : List α) : Prop :=
  ∃ y, (f x = some (y, true) ∧ y ~ x ∧ lt x y ∧ (∀ z, z ~ x → lt x z → ¬ lt z y) ∧
      ∃ z, g y = some (z, true) ∧ Tied comp z x) ∨
    (f x = some (y, false) ∧ y ~ x ∧ sorted y ∧ ∀ z, z ~ x → ¬ lt x z)

theorem getElem?_behind (pre mid post : List α) (a : α) (k : ℕ) :
    (pre ++ a :: (mid ++ post))[pre.length + mid.length + 1 + k]? = post[k]? := by
  have hk : pre.length + mid.length + 1 + k = pre.length + ((mid.length + k) + 1) := by omega
  rw [hk, getElem?_append_right (Nat.le_add_right ..), Nat.add_sub_cancel_left, getElem?_cons_succ,
    getElem?_append_right (Nat.le_add_right ..), Nat.add_sub_cancel_left]

theorem iterSwap_self {l : List α} {i : ℕ} (hi : i < l.length) : iterSwap l i i = some l := by
  simp [iterSwap, hi]

theorem iterSwap_spec (pre mid post : List α) (a b : α) :
    iterSwap (pre ++ a :: (mid ++ b :: post)) pre.length (pre.length + mid.length + 1) =
      some (pre ++ b :: (mid ++ a :: post)) := by
  have hb := getElem?_behind pre mid (b :: post) a 0
  rw [Nat.add_zero] at hb
  have ha : (pre ++ a :: (mid ++ b :: post))[pre.length]? = some a := by simp
  rw [iterSwap, ha, hb]
  simp [Nat.add_assoc]

/-- **`reverse`**, for either kind of iterator. -/
theorem reverse_spec (randomAccess : Bool) (mid : List α) : ∀ pre post : List α,
    reverse randomAccess (pre ++ (mid ++ post)) pre.length mid.length =
      some (pre ++ (mid.reverse ++ post)) := by
  induction mid using List.bidirectionalRec with
  | nil => exact fun pre post => rfl
  | singleton a =>
    intro pre post
    cases randomAccess with
    | false => rfl
    | true => exact iterSwap_self (by simp)
  | cons_append a mid b ih =>
    intro pre post
    have hswap := iterSwap_spec pre mid post a b
    have hrest := ih (pre ++ [b]) (a :: post)
    have hlen : (a :: (mid ++ [b])).length = mid.length + 2 := by simp
    rw [hlen, cons_append, List.append_assoc, singleton_append, reverse, hswap, Option.bind_some]
    simpa using hrest

/-- **The scan** stops at the last element for which the comparison holds. -/
theorem scan_spec {comp : α → α → Bool} {l : List α} {i j : ℕ} {a c : α} (ha : l[i]? = some a)
    (hc : l[j]? = some c) (hac : comp a c = true) (m : ℕ)
    (hrest : ∀ k < m, ∃ d, l[j + 1 + k]? = some d ∧ comp a d = false) :
    scan comp l i (j + 1 + m) = some j := by
  induction m with
  | zero =>
    rw [Nat.add_zero, scan, ha, hc]
    simp [hac]
  | succ m ih =>
    obtain ⟨d, hd, had⟩ := hrest m (Nat.lt_succ_self m)
    rw [← Nat.add_assoc, scan, ha, hd]
    simpa [had] using ih fun k hk => hrest k (Nat.lt_succ_of_lt hk)

theorem exists_last {comp : α → α → Bool} {a b : α} {suf : List α} (hb : b ∈ suf) (hab : comp a b = true) :
    ∃ s₁ c s₂, suf = s₁ ++ c :: s₂ ∧ comp a c = true ∧ ∀ d ∈ s₂, comp a d = false := by
  induction suf using List.reverseRecOn with
  | nil => exact absurd hb not_mem_nil
  | append_singleton suf d ih =>
    cases hd : comp a d with
    | true => exact ⟨suf, d, [], rfl, hd, fun _ h => absurd h not_mem_nil⟩
    | false =>
      have hb : b ∈ suf := (mem_append.mp hb).resolve_right fun h => by
        rw [mem_singleton.mp h, hd] at hab
        cases hab
      obtain ⟨s₁, c, s₂, rfl, hac, hrest⟩ := ih hb
      refine ⟨s₁, c, s₂ ++ [d], by simp, hac, fun e he => ?_⟩
      rcases mem_append.mp he with he | he
      · exact hrest e he
      · rw [mem_singleton.mp he, hd]

section
variable {comp : α → α → Bool} (hw : StrictWeak comp) (randomAccess : Bool)
include hw

/-- **The loop**, when what is behind does not ascend. -/
theorem permutationLoop_spec (pre : List α) : ∀ {suf : List α}, pre ≠ [] → suf ≠ [] → Descending comp suf →
    ∃ y, permutationLoop comp randomAccess (pre ++ suf) pre.length = some (y, true) ∧
        Next comp (pre ++ suf) y ∨
      permutationLoop comp randomAccess (pre ++ suf) pre.length = some (y, false) ∧
        Descending comp (pre ++ suf) ∧ y = (pre ++ suf).reverse := by
  induction pre using List.reverseRecOn with
  | nil => exact fun h => absurd rfl h
  | append_singleton pre a ih =>
    intro suf _ hne hdesc
    obtain ⟨b, suf, rfl⟩ := exists_cons_of_ne_nil hne
    have ha : (pre ++ a :: b :: suf)[pre.length]? = some a := by simp
    have hb : (pre ++ a :: b :: suf)[pre.length + 1]? = some b := by simp
    rw [length_append, length_singleton, List.append_assoc, singleton_append, permutationLoop, ha, hb]
    simp only [Option.bind_eq_bind, Option.bind_some]
    cases hab : comp a b with
    | true =>
      obtain ⟨s₁, c, s₂, hsplit, hac, hrest⟩ := exists_last mem_cons_self hab
      rw [hsplit] at hdesc ha ⊢
      rw [if_pos rfl]
      have hlen : (pre ++ a :: (s₁ ++ c :: s₂)).length = pre.length + s₁.length + 1 + 1 + s₂.length := by
        simp
        omega
      have hscan : scan comp (pre ++ a :: (s₁ ++ c :: s₂)) pre.length (pre ++ a :: (s₁ ++ c :: s₂)).length =
          some (pre.length + s₁.length + 1) := by
        rw [hlen]
        have hc := getElem?_behind pre s₁ (c :: s₂) a 0
        refine scan_spec ha hc hac s₂.length fun k hk => ⟨s₂[k], ?_, hrest _ (getElem_mem hk)⟩
        rw [← getElem?_eq_getElem hk, Nat.add_assoc _ 1 k, Nat.add_comm 1 k]
        exact getElem?_behind pre s₁ (c :: s₂) a (k + 1)
      have hswap := iterSwap_spec pre s₁ s₂ a c
      have hrev := reverse_spec randomAccess (s₁ ++ a :: s₂) (pre ++ [c]) []
      refine ⟨pre ++ c :: (s₁ ++ a :: s₂).reverse, .inl ⟨?_, .mk pre s₁ s₂ hdesc hac hrest⟩⟩
      have hrest : (pre ++ c :: (s₁ ++ a :: s₂)).length - (pre.length + 1) = (s₁ ++ a :: s₂).length := by
        simp
        omega
      rw [hscan, Option.bind_some, hswap, Option.bind_some, hrest]
      simpa using congrArg (Option.bind · fun l => some (l, true)) hrev
    | false =>
      have hdesc' : Descending comp (a :: b :: suf) := by
        refine pairwise_cons.mpr ⟨fun d hd => ?_, hdesc⟩
        rcases mem_cons.mp hd with rfl | hd
        · exact hab
        · exact hw.trans hab ((pairwise_cons.mp hdesc).1 d hd)
      rw [if_neg Bool.false_ne_true]
      by_cases hpre : pre = []
      · subst hpre
        have hrev := reverse_spec randomAccess (a :: b :: suf) [] []
        refine ⟨_, .inr ⟨?_, hdesc', rfl⟩⟩
        simpa using congrArg (Option.bind · fun l => some (l, false)) hrev
      · rw [if_neg (fun h => hpre (eq_nil_of_length_eq_zero h))]
        exact ih hpre (cons_ne_nil a (b :: suf)) hdesc'

/-- Both go to the next arrangement in the order of their comparison. -/
theorem permutation_advances : Advances comp (permutation comp randomAccess) := by
  intro l
  rw [permutation]
  rcases eq_nil_or_concat l with rfl | ⟨pre, d, rfl⟩
  · exact ⟨[], .inr ⟨rfl, .nil, rfl⟩⟩
  · rw [concat_eq_append, length_append, length_singleton, if_neg (Nat.succ_ne_zero _), Nat.add_sub_cancel]
    by_cases hpre : pre = []
    · subst hpre
      exact ⟨[d], .inr ⟨rfl, pairwise_singleton .., rfl⟩⟩
    · rw [if_neg (fun h => hpre (eq_nil_of_length_eq_zero (Nat.succ.inj h)))]
      exact permutationLoop_spec hw randomAccess pre hpre (cons_ne_nil d []) (pairwise_singleton ..)

theorem next_steps (x : List α) :
    Steps comp (Before comp) (Ascending comp) (permutation comp randomAccess)
      (permutation (flip comp) randomAccess) x := by
  have hf := permutation_advances hw randomAccess
  obtain ⟨y, ⟨h, hnext⟩ | ⟨h, hdesc, rfl⟩⟩ := hf x
  · exact ⟨y, .inl ⟨h, hnext.perm, hnext.before hw, fun z hz => hnext.least hw (.of_perm hz),
      hf.restores hw (permutation_advances (strictWeak_flip hw) randomAccess) h⟩⟩
  · exact ⟨_, .inr ⟨h, reverse_perm x, ascending_reverse.mpr hdesc,
      fun z hz => (Like.of_perm hz).not_after hw hdesc⟩⟩

theorem prev_steps (x : List α) :
    Steps comp (fun x y => Before comp y x) (Descending comp) (permutation (flip comp) randomAccess)
      (permutation comp randomAccess) x := by
  obtain ⟨y, ⟨h, hy, hxy, hleast, z, hz, htied⟩ | ⟨h, hy, hdesc, hnone⟩⟩ :=
    next_steps (strictWeak_flip hw) randomAccess x
  · have hflip : ∀ {u v : List α}, u ~ x → v ~ x → (Before (flip comp) u v ↔ Before comp v u) :=
      fun hu hv => before_flip (hu.length_eq.trans hv.length_eq.symm)
    refine ⟨y, .inl ⟨h, hy, (hflip (.refl x) hy).mp hxy, fun z hz hzx => ?_, z, hz,
      htied.imp fun _ _ => And.symm⟩⟩
    exact fun hyz => hleast z hz ((hflip (.refl x) hz).mpr hzx) ((hflip hz hy).mpr hyz)
  · refine ⟨y, .inr ⟨h, hy, hdesc, fun z hz => ?_⟩⟩
    exact fun hzx => hnone z hz ((before_flip hz.length_eq.symm).mpr hzx)

end

/-- **`next_permutation` and `prev_permutation`** for any strict weak order and either kind of iterator. -/
theorem permutations_exact {comp : α → α → Bool} (hw : StrictWeak comp) (randomAccess : Bool) (x : List α) :
    Steps comp (Before comp) (Ascending comp) (nextPermutation comp randomAccess)
        (prevPermutation comp randomAccess) x ∧
      Steps comp (fun x y => Before comp y x) (Descending comp) (prevPermutation comp randomAccess)
        (nextPermutation comp randomAccess) x ∧
      (Ascending comp x → ∃ ys, Visits (nextPermutation comp randomAccess) x ys ∧ (∀ y ∈ ys, y ~ x) ∧
        ∀ z, z ~ x → ∃! k : ℕ, ∃ y, ys[k]? = some y ∧ Tied comp y z) := by
  refine ⟨next_steps hw randomAccess x, prev_steps hw randomAccess x, fun hx => ?_⟩
  have hf := permutation_advances hw randomAccess
  obtain ⟨ys, hys, hall⟩ := hf.visits_all hw hx
  exact ⟨ys, hys, fun y => hys.perm hf, hall⟩

theorem permutations_of_three :
    StrictWeak (fun a b : ℕ => decide (a < b)) ∧ Ascending (fun a b : ℕ => decide (a < b)) [1, 1, 2] ∧
      ∃ ys, Visits (nextPermutation (fun a b : ℕ => decide (a < b)) true) [1, 1, 2] ys ∧
        (∀ y ∈ ys, y ~ [1, 1, 2]) ∧
        ∀ z, z ~ [1, 1, 2] → ∃! k : ℕ, ∃ y, ys[k]? = some y ∧ Tied (fun a b : ℕ => decide (a < b)) y z := by
  have hw : StrictWeak (fun a b : ℕ => decide (a < b)) := by
    constructor <;> intros <;> simp_all <;> omega
  have hx : Ascending (fun a b : ℕ => decide (a < b)) [1, 1, 2] := by
    simp [Ascending]
  exact ⟨hw, hx, (permutations_exact hw true [1, 1, 2]).2.2 hx⟩

end SourceLibs.Permutations
