import SourceLibs.Support.Borders
import Mathlib.Algebra.Order.Ring.Int

/-!
# Searching — Knuth–Morris–Pratt

`algorithm/searching/knuth_morris_pratt.hpp`, as it is compiled without `NEW_KMP`.  Positions are of
`difference_type`; the two loops of `init_skip_table` count with an `int`.  Reading or writing
outside a range, and an `int` that overflows, are undefined (`none`).

* `borderLoop_spec`, `skipLoop_spec`: entry `q` of the table is the longest border of the first `q`
  elements.
* `compareLoop_spec`, `searchLoop_spec`: no occurrence is passed over.
* `search_first_iff`: the search is exact for the patterns an `int` can count.
-/

namespace SourceLibs.Searching
open Option Borders

variable {α : Type}

/-- `v[i]`. -/
def read (v : List α) (i : ℤ) : Option α := if 0 ≤ i then v[i.toNat]? else none

/-- `v[i] = x`. -/
def write (v : List α) (i : ℤ) (x : α) : Option (List α) :=
  if 0 ≤ i ∧ i < v.length then some (v.set i.toNat x) else none

/-- A value of type `int`. -/
def int (x : ℤ) : Option ℤ := if -2 ^ 31 ≤ x ∧ x < 2 ^ 31 then some x else none

/-- `pat_first … pat_last` and `skip_`. -/
structure KnuthMorrisPratt (α : Type) where
  pat : List α
  skip : List ℤ

section
variable [DecidableEq α] {first : List α}

/-! ### The table -/

/-- The inner loop of `init_skip_table`. -/
def borderLoop (first : List α) (skip : List ℤ) (i : ℤ) : ℕ → ℤ → Option ℤ
  | 0, _ => none
  | fuel + 1, j =>
    if 0 ≤ j then do
      let x ← read first j
      let y ← read first (i - 1)
      if x = y then some j
      else do
        let j ← read skip j
        let j ← int j
        borderLoop first skip i fuel j
    else some j

/-- The loop of `init_skip_table`. -/
def skipLoop (first : List α) : ℕ → ℤ → List ℤ → Option (List ℤ)
  | 0, _, _ => none
  | fuel + 1, i, skip =>
    if i ≤ first.length then do
      let j ← read skip (i - 1)
      let j ← int j
      let j ← borderLoop first skip i (first.length + 1) j
      let next ← int (j + 1)
      let skip ← write skip i next
      let i ← int (i + 1)
      skipLoop first fuel i skip
    else some skip

def initSkipTable (first : List α) (skip : List ℤ) : Option (List ℤ) := do
  let skip ← write skip 0 (-1)
  skipLoop first (first.length + 1) 1 skip

/-- The constructor. -/
def construct (first : List α) : Option (KnuthMorrisPratt α) := do
  let skip ← initSkipTable first (List.replicate (first.length + 1) 0)
  some ⟨first, skip⟩

/-! ### The search -/

/-- The inner loop of `do_search`: the index of the first difference, or the length of the pattern
when there is none. -/
def compareLoop (pat corpus : List α) (matchStart : ℤ) : ℕ → ℤ → Option ℤ
  | 0, _ => none
  | fuel + 1, idx => do
    let x ← read pat idx
    let y ← read corpus (matchStart + idx)
    if x = y then
      if idx + 1 = pat.length then some (idx + 1)
      else compareLoop pat corpus matchStart fuel (idx + 1)
    else some idx

/-- The loop of `do_search`. -/
def searchLoop (kmp : KnuthMorrisPratt α) (corpus : List α) (lastMatch : ℤ) :
    ℕ → ℤ → ℤ → Option (ℤ × ℤ)
  | 0, _, _ => none
  | fuel + 1, matchStart, idx =>
    if matchStart ≤ lastMatch then do
      let idx ← compareLoop kmp.pat corpus matchStart (kmp.pat.length + 1) idx
      if idx = kmp.pat.length then some (matchStart, matchStart + kmp.pat.length)
      else do
        let skip ← read kmp.skip idx
        searchLoop kmp corpus lastMatch fuel (matchStart + (idx - skip)) (if 0 ≤ skip then skip else 0)
    else some (corpus.length, corpus.length)

def doSearch (kmp : KnuthMorrisPratt α) (corpus : List α) : Option (ℤ × ℤ) :=
  searchLoop kmp corpus (corpus.length - kmp.pat.length) (corpus.length + 2) 0 0

/-- `operator()`: the range of the corpus that is found. -/
def KnuthMorrisPratt.call (kmp : KnuthMorrisPratt α) (corpus : List α) : Option (ℤ × ℤ) :=
  if corpus.length = 0 then some (corpus.length, corpus.length)
  else if kmp.pat.length = 0 then some (0, 0)
  else if corpus.length < kmp.pat.length then some (corpus.length, corpus.length)
  else doSearch kmp corpus

/-- `knuth_morris_pratt_search`. -/
def search (corpus pattern : List α) : Option (ℤ × ℤ) := do
  let kmp ← construct pattern
  kmp.call corpus

/-! ### Reading, writing, counting -/

omit [DecidableEq α] in
@[simp] theorem read_natCast (v : List α) (i : ℕ) : read v i = v[i]? := by
  rw [read, if_pos (Int.natCast_nonneg i), Int.toNat_natCast]

omit [DecidableEq α] in
theorem write_natCast {v : List α} {i : ℕ} (h : i < v.length) (x : α) :
    write v i x = some (v.set i x) := by
  rw [write, if_pos ⟨Int.natCast_nonneg i, by omega⟩, Int.toNat_natCast]

theorem int_eq {x : ℤ} (h₀ : -2 ^ 31 ≤ x) (h₁ : x < 2 ^ 31) : int x = some x := if_pos ⟨h₀, h₁⟩

/-! ### The table holds the longest borders -/

/-- What entry `q` of the table has to be: the longest border, and `-1` for no elements at all. -/
def IsSkip (first : List α) (q : ℕ) (j : ℤ) : Prop :=
  q = 0 ∧ j = -1 ∨ 0 < q ∧ ∃ b : ℕ, j = b ∧ IsLongest first q b

/-- The entries up to `n` are right. -/
def Filled (first : List α) (n : ℕ) (skip : List ℤ) : Prop :=
  skip.length = first.length + 1 ∧ ∀ q ≤ n, ∃ j, skip[q]? = some j ∧ IsSkip first q j

omit [DecidableEq α] in
theorem IsSkip.bounds {q : ℕ} {j : ℤ} (h : IsSkip first q j) : -1 ≤ j ∧ j < q := by
  rcases h with ⟨rfl, rfl⟩ | ⟨_, b, rfl, hb⟩
  · omega
  · have := hb.1.1
    omega

/-- **The inner loop** goes down the borders of the first `q` elements, the longest first, to one that
can be extended. -/
theorem borderLoop_spec {skip : List ℤ} {q : ℕ} (hq : q < first.length) (hint : q < 2 ^ 31)
    (hskip : Filled first q skip) :
    ∀ (fuel : ℕ) (j : ℤ), j + 1 < fuel →
      (j = -1 ∧ (∀ k, IsBorder first q k → first[k]? ≠ first[q]?) ∨
        ∃ k : ℕ, j = k ∧ IsBorder first q k ∧
          ∀ k', IsBorder first q k' → first[k']? = first[q]? → k' ≤ k) →
      ∃ j', borderLoop first skip (q + 1 : ℕ) fuel j = some j' ∧ IsSkip first (q + 1) (j' + 1)
  | 0, _, hfuel, h => by
    rcases h with ⟨rfl, -⟩ | ⟨k, rfl, -⟩ <;> omega
  | fuel + 1, j, hfuel, h => by
    rcases h with ⟨rfl, hnone⟩ | ⟨k, rfl, hk, hmax⟩
    · refine ⟨-1, if_neg (by omega), Or.inr ⟨Nat.succ_pos q, 0, by omega, ?_⟩⟩
      exact isLongest_succ_zero hnone
    · have hkq := hk.1
      rw [borderLoop, if_pos (Int.natCast_nonneg k),
        show ((q + 1 : ℕ) : ℤ) - 1 = (q : ℕ) by omega, read_natCast, read_natCast,
        List.getElem?_eq_getElem (by omega : k < first.length), List.getElem?_eq_getElem hq]
      simp only [bind_eq_bind, bind_some]
      by_cases he : first[k] = first[q]
      · rw [if_pos he]
        refine ⟨k, rfl, Or.inr ⟨Nat.succ_pos q, k + 1, by omega, isLongest_succ hk ?_ hmax⟩⟩
        rw [List.getElem?_eq_getElem (by omega : k < first.length), List.getElem?_eq_getElem hq, he]
      · rw [if_neg he]
        have hne : first[k]? ≠ first[q]? := by
          rw [List.getElem?_eq_getElem (by omega : k < first.length), List.getElem?_eq_getElem hq]
          exact fun e => he (some.inj e)
        -- the candidates below `k` are borders of the first `k` elements
        have hbelow : ∀ k', IsBorder first q k' → first[k']? = first[q]? → IsBorder first k k' :=
          fun k' hk' he' => hk.of_lt hk' (Nat.lt_of_le_of_ne (hmax k' hk' he') fun e => hne (e ▸ he'))
        obtain ⟨j, hj, hjs⟩ := hskip.2 k (by omega)
        have hb := hjs.bounds
        rw [read_natCast, hj, bind_some, int_eq (by omega) (by omega), bind_some]
        refine borderLoop_spec hq hint hskip fuel j (by omega) ?_
        rcases hjs with ⟨rfl, rfl⟩ | ⟨-, b, rfl, hborder, hlong⟩
        · exact Or.inl ⟨rfl, fun k' hk' he' => Nat.not_lt_zero _ (hbelow k' hk' he').1⟩
        · exact Or.inr ⟨b, rfl, hk.trans hborder, fun k' hk' he' => hlong k' (hbelow k' hk' he')⟩

/-- **The table** is filled from the left. -/
theorem skipLoop_spec (hint : first.length + 1 < 2 ^ 31) :
    ∀ (fuel i : ℕ) (skip : List ℤ), first.length < i + fuel → i < first.length + 1 →
      Filled first i skip →
      ∃ skip', skipLoop first fuel (i + 1 : ℕ) skip = some skip' ∧ Filled first first.length skip'
  | 0, i, _, hfuel, hi, _ => by omega
  | fuel + 1, i, skip, hfuel, hi, hskip => by
    rw [skipLoop]
    by_cases hlast : i = first.length
    · rw [if_neg (by omega)]
      exact ⟨skip, rfl, hlast ▸ hskip⟩
    · obtain ⟨j, hj, hjs⟩ := hskip.2 i (Nat.le_refl i)
      have hb := hjs.bounds
      rw [if_pos (by omega), show ((i + 1 : ℕ) : ℤ) - 1 = (i : ℕ) by omega, read_natCast, hj]
      simp only [bind_eq_bind, bind_some]
      rw [int_eq (by omega) (by omega), bind_some]
      -- the search for the next border starts from the longest one of the elements before
      obtain ⟨j', hj', hjs'⟩ := borderLoop_spec (show i < first.length by omega)
        (by omega) hskip (first.length + 1) j (by omega) (by
          rcases hjs with ⟨rfl, rfl⟩ | ⟨-, b, rfl, hborder, hlong⟩
          · exact Or.inl ⟨rfl, fun k hk => absurd hk.1 (Nat.not_lt_zero k)⟩
          · exact Or.inr ⟨b, rfl, hborder, fun k' hk' _ => hlong k' hk'⟩)
      have hb' := hjs'.bounds
      rw [hj', bind_some, int_eq (by omega) (by omega), bind_some,
        write_natCast (by rw [hskip.1]; omega), bind_some, int_eq (by omega) (by omega),
        bind_some, show ((i + 1 : ℕ) : ℤ) + 1 = ((i + 1 + 1 : ℕ) : ℤ) by omega]
      refine skipLoop_spec hint fuel (i + 1) _ (by omega) (by omega) ⟨by rw [List.length_set, hskip.1], ?_⟩
      intro q hq
      rcases Nat.le_succ_iff.mp hq with h | rfl
      · rw [List.getElem?_set_ne (by omega)]
        exact hskip.2 q h
      · rw [List.getElem?_set_self (by rw [hskip.1]; omega)]
        exact ⟨_, rfl, hjs'⟩

/-- **The constructor** on a pattern an `int` can count. -/
theorem construct_spec (hint : first.length + 1 < 2 ^ 31) :
    ∃ skip, construct first = some ⟨first, skip⟩ ∧ Filled first first.length skip := by
  have h₀ : Filled first 0 ((List.replicate (first.length + 1) (0 : ℤ)).set 0 (-1)) := by
    refine ⟨by simp, fun q hq => ⟨-1, ?_, Or.inl ⟨by omega, rfl⟩⟩⟩
    obtain rfl : q = 0 := by omega
    exact List.getElem?_set_self (by simp)
  obtain ⟨skip, hskip, hfilled⟩ := skipLoop_spec hint (first.length + 1) 0 _ (by omega) (by omega) h₀
  refine ⟨skip, ?_, hfilled⟩
  have hw := write_natCast (v := List.replicate (first.length + 1) (0 : ℤ)) (i := 0) (by simp) (-1)
  rw [Nat.cast_zero] at hw
  rw [Nat.zero_add, Nat.cast_one] at hskip
  rw [construct, initSkipTable, hw, bind_eq_bind, bind_eq_bind, bind_some, hskip]
  rfl

theorem skipLoop_overflow (hint : 2 ^ 31 ≤ first.length + 1) :
    ∀ (fuel : ℕ) (i : ℤ) (skip : List ℤ), i < 2 ^ 31 → skipLoop first fuel i skip = none
  | 0, _, _, _ => rfl
  | fuel + 1, i, skip, hi => by
    rw [skipLoop, if_pos (by omega)]
    simp only [bind_eq_bind, bind_eq_none_iff]
    intro j _ j' _ j'' _ next _ skip' _ i' hi'
    refine skipLoop_overflow hint fuel i' skip' ?_
    rw [int] at hi'
    split at hi'
    · rename_i h
      cases hi'
      exact h.2
    · cases hi'

theorem construct_overflow (hint : 2 ^ 31 ≤ first.length + 1) : construct first = none := by
  simp only [construct, initSkipTable, bind_eq_bind, bind_eq_none_iff]
  intro skip hskip
  obtain ⟨skip', -, hskip⟩ := bind_eq_some_iff.mp hskip
  rw [skipLoop_overflow hint _ 1 skip' (by omega)] at hskip
  cases hskip

/-! ### The search -/

/-- **The inner loop**: it stops at the first difference, or at the end of the pattern. -/
theorem compareLoop_spec {pat corpus : List α} {s : ℕ} (hs : s + pat.length ≤ corpus.length) :
    ∀ (fuel idx : ℕ), pat.length < idx + fuel → idx < pat.length → Agree pat corpus s idx →
      ∃ n : ℕ, compareLoop pat corpus s fuel idx = some (n : ℤ) ∧ Agree pat corpus s n ∧
        (n = pat.length ∨ n < pat.length ∧ corpus[s + n]? ≠ pat[n]?)
  | 0, idx, hfuel, hidx, _ => by omega
  | fuel + 1, idx, hfuel, hidx, h => by
    rw [compareLoop, ← Nat.cast_add, read_natCast, read_natCast, List.getElem?_eq_getElem hidx,
      List.getElem?_eq_getElem (by omega : s + idx < corpus.length)]
    simp only [bind_eq_bind, bind_some]
    by_cases he : pat[idx] = corpus[s + idx]
    · rw [if_pos he]
      have h' : Agree pat corpus s (idx + 1) := h.succ (by
        rw [List.getElem?_eq_getElem hidx,
          List.getElem?_eq_getElem (by omega : s + idx < corpus.length), he])
      by_cases hend : idx + 1 = pat.length
      · exact ⟨idx + 1, if_pos (by omega), h', Or.inl hend⟩
      · rw [if_neg (by omega)]
        exact compareLoop_spec hs fuel (idx + 1) (by omega) (by omega) h'
    · rw [if_neg he]
      refine ⟨idx, rfl, h, Or.inr ⟨hidx, ?_⟩⟩
      rw [List.getElem?_eq_getElem hidx,
        List.getElem?_eq_getElem (by omega : s + idx < corpus.length)]
      exact fun e => he (some.inj e).symm

/-- The range of the first occurrence, and two ends of the corpus when there is none. -/
def IsFirst (pat corpus : List α) (r : ℤ × ℤ) : Prop :=
  (∃ i : ℕ, r = (↑i, ↑(i + pat.length)) ∧ pat <+: corpus.drop i ∧ ∀ i' < i, ¬ pat <+: corpus.drop i') ∨
    (∀ i, ¬ pat <+: corpus.drop i) ∧ r = (↑corpus.length, ↑corpus.length)

/-- **The loop of `do_search`** with every start before `s` excluded. -/
theorem searchLoop_spec {pat corpus : List α} {skip : List ℤ} (hpat : 0 < pat.length)
    (hle : pat.length ≤ corpus.length) (hskip : Filled pat pat.length skip) :
    ∀ (fuel s idx : ℕ), corpus.length < s + fuel → s ≤ corpus.length → idx < pat.length →
      Agree pat corpus s idx → (∀ i < s, ¬ Agree pat corpus i pat.length) →
      ∃ r, searchLoop ⟨pat, skip⟩ corpus (corpus.length - pat.length) fuel s idx = some r ∧
        IsFirst pat corpus r
  | 0, s, idx, hfuel, hs, _, _, _ => by omega
  | fuel + 1, s, idx, hfuel, hs, hidx, h, hnot => by
    rw [searchLoop]
    by_cases hlast : s + pat.length ≤ corpus.length
    · rw [if_pos (by omega)]
      obtain ⟨n, hn, hagree, hend⟩ := compareLoop_spec hlast (pat.length + 1) idx (by omega) hidx h
      rw [hn]
      simp only [bind_eq_bind, bind_some, Nat.cast_inj]
      rcases hend with rfl | ⟨hlt, hne⟩
      · rw [if_pos rfl]
        exact ⟨_, rfl, Or.inl ⟨s, by rw [Nat.cast_add], agree_iff_occurs.mp hagree,
          fun i hi hocc => hnot i hi (agree_iff_occurs.mpr hocc)⟩⟩
      · rw [if_neg (by omega), read_natCast]
        obtain ⟨j, hj, hjs⟩ := hskip.2 n (by omega)
        rw [hj, bind_some]
        rcases hjs with ⟨rfl, rfl⟩ | ⟨hpos, b, rfl, hborder, hlong⟩
        · -- the first elements differ: the next start
          rw [if_neg (by omega), show (s : ℤ) + ((0 : ℕ) - -1) = (s + 1 : ℕ) by omega]
          refine searchLoop_spec hpat hle hskip fuel (s + 1) 0 (by omega) (by omega) hpat
            (agree_zero _ _ _) fun i hi => ?_
          rcases Nat.lt_succ_iff_lt_or_eq.mp hi with h' | rfl
          · exact hnot i h'
          · exact not_agree_of_ne hagree hlt hne (b := 0)
              (fun k hk => absurd hk.1 (Nat.not_lt_zero k)) (Nat.le_refl i) (Or.inr rfl)
        · have hb := hborder.1
          rw [if_pos (Int.natCast_nonneg b), show (s : ℤ) + (n - b) = (s + (n - b) : ℕ) by omega]
          refine searchLoop_spec hpat hle hskip fuel (s + (n - b)) b (by omega) (by omega) (by omega)
            (hagree.move hborder) fun i hi => ?_
          rcases Nat.lt_or_ge i s with h' | h'
          · exact hnot i h'
          · exact not_agree_of_ne hagree hlt hne hlong h' (Or.inl (by omega))
    · rw [if_neg (by omega)]
      refine ⟨_, rfl, Or.inr ⟨fun i hocc => ?_, rfl⟩⟩
      have hagree := agree_iff_occurs.mpr hocc
      have := le_of_agree hagree hpat
      exact hnot i (by omega) hagree

/-- **The search** with a table that is filled. -/
theorem call_spec {pat : List α} {skip : List ℤ} (hskip : Filled pat pat.length skip)
    (corpus : List α) :
    ∃ r, (KnuthMorrisPratt.mk pat skip).call corpus = some r ∧ IsFirst pat corpus r := by
  unfold KnuthMorrisPratt.call
  by_cases hpat : pat.length = 0
  · -- the empty pattern is found at the start, also of an empty corpus
    obtain rfl := List.length_eq_zero_iff.mp hpat
    have hfirst : IsFirst [] corpus (0, 0) :=
      Or.inl ⟨0, rfl, List.nil_prefix, fun i hi => absurd hi (Nat.not_lt_zero i)⟩
    by_cases hcorpus : corpus.length = 0
    · rw [if_pos hcorpus, hcorpus]
      exact ⟨_, rfl, hfirst⟩
    · rw [if_neg hcorpus, if_pos (show ([] : List α).length = 0 from rfl)]
      exact ⟨_, rfl, hfirst⟩
  · have hshort : corpus.length < pat.length → IsFirst pat corpus (↑corpus.length, ↑corpus.length) := by
      refine fun hlt => Or.inr ⟨fun i hocc => ?_, rfl⟩
      have := le_of_agree (agree_iff_occurs.mpr hocc) (by omega)
      omega
    by_cases hcorpus : corpus.length = 0
    · rw [if_pos hcorpus]
      exact ⟨_, rfl, hshort (by omega)⟩
    · rw [if_neg hcorpus, if_neg hpat]
      by_cases hlt : corpus.length < pat.length
      · rw [if_pos hlt]
        exact ⟨_, rfl, hshort hlt⟩
      · rw [if_neg hlt]
        exact searchLoop_spec (by omega) (by omega) hskip _ 0 0 (by omega) (by omega) (by omega)
          (agree_zero _ _ _) fun i hi => absurd hi (Nat.not_lt_zero i)

/-- **The search is exact for the patterns an `int` can count**, and no others: it returns the range
of the first occurrence, or two ends of the corpus when there is none. -/
theorem search_first_iff (corpus pattern : List α) :
    (∃ r, search corpus pattern = some r ∧ IsFirst pattern corpus r) ↔
      pattern.length < 2 ^ 31 - 1 := by
  constructor
  · rintro ⟨r, hr, -⟩
    by_contra hlong
    rw [search, construct_overflow (by omega)] at hr
    cases hr
  · intro hint
    obtain ⟨skip, hskip, hfilled⟩ := construct_spec (show pattern.length + 1 < 2 ^ 31 by omega)
    obtain ⟨r, hr, hfirst⟩ := call_spec hfilled corpus
    refine ⟨r, ?_, hfirst⟩
    rw [search, hskip]
    exact hr

end

/-- `2 ^ 31 - 1` equal elements: the constructor's counter overflows. -/
theorem search_overflows :
    ¬ ∃ r, search [true] (List.replicate (2 ^ 31 - 1) true) = some r ∧
      IsFirst (List.replicate (2 ^ 31 - 1) true) [true] r := by
  rintro ⟨r, hr, -⟩
  rw [search, construct_overflow (by rw [List.length_replicate]; omega)] at hr
  cases hr

example : search [1, 2, 1, 1, 2, 1, 2] [1, 2, 1, 2] = some (3, 7) := by decide

end SourceLibs.Searching
