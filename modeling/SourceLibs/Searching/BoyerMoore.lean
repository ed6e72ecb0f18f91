import SourceLibs.Searching.KnuthMorrisPratt
import Mathlib.Logic.Function.Basic

/-!
# Searching — Boyer–Moore

`algorithm/searching/boyer_moore.hpp`, with both skip tables of `detail/bm_traits.hpp`.  Positions
are of `difference_type` or `size_t`, which count every pattern.  Reading or writing outside a range
and an assertion that fails are undefined (`none`).

* `computeBmPrefix_spec`: entry `i` is the longest border of the first `i + 1` elements.
* `buildSuffixTable_spec`: what the table for the good suffix holds.
* `skip_exact`: a skip is at least one and passes no occurrence.
* `boyerMoore_first`: the search finds the first occurrence.
-/

namespace SourceLibs.Searching
open Borders

/-! ### The skip tables -/

/-- A skip table: what it holds at first, and what after an entry is set. -/
structure SkipTraits (α : Type) where
  Table : Type
  new : ℕ → ℤ → Table
  insert : Table → α → ℤ → Table
  get : Table → α → ℤ
  get_new : ∀ patSize default key, get (new patSize default) key = default
  get_insert_self : ∀ table key val, get (insert table key val) key = val
  get_insert_of_ne : ∀ table key val key', key' ≠ key → get (insert table key val) key' = get table key'

/-- `skip_table<key_type, value_type, false>`: an `unordered_map` and the default value. -/
structure SkipMap (α : Type) where
  kDefaultValue : ℤ
  skip : α → Option ℤ

/-- `skip_table<key_type, value_type, true>`: an array with an entry for each byte. -/
structure SkipArray where
  kDefaultValue : ℤ
  skip : Vector ℤ (2 ^ 8)

/-- The table of element types that are not bytes. -/
def mapTraits (α : Type) [DecidableEq α] : SkipTraits α where
  Table := SkipMap α
  new _ default := ⟨default, fun _ => none⟩
  insert table key val := { table with skip := Function.update table.skip key (some val) }
  get table key := (table.skip key).getD table.kDefaultValue
  get_new _ _ _ := rfl
  get_insert_self table key val := by simp
  get_insert_of_ne table key val key' h := by simp [Function.update_of_ne h]

/-- The table of byte types; a key is cast to its unsigned type for an index. -/
def byteTraits : SkipTraits (BitVec 8) where
  Table := SkipArray
  new _ default := ⟨default, Vector.replicate (2 ^ 8) default⟩
  insert table key val := { table with skip := table.skip.set key.toNat val key.isLt }
  get table key :=
    have hkey : key.toNat < 2 ^ 8 := key.isLt
    table.skip[key.toNat]
  get_new _ _ _ := by simp
  get_insert_self table key val := by simp
  get_insert_of_ne table key val key' h := by
    rw [Vector.getElem_set_ne]
    exact fun e => h (BitVec.eq_of_toNat_eq e.symm)

variable {α : Type}

/-- `pat_first … pat_last`, `skip_` and `suffix_`. -/
structure BoyerMoore (tr : SkipTraits α) where
  pat : List α
  skip : tr.Table
  suffix : List ℤ

section
variable [DecidableEq α] {pat : List α}

/-! ### The tables -/

/-- The loop of `build_skip_table`. -/
def skipTableLoop (tr : SkipTraits α) : List α → ℤ → tr.Table → tr.Table
  | [], _, skip => skip
  | x :: first, i, skip => skipTableLoop tr first (i + 1) (tr.insert skip x i)

/-- The inner loop of `compute_bm_prefix`. -/
def prefixBack (pat : List α) (prefixes : List ℤ) (i : ℤ) : ℕ → ℤ → Option ℤ
  | 0, _ => none
  | fuel + 1, k =>
    if 0 < k then do
      let x ← read pat k
      let y ← read pat i
      if x ≠ y then
        if k < pat.length then do
          let k ← read prefixes (k - 1)
          prefixBack pat prefixes i fuel k
        else none
      else some k
    else some k

/-- The loop of `compute_bm_prefix`. -/
def prefixLoop (pat : List α) : ℕ → ℤ → ℤ → List ℤ → Option (List ℤ)
  | 0, _, _, _ => none
  | fuel + 1, i, k, prefixes =>
    if i < pat.length then
      if k < pat.length then do
        let k ← prefixBack pat prefixes i (pat.length + 1) k
        let x ← read pat k
        let y ← read pat i
        let k := if x = y then k + 1 else k
        let prefixes ← write prefixes i k
        prefixLoop pat fuel (i + 1) k prefixes
      else none
    else some prefixes

/-- `compute_bm_prefix`, for a vector of as many entries. -/
def computeBmPrefix (pat : List α) (prefixes : List ℤ) : Option (List ℤ) :=
  if 0 < pat.length ∧ prefixes.length = pat.length then do
    let prefixes ← write prefixes 0 0
    prefixLoop pat (pat.length + 1) 1 0 prefixes
  else none

/-- `if (suffix_[j] > k) suffix_[j] = k`. -/
def lowerEntry (suffix : List ℤ) (j k : ℤ) : Option (List ℤ) := do
  let old ← read suffix j
  if old > k then write suffix j k else some suffix

/-- The second loop of `build_suffix_table`; the number of rounds left is counted down. -/
def suffixLoop (count : ℤ) (prefixReversed : List ℤ) : ℕ → ℤ → List ℤ → Option (List ℤ)
  | 0, _, suffix => some suffix
  | rounds + 1, i, suffix => do
    let p ← read prefixReversed i
    let suffix ← lowerEntry suffix (count - p) (i - p + 1)
    suffixLoop count prefixReversed rounds (i + 1) suffix

def buildSuffixTable (pat : List α) (suffix : List ℤ) : Option (List ℤ) :=
  if 0 < pat.length then do
    let prefixes ← computeBmPrefix pat (List.replicate pat.length 0)
    let prefixReversed ← computeBmPrefix pat.reverse (List.replicate pat.length 0)
    let last ← read prefixes (pat.length - 1)
    suffixLoop pat.length prefixReversed pat.length 0 (suffix.map fun _ => pat.length - last)
  else some suffix

/-- The constructor. -/
def BoyerMoore.construct (tr : SkipTraits α) (pat : List α) : Option (BoyerMoore tr) := do
  let skip := skipTableLoop tr pat 0 (tr.new pat.length (-1))
  let suffix ← buildSuffixTable pat (List.replicate (pat.length + 1) 0)
  some ⟨pat, skip, suffix⟩

/-! ### The search -/

/-- The inner loop of `do_search`, from the end of the pattern: `0` after a match. -/
def matchLoop (pat corpus : List α) (curPos : ℤ) : ℕ → ℤ → Option ℤ
  | 0, _ => none
  | fuel + 1, j => do
    let x ← read pat (j - 1)
    let y ← read corpus (curPos + (j - 1))
    if x = y then
      if j - 1 = 0 then some 0
      else matchLoop pat corpus curPos fuel (j - 1)
    else some j

namespace BoyerMoore

variable {tr : SkipTraits α}

/-- How far `do_search` skips after a difference at element `j - 1`. -/
def skipFrom (bm : BoyerMoore tr) (corpus : List α) (curPos j : ℤ) : Option ℤ := do
  let c ← read corpus (curPos + (j - 1))
  let k := tr.get bm.skip c
  let m := j - k - 1
  let s ← read bm.suffix j
  some (if k < j ∧ m > s then m else s)

/-- The loop of `do_search`. -/
def searchFrom (bm : BoyerMoore tr) (corpus : List α) (lastPos : ℤ) : ℕ → ℤ → Option (ℤ × ℤ)
  | 0, _ => none
  | fuel + 1, curPos =>
    if curPos ≤ lastPos then do
      let j ← matchLoop bm.pat corpus curPos (bm.pat.length + 1) bm.pat.length
      if j = 0 then some (curPos, curPos + bm.pat.length)
      else do
        let skip ← bm.skipFrom corpus curPos j
        searchFrom bm corpus lastPos fuel (curPos + skip)
    else some (corpus.length, corpus.length)

/-- `operator()`: the range of the corpus that is found. -/
def call (bm : BoyerMoore tr) (corpus : List α) : Option (ℤ × ℤ) :=
  if corpus.length = 0 then some (corpus.length, corpus.length)
  else if bm.pat.length = 0 then some (0, 0)
  else if corpus.length < bm.pat.length then some (corpus.length, corpus.length)
  else bm.searchFrom corpus (corpus.length - bm.pat.length) (corpus.length + 2) 0

end BoyerMoore

/-- `boyer_moore_search`: where the match is. -/
def boyerMooreSearch (tr : SkipTraits α) (corpus pattern : List α) : Option (ℤ × ℤ) := do
  let bm ← BoyerMoore.construct tr pattern
  bm.call corpus

omit [DecidableEq α] in
theorem read_lt {v : List α} {i : ℕ} (h : i < v.length) : read v i = some v[i] := by
  rw [read_natCast, List.getElem?_eq_getElem h]

/-! ### The last index of an element -/

/-- `k` is the last index of `c`, or `-1` where there is none. -/
def IsLastIndex (pat : List α) (c : α) (k : ℤ) : Prop :=
  (k = -1 ∧ c ∉ pat) ∨ ∃ i : ℕ, k = i ∧ pat[i]? = some c ∧ ∀ i' > i, pat[i']? ≠ some c

omit [DecidableEq α] in
theorem IsLastIndex.bounds {c : α} {k : ℤ} (h : IsLastIndex pat c k) : -1 ≤ k ∧ k < pat.length := by
  rcases h with ⟨rfl, -⟩ | ⟨i, rfl, hi, -⟩
  · omega
  · have := (List.getElem?_eq_some_iff.mp hi).1
    omega

omit [DecidableEq α] in
theorem IsLastIndex.not_after {c : α} {k : ℤ} (h : IsLastIndex pat c k) {i : ℕ} (hi : k < i) :
    pat[i]? ≠ some c := by
  rcases h with ⟨-, hno⟩ | ⟨l, rfl, -, hlast⟩
  · exact fun he => hno (List.mem_of_getElem? he)
  · exact hlast i (by omega)

/-- **The loop of `build_skip_table`**, with the elements of `done` entered. -/
theorem skipTableLoop_spec (tr : SkipTraits α) (c : α) : ∀ (done rest : List α) (skip : tr.Table),
    IsLastIndex done c (tr.get skip c) →
    IsLastIndex (done ++ rest) c (tr.get (skipTableLoop tr rest done.length skip) c)
  | done, [], skip, h => by rwa [List.append_nil]
  | done, x :: rest, skip, h => by
    have hnext : IsLastIndex (done ++ [x]) c (tr.get (tr.insert skip x done.length) c) := by
      by_cases hc : c = x
      · subst hc
        rw [tr.get_insert_self]
        refine Or.inr ⟨done.length, rfl, by simp, fun i hi he => ?_⟩
        have := (List.getElem?_eq_some_iff.mp he).1
        simp only [List.length_append, List.length_singleton] at this
        omega
      · rw [tr.get_insert_of_ne _ _ _ _ hc]
        rcases h with ⟨hk, hno⟩ | ⟨i, hk, hi, hlast⟩
        · exact Or.inl ⟨hk, by simp [hno, hc]⟩
        · have hlt := (List.getElem?_eq_some_iff.mp hi).1
          refine Or.inr ⟨i, hk, by rwa [List.getElem?_append_left hlt], fun i' hi' he => ?_⟩
          by_cases hend : i' < done.length
          · rw [List.getElem?_append_left hend] at he
            exact hlast i' hi' he
          · rw [List.getElem?_append_right (by omega)] at he
            have hx := List.mem_singleton.mp (List.mem_of_getElem? he)
            exact hc hx
    have := skipTableLoop_spec tr c (done ++ [x]) rest _ hnext
    rw [List.append_assoc, List.singleton_append, List.length_append, List.length_singleton] at this
    rw [skipTableLoop]
    exact_mod_cast this

/-! ### The longest borders -/

/-- Entry `i` is the longest border of the first `i + 1` elements, for the first `n` entries. -/
def Bordered (pat : List α) (n : ℕ) (prefixes : List ℤ) : Prop :=
  prefixes.length = pat.length ∧
    ∀ i < n, ∃ b : ℕ, prefixes[i]? = some (b : ℤ) ∧ IsLongest pat (i + 1) b

/-- **The inner loop** goes down the borders of the first `i` elements to one that can be extended, or
to zero. -/
theorem prefixBack_spec {prefixes : List ℤ} {i : ℕ} (hi : i < pat.length)
    (hp : Bordered pat i prefixes) :
    ∀ (fuel k : ℕ), k < fuel → IsBorder pat i k →
      (∀ k', IsBorder pat i k' → pat[k']? = pat[i]? → k' ≤ k) →
      ∃ b : ℕ, prefixBack pat prefixes i fuel k = some (b : ℤ) ∧ IsBorder pat i b ∧
        (∀ k', IsBorder pat i k' → pat[k']? = pat[i]? → k' ≤ b) ∧ (b = 0 ∨ pat[b]? = pat[i]?)
  | 0, k, hfuel, _, _ => by omega
  | fuel + 1, k, hfuel, hk, hmax => by
    have hki := hk.1
    rw [prefixBack]
    by_cases h₀ : k = 0
    · rw [if_neg (by omega)]
      exact ⟨k, rfl, hk, hmax, Or.inl h₀⟩
    · rw [if_pos (by omega), read_lt (by omega : k < pat.length), read_lt hi]
      simp only [Option.bind_eq_bind, Option.bind_some]
      by_cases he : pat[k] = pat[i]
      · rw [if_neg (not_not.mpr he)]
        refine ⟨k, rfl, hk, hmax, Or.inr ?_⟩
        rw [List.getElem?_eq_getElem (by omega : k < pat.length), List.getElem?_eq_getElem hi, he]
      · obtain ⟨b, hb, hlong⟩ := hp.2 (k - 1) (by omega)
        rw [if_pos he, if_pos (by omega), show ((k : ℕ) : ℤ) - 1 = (k - 1 : ℕ) by omega,
          read_natCast, hb, Option.bind_some]
        rw [Nat.sub_add_cancel (by omega)] at hlong
        have hne : pat[k]? ≠ pat[i]? := by
          rw [List.getElem?_eq_getElem (by omega : k < pat.length), List.getElem?_eq_getElem hi]
          exact fun e => he (Option.some.inj e)
        -- a candidate below `k` is a border of the first `k` elements
        refine prefixBack_spec hi hp fuel b (by have := hlong.1.1; omega) (hk.trans hlong.1) ?_
        intro k' hk' he'
        have hlt := Nat.lt_of_le_of_ne (hmax k' hk' he') fun e => hne (e ▸ he')
        exact hlong.2 k' (hk.of_lt hk' hlt)

/-- **The loop of `compute_bm_prefix`.** -/
theorem prefixLoop_spec :
    ∀ (fuel i k : ℕ) (prefixes : List ℤ), pat.length < i + fuel →
    0 < i → i ≤ pat.length → Bordered pat i prefixes → IsLongest pat i k →
    ∃ prefixes', prefixLoop pat fuel i k prefixes = some prefixes' ∧
      Bordered pat pat.length prefixes'
  | 0, i, _, _, hfuel, _, hi, _, _ => by omega
  | fuel + 1, i, k, prefixes, hfuel, hpos, hi, hp, hk => by
    have hki := hk.1.1
    rw [prefixLoop]
    by_cases hend : i = pat.length
    · rw [if_neg (by omega)]
      exact ⟨prefixes, rfl, hend ▸ hp⟩
    · have hlt : i < pat.length := by omega
      rw [if_pos (by omega), if_pos (by omega)]
      obtain ⟨b, hb, hborder, hmax, hstop⟩ :=
        prefixBack_spec hlt hp (pat.length + 1) k (by omega) hk.1 fun k' hk' _ => hk.2 k' hk'
      have hbi := hborder.1
      rw [hb]
      simp only [Option.bind_eq_bind, Option.bind_some]
      rw [read_lt (by omega : b < pat.length), read_lt hlt]
      simp only [Option.bind_some]
      -- the entry that is written
      obtain ⟨k', hk', hlong⟩ : ∃ k' : ℕ,
          (if pat[b] = pat[i] then (b : ℤ) + 1 else b) = k' ∧ IsLongest pat (i + 1) k' := by
        by_cases he : pat[b] = pat[i]
        · refine ⟨b + 1, by rw [if_pos he]; push_cast; rfl, isLongest_succ hborder ?_ hmax⟩
          rw [List.getElem?_eq_getElem (by omega : b < pat.length), List.getElem?_eq_getElem hlt, he]
        · have hne : pat[b]? ≠ pat[i]? := by
            rw [List.getElem?_eq_getElem (by omega : b < pat.length), List.getElem?_eq_getElem hlt]
            exact fun e => he (Option.some.inj e)
          obtain rfl : b = 0 := hstop.resolve_right hne
          refine ⟨0, by rw [if_neg he], isLongest_succ_zero fun k' hb' he' => ?_⟩
          obtain rfl : k' = 0 := Nat.le_zero.mp (hmax k' hb' he')
          exact hne he'
      rw [hk', write_natCast (by rw [hp.1]; omega), Option.bind_some,
        show (i : ℤ) + 1 = (i + 1 : ℕ) by push_cast; rfl]
      refine prefixLoop_spec fuel (i + 1) k' _ (by omega) (by omega) (by omega)
        ⟨by rw [List.length_set, hp.1], fun q hq => ?_⟩ hlong
      rcases Nat.lt_succ_iff_lt_or_eq.mp hq with h | rfl
      · rw [List.getElem?_set_ne (by omega)]
        exact hp.2 q h
      · rw [List.getElem?_set_self (by rw [hp.1]; omega)]
        exact ⟨k', rfl, hlong⟩

omit [DecidableEq α] in
theorem isLongest_one (pat : List α) : IsLongest pat 1 0 :=
  ⟨isBorder_zero pat Nat.one_pos, fun _ hk => Nat.le_of_lt_succ hk.1⟩

theorem computeBmPrefix_spec {prefixes : List ℤ} (hpos : 0 < pat.length)
    (hlen : prefixes.length = pat.length) :
    ∃ prefixes',
      computeBmPrefix pat prefixes = some prefixes' ∧ Bordered pat pat.length prefixes' := by
  have hw := write_natCast (v := prefixes) (i := 0) (by omega) (0 : ℤ)
  rw [Nat.cast_zero] at hw
  have h₁ : Bordered pat 1 (prefixes.set 0 0) := by
    refine ⟨by rw [List.length_set, hlen], fun i hi => ⟨0, ?_, ?_⟩⟩
    · obtain rfl : i = 0 := by omega
      rw [List.getElem?_set_self (by omega), Nat.cast_zero]
    · obtain rfl : i = 0 := by omega
      exact isLongest_one pat
  obtain ⟨prefixes', h, hb⟩ := prefixLoop_spec (pat.length + 1) 1 0 _ (by omega) Nat.one_pos
    (by omega) h₁ (isLongest_one pat)
  refine ⟨prefixes', ?_, hb⟩
  rw [computeBmPrefix, if_pos ⟨hpos, hlen⟩, hw, Option.bind_eq_bind, Option.bind_some]
  exact_mod_cast h

/-! ### The table for the good suffix -/

/-- Entry `j` is the least move that fits what was matched from `j` on. -/
def GoodSuffix (pat : List α) (suffix : List ℤ) : Prop :=
  suffix.length = pat.length + 1 ∧
    ∀ j ≤ pat.length, ∃ d : ℕ, suffix[j]? = some (d : ℤ) ∧ 0 < d ∧ Fits pat j d ∧
      ∀ d', 0 < d' → Fits pat j d' → d ≤ d'

/-- What the table holds after `i` rounds: moves that fit, none longer than the one the longest
border of the pattern gives or one of the first `i` borders of the reversed pattern. -/
def Lowered (pat : List α) (b i : ℕ) (suffix : List ℤ) : Prop :=
  suffix.length = pat.length + 1 ∧
    ∀ j ≤ pat.length, ∃ d : ℕ, suffix[j]? = some (d : ℤ) ∧ 0 < d ∧ Fits pat j d ∧
      d ≤ pat.length - b ∧
      ∀ i' < i, ∀ b', IsLongest pat.reverse (i' + 1) b' → j + b' = pat.length → d ≤ i' + 1 - b'

omit [DecidableEq α] in
/-- **The second loop of `build_suffix_table`.** -/
theorem suffixLoop_spec {b : ℕ} {prefixReversed : List ℤ}
    (hp : Bordered pat.reverse pat.length prefixReversed) :
    ∀ (rounds i : ℕ) (suffix : List ℤ),
    i + rounds = pat.length → Lowered pat b i suffix →
    ∃ suffix', suffixLoop pat.length prefixReversed rounds i suffix = some suffix' ∧
      Lowered pat b pat.length suffix'
  | 0, i, suffix, hi, h => ⟨suffix, rfl, (show i = pat.length by omega) ▸ h⟩
  | rounds + 1, i, suffix, hi, h => by
    obtain ⟨b', hread, hlong⟩ := hp.2 i (by omega)
    have hlt := hlong.1.1
    obtain ⟨d, hd, hpos, hfits, hle, hmin⟩ := h.2 (pat.length - b') (by omega)
    have hread' : read suffix ((pat.length : ℤ) - b') = some (d : ℤ) := by
      rw [show (pat.length : ℤ) - b' = (pat.length - b' : ℕ) by omega, read_natCast, hd]
    -- the round lowers the entry to `i + 1 - b'`, if it is above
    obtain ⟨suffix', hs', hlen', hself, hne⟩ : ∃ suffix' : List ℤ,
        lowerEntry suffix (pat.length - b') (i - b' + 1) = some suffix' ∧
        suffix'.length = pat.length + 1 ∧
        suffix'[pat.length - b']? = some ((min d (i + 1 - b') : ℕ) : ℤ) ∧
        ∀ j, j ≠ pat.length - b' → suffix'[j]? = suffix[j]? := by
      rw [lowerEntry, hread']
      simp only [Option.bind_eq_bind, Option.bind_some]
      by_cases hgt : (d : ℤ) > i - b' + 1
      · rw [if_pos hgt, show (pat.length : ℤ) - b' = (pat.length - b' : ℕ) by omega,
          write_natCast (by rw [h.1]; omega)]
        refine ⟨_, rfl, by rw [List.length_set, h.1], ?_, fun j hj => List.getElem?_set_ne hj.symm⟩
        rw [List.getElem?_set_self (by rw [h.1]; omega)]
        congr 1
        omega
      · rw [if_neg hgt]
        exact ⟨suffix, rfl, h.1, by rw [hd, Nat.min_eq_left (by omega)], fun _ _ => rfl⟩
    rw [suffixLoop, read_natCast, hread]
    simp only [Option.bind_eq_bind, Option.bind_some]
    rw [hs', Option.bind_some, show (i : ℤ) + 1 = (i + 1 : ℕ) by push_cast; rfl]
    refine suffixLoop_spec hp rounds (i + 1) suffix' (by omega) ⟨hlen', fun j hj => ?_⟩
    by_cases hjb : j = pat.length - b'
    · subst hjb
      refine ⟨_, hself, by omega, ?_, (Nat.min_le_left ..).trans hle, fun i' hi' b'' hb'' hjb'' => ?_⟩
      · rcases Nat.le_total d (i + 1 - b') with hmin' | hmin'
        · rwa [Nat.min_eq_left hmin']
        · rw [Nat.min_eq_right hmin']
          refine (fits_iff_isBorder_reverse (by omega) (by omega) (by omega)).mpr ?_
          rw [show pat.length - (pat.length - b') = b' by omega,
            show b' + (i + 1 - b') = i + 1 by omega]
          exact hlong.1
      · rcases Nat.lt_succ_iff_lt_or_eq.mp hi' with hi' | rfl
        · exact (Nat.min_le_left ..).trans (hmin i' hi' b'' hb'' hjb'')
        · rw [hb''.unique hlong]
          exact Nat.min_le_right ..
    · obtain ⟨d', hd', hpos', hfits', hle', hmin'⟩ := h.2 j hj
      refine ⟨d', by rw [hne j hjb, hd'], hpos', hfits', hle', fun i' hi' b'' hb'' hjb'' => ?_⟩
      rcases Nat.lt_succ_iff_lt_or_eq.mp hi' with hi' | rfl
      · exact hmin' i' hi' b'' hb'' hjb''
      · have := hb''.unique hlong
        omega

theorem buildSuffixTable_spec {suffix : List ℤ} (hpos : 0 < pat.length)
    (hlen : suffix.length = pat.length + 1) :
    ∃ suffix', buildSuffixTable pat suffix = some suffix' ∧ GoodSuffix pat suffix' := by
  obtain ⟨prefixes, hp, hborder⟩ := computeBmPrefix_spec hpos
    (List.length_replicate (n := pat.length) (a := (0 : ℤ)))
  have hpos' : 0 < pat.reverse.length := by rwa [List.length_reverse]
  have hlen' : (List.replicate pat.length (0 : ℤ)).length = pat.reverse.length := by
    rw [List.length_replicate, List.length_reverse]
  obtain ⟨reversed, hr, hborder'⟩ := computeBmPrefix_spec hpos' hlen'
  rw [List.length_reverse] at hborder'
  obtain ⟨b, hread, hlong⟩ := hborder.2 (pat.length - 1) (by omega)
  rw [Nat.sub_add_cancel hpos] at hlong
  have hbn := hlong.1.1
  have h₀ : Lowered pat b 0 (suffix.map fun _ => (pat.length : ℤ) - b) := by
    refine ⟨by rw [List.length_map, hlen], fun j hj => ⟨pat.length - b, ?_, by omega,
      hlong.1.fits j, Nat.le_refl _, fun i' hi' => absurd hi' (Nat.not_lt_zero i')⟩⟩
    rw [List.getElem?_map, List.getElem?_eq_getElem (by omega), Option.map_some]
    congr 1
    omega
  obtain ⟨suffix', hs, hlow⟩ := suffixLoop_spec hborder' pat.length 0 _ (Nat.zero_add _) h₀
  refine ⟨suffix', ?_, hlow.1, fun j hj => ?_⟩
  · rw [buildSuffixTable, if_pos hpos, hp, hr]
    simp only [Option.bind_eq_bind, Option.bind_some]
    rw [show (pat.length : ℤ) - 1 = (pat.length - 1 : ℕ) by omega, read_natCast, hread,
      Option.bind_some]
    exact hs
  · obtain ⟨d, hd, hd₀, hfits, hle, hmin⟩ := hlow.2 j hj
    refine ⟨d, hd, hd₀, hfits, fun d' hd' hfits' => ?_⟩
    by_cases hdj : d' ≤ j
    · refine le_of_longest_borders hj (fun i hi => ?_) hmin hd' hdj
        ((fits_iff_isBorder_reverse hd' hdj hj).mp hfits')
      obtain ⟨b', -, hb'⟩ := hborder'.2 i hi
      exact ⟨b', hb'⟩
    · by_cases hdn : d' ≤ pat.length
      · have := hlong.2 _ (hfits'.isBorder hd' (by omega) hdn)
        omega
      · omega

/-! ### The search -/

/-- **The inner loop of `do_search`**: it goes down to a difference, or through the whole pattern. -/
theorem matchLoop_spec {pat corpus : List α} {s : ℕ} (hs : s + pat.length ≤ corpus.length) :
    ∀ (fuel j : ℕ), j < fuel → 0 < j → j ≤ pat.length →
      (∀ t, j ≤ t → t < pat.length → corpus[s + t]? = pat[t]?) →
      ∃ j' : ℕ, matchLoop pat corpus s fuel j = some (j' : ℤ) ∧ j' ≤ pat.length ∧
        (∀ t, j' ≤ t → t < pat.length → corpus[s + t]? = pat[t]?) ∧
        (0 < j' → corpus[s + (j' - 1)]? ≠ pat[j' - 1]?)
  | 0, j, hfuel, _, _, _ => by omega
  | fuel + 1, j, hfuel, hj, hle, h => by
    have hpat : read pat ((j : ℤ) - 1) = some pat[j - 1] := by
      rw [show (j : ℤ) - 1 = (j - 1 : ℕ) by omega, read_lt (by omega)]
    have hcorpus : read corpus ((s : ℤ) + (j - 1)) = some corpus[s + (j - 1)] := by
      rw [show (s : ℤ) + (j - 1) = (s + (j - 1) : ℕ) by omega, read_lt (by omega)]
    rw [matchLoop, hpat, hcorpus]
    simp only [Option.bind_eq_bind, Option.bind_some]
    by_cases he : pat[j - 1] = corpus[s + (j - 1)]
    · rw [if_pos he]
      have hnext : ∀ t, j - 1 ≤ t → t < pat.length → corpus[s + t]? = pat[t]? := by
        intro t ht htl
        rcases Nat.eq_or_lt_of_le ht with rfl | hlt
        · rw [List.getElem?_eq_getElem htl, List.getElem?_eq_getElem (by omega), he]
        · exact h t (by omega) htl
      by_cases hone : (j : ℤ) - 1 = 0
      · rw [if_pos hone]
        exact ⟨0, rfl, Nat.zero_le _, fun t _ => hnext t (by omega), fun h₀ => absurd h₀ (by omega)⟩
      · rw [if_neg hone, show (j : ℤ) - 1 = (j - 1 : ℕ) by omega]
        exact matchLoop_spec hs fuel (j - 1) (by omega) (by omega) (by omega) hnext
    · rw [if_neg he]
      refine ⟨j, rfl, hle, h, fun _ => ?_⟩
      rw [List.getElem?_eq_getElem (by omega : j - 1 < pat.length),
        List.getElem?_eq_getElem (by omega : s + (j - 1) < corpus.length)]
      exact fun e => he (Option.some.inj e).symm

omit [DecidableEq α] in
/-- An occurrence nearer than the good suffix can be moved would fit it. -/
theorem fits_of_agree {pat corpus : List α} {s j d : ℕ}
    (hmatch : ∀ t, j ≤ t → t < pat.length → corpus[s + t]? = pat[t]?)
    (h : Agree pat corpus (s + d) pat.length) : Fits pat j d := by
  intro t hj hd ht
  rw [← hmatch t hj ht, ← h (t - d) (by omega), show s + d + (t - d) = s + t by omega]

namespace BoyerMoore

variable {tr : SkipTraits α} {bm : BoyerMoore tr}

/-- What the constructor leaves: the last index of each element and the moves that fit. -/
structure Built (bm : BoyerMoore tr) : Prop where
  skip : ∀ c, IsLastIndex bm.pat c (tr.get bm.skip c)
  suffix : 0 < bm.pat.length → GoodSuffix bm.pat bm.suffix

/-- **The constructor.** -/
theorem construct_spec (tr : SkipTraits α) (pat : List α) :
    ∃ bm, construct tr pat = some bm ∧ bm.pat = pat ∧ bm.Built := by
  have hskip : ∀ c, IsLastIndex pat c
      (tr.get (skipTableLoop tr pat 0 (tr.new pat.length (-1))) c) := fun c => by
    have := skipTableLoop_spec tr c [] pat (tr.new pat.length (-1))
      (Or.inl ⟨tr.get_new _ _ _, List.not_mem_nil⟩)
    exact_mod_cast this
  rw [construct]
  rcases Nat.eq_zero_or_pos pat.length with h₀ | hpos
  · rw [buildSuffixTable, if_neg (by omega)]
    exact ⟨_, rfl, rfl, hskip, fun h => absurd h (by simp only; omega)⟩
  · obtain ⟨suffix, hs, hgood⟩ :=
      buildSuffixTable_spec hpos (List.length_replicate (n := pat.length + 1) (a := (0 : ℤ)))
    rw [hs]
    exact ⟨_, rfl, rfl, hskip, fun _ => hgood⟩

omit [DecidableEq α] in
/-- **A skip**: it is at least one, stays inside the corpus and passes no occurrence. -/
theorem skipFrom_spec (h : bm.Built) {corpus : List α} {s j : ℕ}
    (hs : s + bm.pat.length ≤ corpus.length) (hj : 0 < j) (hle : j ≤ bm.pat.length)
    (hmatch : ∀ t, j ≤ t → t < bm.pat.length → corpus[s + t]? = bm.pat[t]?)
    (hne : corpus[s + (j - 1)]? ≠ bm.pat[j - 1]?) :
    ∃ d : ℕ, bm.skipFrom corpus s j = some (d : ℤ) ∧ 0 < d ∧ d ≤ bm.pat.length ∧
      ∀ i, s ≤ i → i < s + d → ¬ Agree bm.pat corpus i bm.pat.length := by
  obtain ⟨d, hd, hpos, -, hmin⟩ := (h.suffix (by omega)).2 j hle
  have hlt : s + (j - 1) < corpus.length := by omega
  have hlast := h.skip corpus[s + (j - 1)]
  have hb := hlast.bounds
  have hdn : d ≤ bm.pat.length := hmin bm.pat.length (by omega) fun t _ h₁ h₂ => absurd h₁ (by omega)
  have hhere : ¬ Agree bm.pat corpus s bm.pat.length := fun ha => hne (ha (j - 1) (by omega))
  rw [skipFrom, show (s : ℤ) + ((j : ℤ) - 1) = (s + (j - 1) : ℕ) by omega, read_lt hlt, read_natCast,
    hd]
  simp only [Option.bind_eq_bind, Option.bind_some]
  generalize tr.get bm.skip corpus[s + (j - 1)] = k at *
  by_cases hm : k < j ∧ (j : ℤ) - k - 1 > d
  · -- the bad character: between its last index and the difference it does not occur
    rw [if_pos hm]
    refine ⟨((j : ℤ) - k - 1).toNat, by rw [Int.toNat_of_nonneg (by omega)], by omega, by omega, ?_⟩
    intro i hi hi' ha
    rcases Nat.eq_or_lt_of_le hi with rfl | hgt
    · exact hhere ha
    · refine hlast.not_after (i := j - 1 - (i - s)) (by omega) ?_
      rw [← ha _ (by omega), show i + (j - 1 - (i - s)) = s + (j - 1) by omega,
        List.getElem?_eq_getElem hlt]
  · -- the good suffix
    rw [if_neg hm]
    refine ⟨d, rfl, hpos, hdn, fun i hi hi' ha => ?_⟩
    rcases Nat.eq_or_lt_of_le hi with rfl | hgt
    · exact hhere ha
    · have := hmin (i - s) (by omega)
        (fits_of_agree hmatch (by rwa [show s + (i - s) = i by omega]))
      omega

/-- **The loop of `do_search`** with every start before `s` excluded. -/
theorem searchFrom_spec (h : bm.Built) {corpus : List α} (hpat : 0 < bm.pat.length)
    (hle : bm.pat.length ≤ corpus.length) :
    ∀ (fuel s : ℕ),
      corpus.length < s + fuel → s ≤ corpus.length →
      (∀ i < s, ¬ Agree bm.pat corpus i bm.pat.length) →
      ∃ r, bm.searchFrom corpus (corpus.length - bm.pat.length) fuel s = some r ∧
        IsFirst bm.pat corpus r
  | 0, s, hfuel, hs, _ => by omega
  | fuel + 1, s, hfuel, hs, hnot => by
    rw [searchFrom]
    by_cases hlast : s + bm.pat.length ≤ corpus.length
    · obtain ⟨j, hj, hjle, hmatch, hne⟩ := matchLoop_spec hlast (bm.pat.length + 1) bm.pat.length
        (Nat.lt_succ_self _) hpat (Nat.le_refl _) fun t h₁ h₂ => absurd h₁ (by omega)
      rw [if_pos (by omega), hj]
      simp only [Option.bind_eq_bind, Option.bind_some]
      rcases Nat.eq_zero_or_pos j with rfl | hjpos
      · rw [Nat.cast_zero, if_pos rfl]
        refine ⟨_, rfl, Or.inl ⟨s, by rw [Nat.cast_add], ?_, fun i hi hocc => ?_⟩⟩
        · exact agree_iff_occurs.mp fun t ht => hmatch t (Nat.zero_le t) ht
        · exact hnot i hi (agree_iff_occurs.mpr hocc)
      · obtain ⟨d, hd, hdpos, hdle, hskip⟩ := skipFrom_spec h hlast hjpos hjle hmatch (hne hjpos)
        rw [if_neg (by omega), hd, Option.bind_some, ← Nat.cast_add]
        refine searchFrom_spec h hpat hle fuel (s + d) (by omega) (by omega) fun i hi => ?_
        rcases Nat.lt_or_ge i s with hlt | hge
        · exact hnot i hlt
        · exact hskip i hge hi
    · rw [if_neg (by omega)]
      refine ⟨_, rfl, Or.inr ⟨fun i hocc => ?_, rfl⟩⟩
      have hagree := agree_iff_occurs.mpr hocc
      have := le_of_agree hagree hpat
      exact hnot i (by omega) hagree

/-- **`operator()`.** -/
theorem call_first (h : bm.Built) (corpus : List α) :
    ∃ r, bm.call corpus = some r ∧ IsFirst bm.pat corpus r := by
  have hshort : corpus.length < bm.pat.length →
      IsFirst bm.pat corpus (↑corpus.length, ↑corpus.length) := by
    refine fun hlt => Or.inr ⟨fun i hocc => ?_, rfl⟩
    have := le_of_agree (agree_iff_occurs.mpr hocc) (by omega)
    omega
  have hempty : bm.pat.length = 0 → IsFirst bm.pat corpus (0, 0) := fun h₀ => by
    refine Or.inl ⟨0, by rw [h₀]; rfl, ?_, fun i hi => absurd hi (Nat.not_lt_zero i)⟩
    rw [List.length_eq_zero_iff.mp h₀]
    exact List.nil_prefix
  rw [call]
  by_cases hcorpus : corpus.length = 0
  · rw [if_pos hcorpus]
    rcases Nat.eq_zero_or_pos bm.pat.length with h₀ | hpos
    · rw [hcorpus]
      exact ⟨_, rfl, hempty h₀⟩
    · exact ⟨_, rfl, hshort (by omega)⟩
  · rw [if_neg hcorpus]
    by_cases h₀ : bm.pat.length = 0
    · rw [if_pos h₀]
      exact ⟨_, rfl, hempty h₀⟩
    · rw [if_neg h₀]
      by_cases hlt : corpus.length < bm.pat.length
      · rw [if_pos hlt]
        exact ⟨_, rfl, hshort hlt⟩
      · rw [if_neg hlt]
        exact searchFrom_spec h (by omega) (by omega) _ 0 (by omega) (by omega)
          fun i hi => absurd hi (Nat.not_lt_zero i)

/-- At every position the search can reach, the pattern is found there, or the skip that follows is
at least one, ends inside the corpus and passes no occurrence. -/
def SafeSkips (bm : BoyerMoore tr) (corpus : List α) : Prop :=
  ∀ s : ℕ, s + bm.pat.length ≤ corpus.length → ∃ j : ℕ,
    matchLoop bm.pat corpus s (bm.pat.length + 1) bm.pat.length = some (j : ℤ) ∧
      (j = 0 ∧ bm.pat <+: corpus.drop s ∨
        0 < j ∧ ∃ d : ℕ, bm.skipFrom corpus s j = some (d : ℤ) ∧ 1 ≤ d ∧ s + d ≤ corpus.length ∧
          ∀ i, s ≤ i → i < s + d → ¬ bm.pat <+: corpus.drop i)

theorem skip_exact (h : bm.Built) (hpat : 0 < bm.pat.length) (corpus : List α) :
    bm.SafeSkips corpus := by
  intro s hs
  obtain ⟨j, hj, hjle, hmatch, hne⟩ := matchLoop_spec hs (bm.pat.length + 1) bm.pat.length
    (Nat.lt_succ_self _) hpat (Nat.le_refl _) fun t h₁ h₂ => absurd h₁ (by omega)
  refine ⟨j, hj, ?_⟩
  rcases Nat.eq_zero_or_pos j with rfl | hjpos
  · exact Or.inl ⟨rfl, agree_iff_occurs.mp fun t ht => hmatch t (Nat.zero_le t) ht⟩
  · obtain ⟨d, hd, hdpos, hdle, hskip⟩ := skipFrom_spec h hs hjpos hjle hmatch (hne hjpos)
    exact Or.inr ⟨hjpos, d, hd, hdpos, by omega, fun i hi hi' hocc =>
      hskip i hi hi' (agree_iff_occurs.mpr hocc)⟩

end BoyerMoore

/-- **Boyer–Moore finds the first occurrence**, for every pattern, corpus and skip table.  The
constructor leaves the last index of each element in `skip_` and, in `suffix_`, the least move that
fits each matched end; every skip is at least one and passes no occurrence; the range returned is
the first occurrence, or two ends of the corpus when there is none. -/
theorem boyerMoore_first (tr : SkipTraits α) (pattern : List α) :
    ∃ bm, BoyerMoore.construct tr pattern = some bm ∧ bm.pat = pattern ∧ bm.Built ∧
      ∀ corpus, (0 < pattern.length → bm.SafeSkips corpus) ∧
        ∃ r, boyerMooreSearch tr corpus pattern = some r ∧ bm.call corpus = some r ∧
          IsFirst pattern corpus r := by
  obtain ⟨bm, hbm, rfl, h⟩ := BoyerMoore.construct_spec tr pattern
  refine ⟨bm, hbm, rfl, h, fun corpus => ⟨fun hpat => BoyerMoore.skip_exact h hpat corpus, ?_⟩⟩
  obtain ⟨r, hr, hfirst⟩ := BoyerMoore.call_first h corpus
  refine ⟨r, ?_, hr, hfirst⟩
  rw [boyerMooreSearch, hbm]
  exact hr

end

example : boyerMooreSearch (mapTraits ℕ) [1, 2, 1, 1, 2, 1, 2] [1, 2, 1, 2] = some (3, 7) := by decide

end SourceLibs.Searching
