import Mathlib.Data.List.Lex
import Mathlib.Order.Fin.Basic
import Mathlib.Order.WithBot
import SourceLibs.Redis.SkiplistRuns
import SourceLibs.Support.Extremes

/-!
# Redis — the ends of a range of a sorted set

`zslFirstInRange`, `zslLastInRange` and their lexicographic siblings, which first look at the two ends of
the list and then go down in it.  Nothing is returned where an assertion fails or a node is read that is
not there, which includes the header.  For the lexicographic ranges an element is its bytes; lengths are
below 2^31.

* `ends_spec`: both searches, for any two conditions that hold from some node on and up to some node.
* `compareStringObjects_eq_zero`, `lt_of_compareStringObjects_pos`: the comparison is that of the bytes.
* `rangeEnds_iff`: when the ends are right.
-/

namespace SourceLibs.RedisSkiplist
open List Option SpanList Extremes

variable {σ α : Type*}

/-! ### The searches -/

/-- Whether there may be a node in a range: it is not one that is always empty, its lower end lets the last
node in and its upper end the first one. -/
def isIn (zsl : ZSkipList σ α) (empty : Bool) (gteMin lteMax : Node σ α → Bool) : Option Bool :=
  if empty then some false
  else
    match zsl.tail with
    | none => some false
    | some x =>
      match zsl.nodes x with
      | none => none
      | some n =>
        if !gteMin n then some false
        else
          match zsl.get none 0 with
          | none => none
          | some l =>
            match l.forward with
            | none => some false
            | some x => (zsl.nodes x).map lteMax

/-- Go forward while out of range; the next node is not `NULL`, and is taken if it is in range. -/
def firstIn (zsl : ZSkipList σ α) (inRange : Option Bool) (gteMin lteMax : Node σ α → Bool) :
    Option (Option ℕ) :=
  match inRange with
  | none => none
  | some false => some none
  | some true =>
    match descend zsl (fun _ n => !gteMin n) zsl.level none 0 with
    | none => none
    | some update =>
      match firstAfter zsl update with
      | some (some x) => (zsl.nodes x).map fun n => if lteMax n then some x else none
      | _ => none

/-- Go forward while in range; the node that is reached is taken if it is in range. -/
def lastIn (zsl : ZSkipList σ α) (inRange : Option Bool) (gteMin lteMax : Node σ α → Bool) :
    Option (Option ℕ) :=
  match inRange with
  | none => none
  | some false => some none
  | some true =>
    match descend zsl (fun _ n => lteMax n) zsl.level none 0 with
    | none => none
    | some update =>
      match update.head? with
      | some (some x, _) => (zsl.nodes x).map fun n => if gteMin n then some x else none
      | _ => none

section Scores
variable [LinearOrder σ]

/-- The lower end lets a score in. -/
def zslValueGteMin (value : σ) (spec : ZRangeSpec σ) : Bool :=
  if spec.minex then decide (spec.min < value) else decide (spec.min ≤ value)

/-- The upper end lets a score in. -/
def zslValueLteMax (value : σ) (spec : ZRangeSpec σ) : Bool :=
  if spec.maxex then decide (value < spec.max) else decide (value ≤ spec.max)

def zslIsInRange (zsl : ZSkipList σ α) (range : ZRangeSpec σ) : Option Bool :=
  isIn zsl (decide (range.max < range.min ∨ (range.min = range.max ∧ (range.minex ∨ range.maxex))))
    (fun n => zslValueGteMin n.score range) (fun n => zslValueLteMax n.score range)

def zslFirstInRange (zsl : ZSkipList σ α) (range : ZRangeSpec σ) : Option (Option ℕ) :=
  firstIn zsl (zslIsInRange zsl range) (fun n => zslValueGteMin n.score range)
    (fun n => zslValueLteMax n.score range)

def zslLastInRange (zsl : ZSkipList σ α) (range : ZRangeSpec σ) : Option (Option ℕ) :=
  lastIn zsl (zslIsInRange zsl range) (fun n => zslValueGteMin n.score range)
    (fun n => zslValueLteMax n.score range)

end Scores

/-! ### Strings -/

/-- What a string object holds. -/
abbrev Bytes := List (Fin 256)

/-- `memcmp` of two strings of one length; only its sign is specified. -/
def memcmp : Bytes → Bytes → ℤ
  | a :: s, b :: t => if a = b then memcmp s t else (a.val : ℤ) - b.val
  | _, _ => 0

/-- `compareStringObjects`: the bytes, and then the lengths. -/
def compareStringObjects (a b : Bytes) : ℤ :=
  let minlen := if a.length < b.length then a.length else b.length
  let cmp := memcmp (a.take minlen) (b.take minlen)
  if cmp = 0 then (a.length : ℤ) - b.length else cmp

/-- The bytes of a text. -/
def bytes (s : String) : Bytes := s.toList.map fun c => Fin.ofNat 256 c.toNat

/-- The string that is in the object; the shared ones have a text, too. -/
def LexEnd.ptr : LexEnd Bytes → Bytes
  | .minstring => bytes "minstring"
  | .maxstring => bytes "maxstring"
  | .item a => a

/-- `compareStringObjectsForLexRange` of two ends of a range. -/
def compareEnds : LexEnd Bytes → LexEnd Bytes → ℤ
  | .minstring, .minstring => 0
  | .maxstring, .maxstring => 0
  | .minstring, _ => -1
  | _, .maxstring => -1
  | .maxstring, _ => 1
  | _, .minstring => 1
  | .item a, .item b => compareStringObjects a b

def zslIsInLexRange (zsl : ZSkipList σ Bytes) (range : ZLexRangeSpec Bytes) : Option Bool :=
  isIn zsl (decide (compareEnds range.min range.max > 1 ∨
      (compareStringObjects range.min.ptr range.max.ptr = 0 ∧ (range.minex ∨ range.maxex))))
    (fun n => zslLexValueGteMin n.obj range) (fun n => zslLexValueLteMax n.obj range)

def zslFirstInLexRange (zsl : ZSkipList σ Bytes) (range : ZLexRangeSpec Bytes) : Option (Option ℕ) :=
  firstIn zsl (zslIsInLexRange zsl range) (fun n => zslLexValueGteMin n.obj range)
    (fun n => zslLexValueLteMax n.obj range)

def zslLastInLexRange (zsl : ZSkipList σ Bytes) (range : ZLexRangeSpec Bytes) : Option (Option ℕ) :=
  lastIn zsl (zslIsInLexRange zsl range) (fun n => zslLexValueGteMin n.obj range)
    (fun n => zslLexValueLteMax n.obj range)

/-! ### What the searches return -/

/-- A condition holds of the node at an address. -/
def ZSkipList.Holds (zsl : ZSkipList σ α) (cond : Node σ α → Bool) (p : ℕ) : Prop :=
  ∃ n, zsl.nodes p = some n ∧ cond n = true

/-- Two searches return the first and the last node of which `P` holds. -/
def Ends (P : ℕ → Prop) (order : List ℕ) (first last : Option (Option ℕ)) : Prop :=
  (∃ r, first = some r ∧ IsFirst P order r) ∧ ∃ r, last = some r ∧ IsLast P order r

section Searches
variable {zsl : ZSkipList σ α} {order : List ℕ} {cond gteMin lteMax : Node σ α → Bool} {p : ℕ}

theorem holds_iff {n : Node σ α} (hn : zsl.nodes p = some n) : zsl.Holds cond p ↔ cond n = true := by
  constructor
  · rintro ⟨m, hm, hcond⟩
    exact some.inj (hn.symm.trans hm) ▸ hcond
  · exact fun hcond => ⟨n, hn, hcond⟩

/-- The check of the two ends of the list. -/
theorem isIn_spec (h : Rep zsl order) (gteMin lteMax : Node σ α → Bool) :
    ∃ b, isIn zsl false gteMin lteMax = some b ∧
      (b = true ↔ (∃ p, order.getLast? = some p ∧ zsl.Holds gteMin p) ∧
        ∃ p, order.head? = some p ∧ zsl.Holds lteMax p) := by
  obtain ⟨hget, hforward⟩ := h.forward_zero (nil_append order).symm
  rw [getLast?_nil] at hget hforward
  rw [isIn, if_neg Bool.false_ne_true, h.tail, hget]
  cases hlast : order.getLast? with
  | none => exact ⟨false, rfl, by simp⟩
  | some x =>
    obtain ⟨n, hn⟩ := (h.alloc x).mpr (mem_of_getLast? hlast)
    dsimp only
    rw [hn, hforward]
    dsimp only
    cases hgte : gteMin n with
    | false => exact ⟨false, rfl, by simp [holds_iff hn, hgte]⟩
    | true =>
      cases hhead : order.head? with
      | none => exact ⟨false, rfl, by simp⟩
      | some y =>
        obtain ⟨m, hm⟩ := (h.alloc y).mpr (mem_of_head? hhead)
        refine ⟨lteMax m, by simp [hm], ?_⟩
        simp [holds_iff hn, holds_iff hm, hgte]

/-- Going down ends where a condition no longer holds. -/
theorem descend_cut (h : Rep zsl order) (cond : Node σ α → Bool) : ∃ pre suf, order = pre ++ suf ∧
    descend zsl (fun _ n => cond n) zsl.level none 0 = some (places zsl pre zsl.level) ∧
    (∀ q, pre.getLast? = some q → zsl.Holds cond q) ∧ ∀ q, suf.head? = some q → ¬ zsl.Holds cond q := by
  obtain ⟨pre, suf, rfl, hdesc, hlast, hhead⟩ := descend_all h (h.skips fun _ n => cond n)
  refine ⟨pre, suf, rfl, hdesc, fun q hq => ?_, fun q hq => ?_⟩
  · obtain ⟨n, hn⟩ := (h.alloc q).mpr (mem_append_left _ (mem_of_getLast? hq))
    exact ⟨n, hn, (skips_eq hn).symm.trans (hlast q hq)⟩
  · obtain ⟨n, hn⟩ := (h.alloc q).mpr (mem_append_right _ (mem_of_head? hq))
    have hskip : cond n = false := (skips_eq hn).symm.trans (hhead q hq)
    rw [holds_iff hn, hskip]
    exact Bool.false_ne_true

/-- If the check fails there is no node in the range. -/
theorem not_mem_of_isIn (hgte : Upward (zsl.Holds gteMin) order)
    (hlte : Downward (zsl.Holds lteMax) order)
    (hnot : ¬ ((∃ p, order.getLast? = some p ∧ zsl.Holds gteMin p) ∧
      ∃ p, order.head? = some p ∧ zsl.Holds lteMax p)) :
    ∀ p ∈ order, ¬ (zsl.Holds gteMin p ∧ zsl.Holds lteMax p) := by
  rintro p hp ⟨hpgte, hplte⟩
  refine hnot ⟨?_, ?_⟩
  · by_contra hlast
    exact hgte.not_of_last (fun x hx hxgte => hlast ⟨x, hx, hxgte⟩) p hp hpgte
  · by_contra hhead
    exact hlte.not.of_head (fun x hx hxlte => hhead ⟨x, hx, hxlte⟩) p hp hplte

/-- **The first node of a range.** -/
theorem firstIn_spec (h : Rep zsl order) (hgte : Upward (zsl.Holds gteMin) order)
    (hlte : Downward (zsl.Holds lteMax) order) :
    ∃ r, firstIn zsl (isIn zsl false gteMin lteMax) gteMin lteMax = some r ∧
      IsFirst (fun p => zsl.Holds gteMin p ∧ zsl.Holds lteMax p) order r := by
  obtain ⟨b, hb, hiff⟩ := isIn_spec h gteMin lteMax
  rw [hb]
  cases b with
  | false => exact ⟨none, rfl, not_mem_of_isIn hgte hlte fun hin => Bool.false_ne_true (hiff.mpr hin)⟩
  | true =>
    obtain ⟨⟨z, hz, hzgte⟩, -⟩ := hiff.mp rfl
    obtain ⟨pre, suf, rfl, hdesc, hlast, hhead⟩ := descend_cut h fun n => !gteMin n
    have hout : ∀ q, pre.getLast? = some q → ¬ zsl.Holds gteMin q := by
      intro q hq
      obtain ⟨n, hn, hnot⟩ := hlast q hq
      rw [holds_iff hn]
      simpa using hnot
    have hin : ∀ q, suf.head? = some q → zsl.Holds gteMin q := by
      intro q hq
      obtain ⟨n, hn⟩ := (h.alloc q).mpr (mem_append_right _ (mem_of_head? hq))
      have hyes := hhead q hq
      rw [holds_iff hn] at hyes ⊢
      simpa using hyes
    obtain ⟨hpre, hsuf⟩ := hgte.cut hout hin
    -- The last node is in the range from below, so the search stops before it.
    obtain ⟨x, suf, rfl⟩ : ∃ x m, suf = x :: m := by
      cases suf with
      | nil =>
        rw [append_nil] at hz
        exact absurd hzgte (hpre z (mem_of_getLast? hz))
      | cons x m => exact ⟨x, m, rfl⟩
    obtain ⟨n, hn⟩ := (h.alloc x).mpr (by simp)
    obtain ⟨hget, hforward⟩ := h.forward_zero (rfl : pre ++ x :: suf = pre ++ x :: suf)
    obtain ⟨us, hus⟩ : ∃ us, places zsl pre zsl.level = (pre.getLast?, pre.length) :: us :=
      head?_eq_some_iff.mp (h.head?_places rfl h.level.1)
    rw [firstIn, hdesc, hus]
    dsimp only
    rw [firstAfter, hget, map_some, hforward, head?_cons]
    dsimp only
    rw [hn, map_some]
    refine ⟨_, rfl, isFirst_of_cut hpre hsuf hlte (fun y hy => ?_) fun hnone y hy => ?_⟩
    · cases hmax : lteMax n with
      | false =>
        rw [hmax] at hy
        cases hy
      | true =>
        rw [hmax] at hy
        obtain rfl := some.inj hy
        exact ⟨rfl, n, hn, hmax⟩
    · obtain rfl := some.inj hy
      rw [holds_iff hn]
      intro hmax
      rw [if_pos hmax] at hnone
      cases hnone

/-- **The last node of a range.** -/
theorem lastIn_spec (h : Rep zsl order) (hgte : Upward (zsl.Holds gteMin) order)
    (hlte : Downward (zsl.Holds lteMax) order) :
    ∃ r, lastIn zsl (isIn zsl false gteMin lteMax) gteMin lteMax = some r ∧
      IsLast (fun p => zsl.Holds gteMin p ∧ zsl.Holds lteMax p) order r := by
  obtain ⟨b, hb, hiff⟩ := isIn_spec h gteMin lteMax
  rw [hb]
  cases b with
  | false => exact ⟨none, rfl, not_mem_of_isIn hgte hlte fun hin => Bool.false_ne_true (hiff.mpr hin)⟩
  | true =>
    obtain ⟨-, z, hz, hzlte⟩ := hiff.mp rfl
    obtain ⟨pre, suf, rfl, hdesc, hlast, hhead⟩ := descend_cut h lteMax
    obtain ⟨hpre, hsuf⟩ := hlte.not.cut (fun q hq hout => hout (hlast q hq)) hhead
    have hpre' : ∀ q ∈ pre, zsl.Holds lteMax q := fun q hq => not_not.mp (hpre q hq)
    -- The first node is in the range from above, so the search passes it.
    rcases eq_nil_or_concat' pre with rfl | ⟨m, x, rfl⟩
    · exact absurd hzlte (hsuf z (mem_of_head? hz))
    · obtain ⟨n, hn⟩ := (h.alloc x).mpr (by simp)
      rw [lastIn, hdesc]
      dsimp only
      rw [h.head?_places rfl h.level.1, getLast?_concat]
      dsimp only
      rw [hn, map_some]
      refine ⟨_, rfl, isLast_of_cut hpre' hsuf hgte (fun y hy => ?_) fun hnone y hy => ?_⟩
      · cases hmin : gteMin n with
        | false =>
          rw [hmin] at hy
          cases hy
        | true =>
          rw [hmin] at hy
          obtain rfl := some.inj hy
          exact ⟨getLast?_concat, n, hn, hmin⟩
      · rw [getLast?_concat] at hy
        obtain rfl := some.inj hy
        rw [holds_iff hn]
        intro hmin
        rw [if_pos hmin] at hnone
        cases hnone

/-- **The ends of a range** that is not taken for one that is always empty. -/
theorem ends_spec (h : Rep zsl order) (hgte : Upward (zsl.Holds gteMin) order)
    (hlte : Downward (zsl.Holds lteMax) order) :
    Ends (fun p => zsl.Holds gteMin p ∧ zsl.Holds lteMax p) order
      (firstIn zsl (isIn zsl false gteMin lteMax) gteMin lteMax)
      (lastIn zsl (isIn zsl false gteMin lteMax) gteMin lteMax) :=
  ⟨firstIn_spec h hgte hlte, lastIn_spec h hgte hlte⟩

theorem ends_empty_iff {P : ℕ → Prop} : Ends P order
    (firstIn zsl (isIn zsl true gteMin lteMax) gteMin lteMax)
    (lastIn zsl (isIn zsl true gteMin lteMax) gteMin lteMax) ↔ ¬ ∃ p ∈ order, P p := by
  constructor
  · rintro ⟨⟨r, hr, hfirst⟩, -⟩
    obtain rfl := some.inj hr
    exact isFirst_none_iff.mp hfirst
  · exact fun hnot => ⟨⟨none, rfl, isFirst_none_iff.mpr hnot⟩, none, rfl, isLast_none_iff.mpr hnot⟩

end Searches

/-! ### Comparing strings -/

theorem compareStringObjects_cons (x y : Fin 256) (a b : Bytes) :
    compareStringObjects (x :: a) (y :: b) =
      if x = y then compareStringObjects a b else (x.val : ℤ) - y.val := by
  have hlen : (if (x :: a).length < (y :: b).length then (x :: a).length else (y :: b).length) =
      (if a.length < b.length then a.length else b.length) + 1 := by
    rw [length_cons, length_cons]
    split <;> split <;> omega
  rw [compareStringObjects, hlen, take_succ_cons, take_succ_cons, memcmp]
  by_cases hxy : x = y
  · rw [if_pos hxy, if_pos hxy, compareStringObjects, length_cons, length_cons]
    have hdiff : ((a.length + 1 : ℕ) : ℤ) - (b.length + 1 : ℕ) = a.length - b.length := by omega
    rw [hdiff]
  · have hne : (x.val : ℤ) - y.val ≠ 0 := fun h0 => hxy (Fin.ext (by omega))
    rw [if_neg hxy, if_neg hxy, if_neg hne]

theorem compareStringObjects_nil (b : Bytes) : compareStringObjects [] b = -b.length := by
  rw [compareStringObjects]
  simp [memcmp]

theorem compareStringObjects_nil_right (a : Bytes) : compareStringObjects a [] = a.length := by
  rw [compareStringObjects]
  cases a with
  | nil => rfl
  | cons x a => simp [memcmp]

/-- **Strings are compared by their bytes.** -/
theorem compareStringObjects_spec (a : Bytes) : ∀ b : Bytes,
    (compareStringObjects a b = 0 ↔ a = b) ∧ (0 < compareStringObjects a b → b < a) := by
  induction a with
  | nil =>
    intro b
    rw [compareStringObjects_nil]
    refine ⟨⟨fun h0 => ?_, fun hb => ?_⟩, fun hpos => absurd hpos (by omega)⟩
    · exact (eq_nil_of_length_eq_zero (by omega)).symm
    · rw [← hb]
      rfl
  | cons x a ih =>
    intro b
    cases b with
    | nil =>
      rw [compareStringObjects_nil_right]
      refine ⟨⟨fun h0 => ?_, nofun⟩, fun _ => nil_lt_cons x a⟩
      rw [length_cons] at h0
      omega
    | cons y b =>
      rw [compareStringObjects_cons]
      by_cases hxy : x = y
      · obtain ⟨hzero, hpos⟩ := ih b
        rw [if_pos hxy, List.cons.injEq, cons_lt_cons_iff]
        exact ⟨hzero.trans ⟨fun hab => ⟨hxy, hab⟩, fun hab => hab.2⟩,
          fun hlt => .inr ⟨hxy.symm, hpos hlt⟩⟩
      · have hne : x.val ≠ y.val := fun heq => hxy (Fin.ext heq)
        rw [if_neg hxy, List.cons.injEq, cons_lt_cons_iff, Fin.lt_def]
        exact ⟨⟨fun h0 => absurd h0 (by omega), fun hab => absurd hab.1 hxy⟩,
          fun hlt => .inl (by omega)⟩

/-! ### Ranges -/

section Ranges
variable [LinearOrder σ] [LinearOrder α]

/-- The score of a node is in a range. -/
def ZSkipList.InRange (zsl : ZSkipList σ α) (range : ZRangeSpec σ) (p : ℕ) : Prop :=
  ∃ n, zsl.nodes p = some n ∧ n.score ∈ above range.min range.minex ∧
    n.score ∈ below range.max range.maxex

/-- An end of a lexicographic range: minus infinity, plus infinity, or a string. -/
def LexEnd.value : LexEnd α → WithBot (WithTop α)
  | .minstring => ⊥
  | .maxstring => ⊤
  | .item a => ((a : WithTop α) : WithBot (WithTop α))

/-- The element of a node is in a lexicographic range. -/
def ZSkipList.InLexRange (zsl : ZSkipList σ α) (range : ZLexRangeSpec α) (p : ℕ) : Prop :=
  ∃ n, zsl.nodes p = some n ∧ (LexEnd.item n.obj).value ∈ above range.min.value range.minex ∧
    (LexEnd.item n.obj).value ∈ below range.max.value range.maxex

theorem item_lt_item {a b : α} : (LexEnd.item a).value < (LexEnd.item b).value ↔ a < b := by
  rw [LexEnd.value, LexEnd.value, WithBot.coe_lt_coe, WithTop.coe_lt_coe]

theorem minstring_lt_item (a : α) : (LexEnd.minstring : LexEnd α).value < (LexEnd.item a).value :=
  WithBot.bot_lt_coe _

theorem item_lt_maxstring (a : α) : (LexEnd.item a).value < (LexEnd.maxstring : LexEnd α).value :=
  WithBot.coe_lt_coe.mpr (WithTop.coe_lt_top a)

theorem compareForLexRange_lt_iff {a : α} {e : LexEnd α} :
    compareForLexRange a e = .lt ↔ (LexEnd.item a).value < e.value := by
  cases e with
  | minstring =>
    exact ⟨nofun, fun hlt => absurd hlt (minstring_lt_item a).not_gt⟩
  | maxstring => exact ⟨fun _ => item_lt_maxstring a, fun _ => rfl⟩
  | item b => rw [compareForLexRange, item_lt_item, compare_lt_iff_lt]

theorem compareForLexRange_gt_iff {a : α} {e : LexEnd α} :
    compareForLexRange a e = .gt ↔ e.value < (LexEnd.item a).value := by
  cases e with
  | minstring => exact ⟨fun _ => minstring_lt_item a, fun _ => rfl⟩
  | maxstring =>
    exact ⟨nofun, fun hlt => absurd hlt (item_lt_maxstring a).not_gt⟩
  | item b => rw [compareForLexRange, item_lt_item, compare_gt_iff_gt]

theorem zslLexValueGteMin_iff {a : α} {range : ZLexRangeSpec α} :
    zslLexValueGteMin a range = true ↔
      (LexEnd.item a).value ∈ above range.min.value range.minex := by
  rw [zslLexValueGteMin, above]
  cases range.minex with
  | true =>
    rw [if_pos rfl, if_pos rfl, decide_eq_true_iff, compareForLexRange_gt_iff]
    exact Iff.rfl
  | false =>
    rw [if_neg Bool.false_ne_true, if_neg Bool.false_ne_true, decide_eq_true_iff, ne_eq,
      compareForLexRange_lt_iff, not_lt]
    exact Iff.rfl

theorem zslLexValueLteMax_iff {a : α} {range : ZLexRangeSpec α} :
    zslLexValueLteMax a range = true ↔
      (LexEnd.item a).value ∈ below range.max.value range.maxex := by
  rw [zslLexValueLteMax, below]
  cases range.maxex with
  | true =>
    rw [if_pos rfl, if_pos rfl, decide_eq_true_iff, compareForLexRange_lt_iff]
    exact Iff.rfl
  | false =>
    rw [if_neg Bool.false_ne_true, if_neg Bool.false_ne_true, decide_eq_true_iff, ne_eq,
      compareForLexRange_gt_iff, not_lt]
    exact Iff.rfl

theorem zslValueGteMin_iff {s : σ} {range : ZRangeSpec σ} :
    zslValueGteMin s range = true ↔ s ∈ above range.min range.minex := by
  rw [zslValueGteMin, above]
  cases range.minex with
  | true => rw [if_pos rfl, if_pos rfl, decide_eq_true_iff, Set.mem_Ioi]
  | false =>
    rw [if_neg Bool.false_ne_true, if_neg Bool.false_ne_true, decide_eq_true_iff, Set.mem_Ici]

theorem zslValueLteMax_iff {s : σ} {range : ZRangeSpec σ} :
    zslValueLteMax s range = true ↔ s ∈ below range.max range.maxex := by
  rw [zslValueLteMax, below]
  cases range.maxex with
  | true => rw [if_pos rfl, if_pos rfl, decide_eq_true_iff, Set.mem_Iio]
  | false =>
    rw [if_neg Bool.false_ne_true, if_neg Bool.false_ne_true, decide_eq_true_iff, Set.mem_Iic]

/-- In a sorted list a condition that goes on to later keys holds from some node on. -/
theorem Sorted.upward {zsl : ZSkipList σ α} {order : List ℕ} (hs : Sorted zsl order) (h : Rep zsl order)
    {cond : Node σ α → Bool} (hup : ∀ p q n m, zsl.nodes p = some n → zsl.nodes q = some m →
      n.key < m.key → cond n = true → cond m = true) : Upward (zsl.Holds cond) order := by
  refine hs.strict.imp_of_mem fun {p q} _ hq hlt ⟨n, hn, hcond⟩ => ?_
  obtain ⟨m, hm⟩ := (h.alloc q).mpr hq
  exact ⟨m, hm, hup p q n m hn hm (hlt n m hn hm) hcond⟩

theorem Sorted.downward {zsl : ZSkipList σ α} {order : List ℕ} (hs : Sorted zsl order)
    (h : Rep zsl order) {cond : Node σ α → Bool} (hdown : ∀ p q n m, zsl.nodes p = some n →
      zsl.nodes q = some m → n.key < m.key → cond m = true → cond n = true) :
    Downward (zsl.Holds cond) order := by
  refine hs.strict.imp_of_mem fun {p q} hp _ hlt ⟨m, hm, hcond⟩ => ?_
  obtain ⟨n, hn⟩ := (h.alloc p).mpr hp
  exact ⟨n, hn, hdown p q n m hn hm (hlt n m hn hm) hcond⟩

/-- **The ends of a range of scores.** -/
theorem scoreEnds {zsl : ZSkipList σ α} {order : List ℕ} (h : Rep zsl order) (hs : Sorted zsl order)
    (range : ZRangeSpec σ) : Ends (zsl.InRange range) order (zslFirstInRange zsl range)
      (zslLastInRange zsl range) := by
  have hscore : ∀ {n m : Node σ α}, n.key < m.key → n.score ≤ m.score := fun {n m} hlt =>
    (Prod.Lex.toLex_le_toLex'.mp hlt.le).1
  have hup : Upward (zsl.Holds fun n => zslValueGteMin n.score range) order :=
    hs.upward h fun _ _ n m _ _ hlt hgte => zslValueGteMin_iff.mpr
      (above_mono (hscore hlt) (zslValueGteMin_iff.mp hgte))
  have hdown : Downward (zsl.Holds fun n => zslValueLteMax n.score range) order :=
    hs.downward h fun _ _ n m _ _ hlt hlte => zslValueLteMax_iff.mpr
      (below_anti (hscore hlt) (zslValueLteMax_iff.mp hlte))
  have hP : zsl.InRange range = fun p => zsl.Holds (fun n => zslValueGteMin n.score range) p ∧
      zsl.Holds (fun n => zslValueLteMax n.score range) p := by
    funext p
    refine propext ⟨?_, ?_⟩
    · rintro ⟨n, hn, hgte, hlte⟩
      exact ⟨⟨n, hn, zslValueGteMin_iff.mpr hgte⟩, n, hn, zslValueLteMax_iff.mpr hlte⟩
    · rintro ⟨⟨n, hn, hgte⟩, hlte⟩
      exact ⟨n, hn, zslValueGteMin_iff.mp hgte, zslValueLteMax_iff.mp ((holds_iff hn).mp hlte)⟩
  rw [zslFirstInRange, zslLastInRange, zslIsInRange]
  by_cases hempty : range.max < range.min ∨ (range.min = range.max ∧ (range.minex ∨ range.maxex))
  · rw [decide_eq_true hempty, ends_empty_iff]
    rintro ⟨p, -, n, -, hin⟩
    exact not_mem_of_empty hempty hin
  · rw [decide_eq_false hempty, hP]
    exact ends_spec h hup hdown

end Ranges

/-! ### Lexicographic ranges -/

section Lex

/-- A range with an end at infinity and an end at the text of the object for that infinity, which is taken
for a range that is always empty. -/
def Mistaken (range : ZLexRangeSpec Bytes) : Prop :=
  (range.minex ∨ range.maxex) ∧
    ((range.min = .minstring ∧ range.max = .item (bytes "minstring")) ∨
      (range.min = .item (bytes "maxstring") ∧ range.max = .maxstring))

theorem lt_of_compareEnds {a b : LexEnd Bytes} (h : compareEnds a b > 1) : b.value < a.value := by
  cases a with
  | minstring => cases b <;> simp [compareEnds] at h
  | maxstring => cases b <;> simp [compareEnds] at h
  | item a =>
    cases b with
    | minstring => simp [compareEnds] at h
    | maxstring => simp [compareEnds] at h
    | item b =>
      rw [compareEnds] at h
      exact item_lt_item.mpr ((compareStringObjects_spec a b).2 (by omega))

theorem ends_of_ptr_eq {a b : LexEnd Bytes} (h : a.ptr = b.ptr) : a.value = b.value ∨
    b.value < a.value ∨ (a = .minstring ∧ b = .item (bytes "minstring")) ∨
      (a = .item (bytes "maxstring") ∧ b = .maxstring) := by
  have hne : bytes "minstring" ≠ bytes "maxstring" := by decide
  cases a with
  | minstring =>
    cases b with
    | minstring => exact .inl rfl
    | maxstring => exact absurd h hne
    | item b => exact .inr (.inr (.inl ⟨rfl, congrArg LexEnd.item h.symm⟩))
  | maxstring =>
    cases b with
    | minstring => exact absurd h.symm hne
    | maxstring => exact .inl rfl
    | item b => exact .inr (.inl (item_lt_maxstring b))
  | item a =>
    cases b with
    | minstring => exact .inr (.inl (minstring_lt_item a))
    | maxstring => exact .inr (.inr (.inr ⟨congrArg LexEnd.item h, rfl⟩))
    | item b => exact .inl (congrArg (fun c => (LexEnd.item c).value) h)

variable [LinearOrder σ] {zsl : ZSkipList σ Bytes} {order : List ℕ}

/-- **The ends of a lexicographic range.** -/
theorem lexEnds_iff (h : Rep zsl order) (hs : Sorted zsl order)
    (hscore : ∀ p q n m, zsl.nodes p = some n → zsl.nodes q = some m → n.score = m.score)
    (range : ZLexRangeSpec Bytes) : Ends (zsl.InLexRange range) order (zslFirstInLexRange zsl range)
      (zslLastInLexRange zsl range) ↔ ¬ (Mistaken range ∧ ∃ p ∈ order, zsl.InLexRange range p) := by
  have hvalue : ∀ p q n m, zsl.nodes p = some n → zsl.nodes q = some m → n.key < m.key →
      (LexEnd.item n.obj).value ≤ (LexEnd.item m.obj).value := by
    intro p q n m hn hm hlt
    rcases Prod.Lex.toLex_lt_toLex.mp hlt with hlt | ⟨-, hlt⟩
    · exact absurd (hscore p q n m hn hm) hlt.ne
    · exact (item_lt_item.mpr hlt).le
  have hup : Upward (zsl.Holds fun n => zslLexValueGteMin n.obj range) order :=
    hs.upward h fun p q n m hn hm hlt hgte => zslLexValueGteMin_iff.mpr
      (above_mono (hvalue p q n m hn hm hlt) (zslLexValueGteMin_iff.mp hgte))
  have hdown : Downward (zsl.Holds fun n => zslLexValueLteMax n.obj range) order :=
    hs.downward h fun p q n m hn hm hlt hlte => zslLexValueLteMax_iff.mpr
      (below_anti (hvalue p q n m hn hm hlt) (zslLexValueLteMax_iff.mp hlte))
  have hP : zsl.InLexRange range = fun p => zsl.Holds (fun n => zslLexValueGteMin n.obj range) p ∧
      zsl.Holds (fun n => zslLexValueLteMax n.obj range) p := by
    funext p
    refine propext ⟨?_, ?_⟩
    · rintro ⟨n, hn, hgte, hlte⟩
      exact ⟨⟨n, hn, zslLexValueGteMin_iff.mpr hgte⟩, n, hn, zslLexValueLteMax_iff.mpr hlte⟩
    · rintro ⟨⟨n, hn, hgte⟩, hlte⟩
      exact ⟨n, hn, zslLexValueGteMin_iff.mp hgte, zslLexValueLteMax_iff.mp ((holds_iff hn).mp hlte)⟩
  rw [zslFirstInLexRange, zslLastInLexRange, zslIsInLexRange]
  by_cases hempty : compareEnds range.min range.max > 1 ∨
      (compareStringObjects range.min.ptr range.max.ptr = 0 ∧ (range.minex ∨ range.maxex))
  · rw [decide_eq_true hempty, ends_empty_iff]
    have hreally : range.max.value < range.min.value ∨
        (range.min.value = range.max.value ∧ (range.minex ∨ range.maxex)) →
        (¬ (∃ p ∈ order, zsl.InLexRange range p) ↔
          ¬ (Mistaken range ∧ ∃ p ∈ order, zsl.InLexRange range p)) := by
      intro hreally
      have hnone : ¬ ∃ p ∈ order, zsl.InLexRange range p := fun ⟨p, _, n, _, hin⟩ =>
        not_mem_of_empty hreally hin
      exact ⟨fun _ hboth => hnone hboth.2, fun _ => hnone⟩
    rcases hempty with hgt | ⟨hzero, hex⟩
    · exact hreally (.inl (lt_of_compareEnds hgt))
    · rcases ends_of_ptr_eq ((compareStringObjects_spec _ _).1.mp hzero) with heq | hlt | hinf
      · exact hreally (.inr ⟨heq, hex⟩)
      · exact hreally (.inl hlt)
      · exact ⟨fun hnone hboth => hnone hboth.2, fun hnot hin => hnot ⟨⟨hex, hinf⟩, hin⟩⟩
  · rw [decide_eq_false hempty, hP]
    refine ⟨fun _ ⟨⟨hex, hinf⟩, _⟩ => hempty (.inr ⟨?_, hex⟩), fun _ => ends_spec h hup hdown⟩
    refine (compareStringObjects_spec _ _).1.mpr ?_
    rcases hinf with ⟨hmin, hmax⟩ | ⟨hmin, hmax⟩
    · rw [hmin, hmax]
      rfl
    · rw [hmin, hmax]
      rfl

/-- **The ends of a range are right**: always if it is a range of scores; if it is a lexicographic one of
elements with one score, then just when it is not mistaken for an empty one. -/
theorem rangeEnds_iff (h : Rep zsl order) (hs : Sorted zsl order) :
    (∀ range : ZRangeSpec σ, Ends (zsl.InRange range) order (zslFirstInRange zsl range)
      (zslLastInRange zsl range)) ∧
    ((∀ p q n m, zsl.nodes p = some n → zsl.nodes q = some m → n.score = m.score) →
      ∀ range : ZLexRangeSpec Bytes, Ends (zsl.InLexRange range) order (zslFirstInLexRange zsl range)
        (zslLastInLexRange zsl range) ↔
          ¬ (Mistaken range ∧ ∃ p ∈ order, zsl.InLexRange range p)) :=
  ⟨scoreEnds h hs, lexEnds_iff h hs⟩

/-- A list of one element. -/
theorem exists_single (score : σ) (obj : Bytes) : ∃ zsl : ZSkipList σ Bytes,
    Rep zsl [1] ∧ Sorted zsl [1] ∧ ∀ p n, zsl.nodes p = some n → n.score = score ∧ n.obj = obj := by
  obtain ⟨pre, suf, zsl, hnil, -, hrep, hlast, hhead, hcorex, hcore⟩ :=
    zslInsert_rep rep_zslCreate le_rfl (show 1 ≤ 32 by decide)
      (not_mem_nil : 1 ∉ ([] : List ℕ)) score obj
  obtain ⟨rfl, rfl⟩ := append_eq_nil_iff.mp hnil.symm
  obtain ⟨n, hn, hcn⟩ := map_eq_some_iff.mp hcorex
  have hs : Sorted zsl [1] :=
    sorted_zslCreate.insert rep_zslCreate hrep hlast hhead hcorex hcore fun _ _ hm => nomatch hm
  refine ⟨zsl, hrep, hs, fun p m hm => ?_⟩
  obtain rfl := mem_singleton.mp ((hrep.alloc p).mp ⟨m, hm⟩)
  obtain rfl := some.inj (hn.symm.trans hm)
  exact ⟨congrArg (fun c => c.1) hcn, congrArg (fun c => c.2.1) hcn⟩

/-- A list of two elements with one score. -/
theorem exists_pair (score : σ) {obj obj' : Bytes} (hne : obj ≠ obj') :
    ∃ (zsl : ZSkipList σ Bytes) (order : List ℕ), order.length = 2 ∧ Rep zsl order ∧ Sorted zsl order ∧
      ∀ p n, zsl.nodes p = some n → n.score = score := by
  obtain ⟨zsl, hrep, hs, hall⟩ := exists_single score obj
  obtain ⟨pre, suf, z, hone, -, hrep', hlast, hhead, hcorex, hcore⟩ :=
    zslInsert_rep hrep le_rfl (show 1 ≤ 32 by decide) (show 2 ∉ [1] by decide) score obj'
  have hlen : pre.length + suf.length = 1 := by rw [← length_append, ← hone, length_singleton]
  rw [hone] at hrep hs
  refine ⟨z, pre ++ 2 :: suf, ?_, hrep', hs.insert hrep hrep' hlast hhead hcorex hcore
    fun p n hn => (hall p n hn).2.trans_ne hne, fun p n hn => ?_⟩
  · rw [length_append, length_cons]
    omega
  · by_cases hp : p = 2
    · rw [hp] at hn
      rw [hn] at hcorex
      exact congrArg (fun c => c.1) (some.inj hcorex)
    · have hcorep := hcore p hp
      rw [hn] at hcorep
      obtain ⟨m, hm, hcm⟩ := map_eq_some_iff.mp hcorep.symm
      exact (congrArg (fun c => c.1) hcm).symm.trans (hall p m hm).1

/-- Everything below the string `minstring`: the list has the element `a`, and nothing is found. -/
theorem lexEnds_below_minstring : ∃ (zsl : ZSkipList ℕ Bytes) (order : List ℕ), Rep zsl order ∧
    Sorted zsl order ∧
    (∀ p q n m, zsl.nodes p = some n → zsl.nodes q = some m → n.score = m.score) ∧
    ¬ Ends (zsl.InLexRange ⟨.minstring, .item (bytes "minstring"), false, true⟩) order
      (zslFirstInLexRange zsl ⟨.minstring, .item (bytes "minstring"), false, true⟩)
      (zslLastInLexRange zsl ⟨.minstring, .item (bytes "minstring"), false, true⟩) := by
  obtain ⟨zsl, hrep, hs, hall⟩ := exists_single 0 (bytes "a")
  have hscore : ∀ p q n m, zsl.nodes p = some n → zsl.nodes q = some m → n.score = m.score :=
    fun p q n m hn hm => (hall p n hn).1.trans (hall q m hm).1.symm
  obtain ⟨n, hn⟩ := (hrep.alloc 1).mpr mem_cons_self
  refine ⟨zsl, [1], hrep, hs, hscore, fun hends => ?_⟩
  refine (lexEnds_iff hrep hs hscore _).mp hends ⟨⟨.inr rfl, .inl ⟨rfl, rfl⟩⟩, 1, by simp, n, hn, ?_, ?_⟩
  · exact (minstring_lt_item n.obj).le
  · rw [(hall 1 n hn).2]
    exact item_lt_item.mpr (by decide)

theorem rangeEnds_iff_pair : ∃ (zsl : ZSkipList ℕ Bytes) (order : List ℕ), order.length = 2 ∧
    (∀ range : ZRangeSpec ℕ, Ends (zsl.InRange range) order (zslFirstInRange zsl range)
      (zslLastInRange zsl range)) ∧
    ∀ range : ZLexRangeSpec Bytes, Ends (zsl.InLexRange range) order (zslFirstInLexRange zsl range)
      (zslLastInLexRange zsl range) ↔ ¬ (Mistaken range ∧ ∃ p ∈ order, zsl.InLexRange range p) := by
  obtain ⟨zsl, order, hlen, hrep, hs, hscore⟩ :=
    exists_pair 0 (show bytes "a" ≠ bytes "b" by decide)
  obtain ⟨hscores, hlex⟩ := rangeEnds_iff hrep hs
  exact ⟨zsl, order, hlen, hscores,
    hlex fun p q n m hn hm => (hscore p n hn).trans (hscore q m hm).symm⟩

end Lex

end SourceLibs.RedisSkiplist
